/-
How the passes over a format share out the arguments.

A pass asks for one argument for each `*` and for each conversion, so what it asks for is read off
the format (`uses?`), and it is the same in every pass. Each part of a pass takes its arguments from
where the part before has stopped, and whatever else it does depends on these arguments only
(`Takes`). So a pass depends on a window of the arguments, as wide as what it asks for, in which a
missing argument is an empty text.

The loop of the passes then cuts the arguments into windows one behind the other: none is left out,
none is seen twice, and there is no further pass when none is left (`format_eq_passes`).
-/
import Mathlib.Data.List.Forall2
import Mathlib.Tactic.Choose
import Shell.Builtin.Printf

set_option autoImplicit false

namespace Shell.Printf

open Shell.Text

/-! ## 1. What a format asks for -/

/-- What an argument is asked for. -/
inductive Use where
  /-- A width or a precision. -/
  | amount
  | value (conversion : Conversion)
  deriving DecidableEq, Repr

def Amount.uses : Amount → List Use
  | .star => [.amount]
  | .none | .digits _ => []

/-- A conversion uses an argument for each `*` and one for itself. -/
def Spec.uses (spec : Spec) : List Use :=
  spec.width.uses ++ (spec.precision.uses ++ [.value spec.conversion])

/-- What a pass over a format asks the arguments for, in this order. None if the format has an
invalid conversion or an escape that ends the output; an escape that cannot be decoded ends the pass
with a fault, so that nothing is asked for behind it. -/
def uses? : List Char → Option (List Use)
  | [] => some []
  | c :: cs =>
    if c = '\\' then
      match Escape.decode false cs with
      | .error () => some []
      | .ok decoded => if decoded.stop then none else uses? (cs.drop decoded.extent)
    else if c = '%' then
      if cs.head? = some '%' then uses? (cs.drop 1)
      else
        match takeSpec? cs with
        | none => none
        | some (spec, extent) => (uses? (cs.drop extent)).map (spec.uses ++ ·)
    else uses? cs
termination_by cs => cs.length
decreasing_by all_goals simp only [List.length_cons, List.length_drop]; omega

/-- A percent sign that starts no conversion ends the format with a mistake. -/
theorem uses?_of_invalid {cs : List Char} (hpercent : ¬cs.head? = some '%')
    (h : takeSpec? cs = none) : uses? ('%' :: cs) = none := by
  rw [uses?, if_neg (by decide), if_pos rfl, if_neg hpercent, h]

/-- Whether an argument, taken by `%b`, ends the output. -/
def stops (arg : String) : Bool :=
  match Escape.argument arg.toList with
  | .ok expanded => expanded.ended
  | .error () => false

/-- The output goes on behind an argument that is used so. -/
def Use.Admits (use : Use) (arg : String) : Prop := use = .value .escaped → stops arg = false

instance (use : Use) (arg : String) : Decidable (use.Admits arg) :=
  inferInstanceAs (Decidable (_ → _))

/-! ## 2. Windows -/

/-- The first `count` arguments, with an empty text for each one that is missing. -/
def window (count : Nat) (args : List String) : List String :=
  args.take count ++ List.replicate (count - args.length) ""

@[simp] theorem length_window (count : Nat) (args : List String) :
    (window count args).length = count := by
  simp only [window, List.length_append, List.length_take, List.length_replicate]
  omega

/-- Nothing is in a window of no width. -/
@[simp] theorem window_zero (args : List String) : window 0 args = [] := by simp [window]

/-- A window as wide as the arguments holds just them. -/
theorem window_of_length {count : Nat} {args : List String} (h : args.length = count) :
    window count args = args := by
  simp [window, ← h]

/-- A window starts with the first argument, or with an empty text. -/
theorem window_succ (count : Nat) (args : List String) :
    window (count + 1) args = args.headD "" :: window count args.tail := by
  cases args <;> simp [window, List.replicate_succ]

/-- Two windows, one behind the other, are one. -/
theorem window_add (m n : Nat) (args : List String) :
    window (m + n) args = window m args ++ window n (args.drop m) := by
  induction m generalizing args with
  | zero => simp
  | succ m ih => rw [Nat.succ_add, window_succ, window_succ, ih, List.cons_append, List.drop_tail]

/-- The windows of `count` arguments, one behind the other: as many as the arguments fill, counting
one that they only begin, but at least one. -/
def windows (count : Nat) (args : List String) : List (List String) :=
  (List.range (max 1 ((args.length + count - 1) / count))).map fun i =>
    window count (args.drop (i * count))

/-- **The last pass** has what is left, and that is less than it asks for or just as much. -/
theorem windows_of_last {count : Nat} {args : List String} (h : count = 0 ∨ args.length ≤ count) :
    windows count args = [window count args] := by
  have hpasses : max 1 ((args.length + count - 1) / count) = 1 := by
    rcases Nat.eq_zero_or_pos count with rfl | hpos
    · simp
    · have hlt : (args.length + count - 1) / count < 2 := Nat.div_lt_of_lt_mul (by omega)
      omega
  simp [windows, hpasses]

/-- **Another pass** starts behind the window of this one. -/
theorem windows_of_more {count : Nat} {args : List String} (hpos : 0 < count)
    (h : count < args.length) :
    windows count args = window count args :: windows count (args.drop count) := by
  have hpasses : (args.length + count - 1) / count
      = (args.length - count + count - 1) / count + 1 := by
    rw [← Nat.add_div_right _ hpos]
    congr 1
    omega
  have hrest : 1 ≤ (args.length - count + count - 1) / count :=
    (Nat.one_le_div_iff hpos).mpr (by omega)
  unfold windows
  rw [List.length_drop, hpasses, Nat.max_eq_right hrest, Nat.max_eq_right (by omega),
    List.range_succ_eq_map, List.map_cons, List.map_map, Nat.zero_mul, List.drop_zero]
  congr 1
  refine List.map_congr_left fun i _ => ?_
  rw [Function.comp_apply, List.drop_drop, Nat.succ_mul, Nat.add_comm (i * count)]

/-- **No argument is left out or repeated**: behind one another, the windows are the arguments, and
then the empty texts that fill the last one. -/
theorem flatten_windows {count : Nat} (hpos : 0 < count) (args : List String) :
    ∃ missing ≤ count, (windows count args).flatten = args ++ List.replicate missing "" := by
  induction hn : args.length using Nat.strongRecOn generalizing args with
  | ind n ih =>
    rcases Nat.lt_or_ge count args.length with h | h
    · obtain ⟨missing, hle, hrest⟩ := ih _ (by rw [List.length_drop]; omega) (args.drop count) rfl
      refine ⟨missing, hle, ?_⟩
      rw [windows_of_more hpos h, List.flatten_cons, hrest, ← List.append_assoc, window,
        Nat.sub_eq_zero_of_le (Nat.le_of_lt h), List.replicate_zero, List.append_nil,
        List.take_append_drop]
    · refine ⟨count - args.length, Nat.sub_le _ _, ?_⟩
      rw [windows_of_last (.inr h), List.flatten_singleton, window, List.take_of_length_le h]

/-! ## 3. Parts of formatting -/

/-- The state when `count` arguments have been asked for and this has been noted, the last note first. -/
def Formatting.after (s : Formatting) (count : Nat) (notes : List Note) : Formatting :=
  { s with
    args := s.args.drop count
    used := s.used + min count s.args.length
    notes := notes ++ s.notes }

/-- Nothing has been used. -/
theorem Formatting.after_zero (s : Formatting) : s.after 0 [] = s := by
  simp [Formatting.after]

/-- Arguments are used one after the other, and notes are taken in their order. -/
theorem Formatting.after_add (s : Formatting) (m n : Nat) (notes more : List Note) :
    (s.after m notes).after n more = s.after (m + n) (more ++ notes) := by
  simp only [Formatting.after, List.drop_drop, List.length_drop, List.append_assoc,
    Formatting.mk.injEq, true_and, and_true]
  omega

/-- The arguments that a part of formatting gets do not end the output. -/
def Fits (uses : List Use) (args : List String) : Prop := List.Forall₂ Use.Admits uses args

/-- A part of formatting that asks for these arguments. What it makes of them is a function of the
window that they stand in, and it leaves the arguments behind them to the parts that follow. -/
def Formatter.Takes {α : Type} (x : Formatter α) (uses : List Use) : Prop :=
  ∃ g : List String → Except Fault (α × List Note), ∀ s, s.stopped = false →
    Fits uses (window uses.length s.args) →
      x.run s = (g (window uses.length s.args)).map fun made =>
        (made.1, s.after uses.length made.2)

/-- What fits two formats fits each of them in its place. -/
theorem Fits.of_append {uses more : List Use} {args others : List String}
    (hlength : args.length = uses.length) (h : Fits (uses ++ more) (args ++ others)) :
    Fits uses args ∧ Fits more others := by
  constructor
  · have htake := List.forall₂_take uses.length h
    rwa [List.take_left, List.take_left' hlength] at htake
  · have hdrop := List.forall₂_drop uses.length h
    rwa [List.drop_left, List.drop_left' hlength] at hdrop

namespace Formatter

variable {α β : Type} {uses : List Use} {memory : Nat}

/-- A value takes no argument. -/
theorem takes_pure (a : α) : Takes (pure a : Formatter α) [] := by
  refine ⟨fun _ => .ok (a, []), fun s _ _ => ?_⟩
  simp only [Except.map, List.length_nil, s.after_zero]
  rfl

/-- A fault may have taken any. -/
theorem takes_fault (f : Fault) : Takes (fault f : Formatter α) uses :=
  ⟨fun _ => .error f, fun _ _ _ => rfl⟩

/-- A result that is there already takes none. -/
theorem takes_liftM (r : Except Fault α) : Takes (liftM r : Formatter α) [] := by
  cases r with
  | ok a => exact takes_pure a
  | error f => exact takes_fault f

/-- A note takes none. -/
theorem takes_note (n : Note) : Takes (note n) [] :=
  ⟨fun _ => .ok ((), [n]), fun _ _ _ => rfl⟩

/-- Nor does a message. -/
theorem takes_report (message : String) : Takes (report message) [] :=
  takes_note _

/-- Nor does half of a pair. -/
theorem takes_noteHalf (half : Bool) : Takes (noteHalf half) [] := by
  cases half with
  | false => exact takes_pure ()
  | true => exact takes_note .half

/-- **One part after the other** takes the arguments of both, in their order. -/
theorem Takes.bind {x : Formatter α} {f : α → Formatter β} {more : List Use} (hx : Takes x uses)
    (hf : ∀ a, Takes (f a) more) : Takes (x >>= f) (uses ++ more) := by
  obtain ⟨g, hg⟩ := hx
  choose k hk using hf
  refine ⟨fun args => do
    let made ← g (args.take uses.length)
    let rest ← k made.1 (args.drop uses.length)
    return (rest.1, rest.2 ++ made.2), fun s hs hfits => ?_⟩
  -- The window of both parts is that of the first one, and behind it that of the second one.
  rw [List.length_append, window_add] at hfits ⊢
  have hlength := length_window uses.length s.args
  obtain ⟨hfits, hmore⟩ := hfits.of_append hlength
  rw [StateT.run_bind, hg s hs hfits]
  simp only [List.take_left' hlength, List.drop_left' hlength]
  cases g (window uses.length s.args) with
  | error f => rfl
  | ok made =>
    have hrun : (f made.1).run (s.after uses.length made.2)
        = (k made.1 (window more.length (s.args.drop uses.length))).map fun rest =>
          (rest.1, (s.after uses.length made.2).after more.length rest.2) :=
      hk made.1 (s.after uses.length made.2) hs hmore
    change (f made.1).run (s.after uses.length made.2)
      = ((k made.1 (window more.length (s.args.drop uses.length))).bind fun rest =>
        .ok (rest.1, rest.2 ++ made.2)).map _
    rw [hrun]
    cases k made.1 (window more.length (s.args.drop uses.length)) with
    | error f => rfl
    | ok rest => simp only [Except.map, Except.bind, s.after_add]

/-- The next argument is the first of those left, or an empty text. -/
theorem run_next (s : Formatting) :
    next.run s = .ok ((s.args.headD "").toList, s.after 1 []) := by
  obtain ⟨args, used, notes, stopped⟩ := s
  cases args with
  | nil => rfl
  | cons arg args => simp [StateT.run, next, Formatting.after]

/-- What is done with the next argument may rely on it that the output goes on behind it. -/
theorem takes_next_bind {use : Use} {f : List Char → Formatter β}
    (hf : ∀ arg : String, use.Admits arg → Takes (f arg.toList) uses) :
    Takes (next >>= f) (use :: uses) := by
  choose k hk using hf
  -- Another argument does not come up, and any value will do for it.
  let g (args : List String) : Except Fault (β × List Note) :=
    if h : use.Admits (args.headD "") then k _ h args.tail else .error .outOfMemory
  have hg (arg : String) (args : List String) (h : use.Admits arg) :
      g (arg :: args) = k arg h args :=
    dif_pos h
  refine ⟨g, fun s hs hfits => ?_⟩
  rw [List.length_cons, window_succ] at hfits ⊢
  obtain ⟨hadmits, hfits⟩ := List.forall₂_cons.mp hfits
  have hargs : (s.after 1 []).args = s.args.tail := List.drop_one
  have hrun := hk _ hadmits (s.after 1 []) hs (by rw [hargs]; exact hfits)
  rw [StateT.run_bind, run_next, hg _ _ hadmits]
  change (f (s.args.headD "").toList).run (s.after 1 []) = _
  rw [hrun, hargs]
  simp only [s.after_add, List.append_nil, Nat.add_comm 1]

/-- Formatting that has not been ended goes on. -/
theorem Takes.unless_stopped {x y : Formatter α} (hy : Takes y uses) :
    Takes (do if (← get).stopped then x else y) uses := by
  obtain ⟨g, hg⟩ := hy
  refine ⟨g, fun s hs hfits => ?_⟩
  rw [← hg s hs hfits]
  change (if s.stopped then x else y).run s = _
  rw [hs]
  rfl

/-! ## 4. Numbers and fields -/

/-- A choice takes what both of its sides do. -/
theorem takes_ite {p : Prop} [Decidable p] {x y : Formatter α} (hx : Takes x uses)
    (hy : Takes y uses) : Takes (if p then x else y) uses := by
  split
  · exact hx
  · exact hy

theorem takes_invalidNumber (argument : List Char) : Takes (invalidNumber argument) [] :=
  takes_report _

/-- A number is read from an argument that has been taken. -/
theorem takes_whole (argument : List Char) : Takes (whole argument) [] := by
  unfold whole
  refine takes_ite (takes_pure 0) (takes_ite (takes_pure _) ?_)
  cases wholeNumber? (trim argument) with
  | some value => exact takes_liftM value
  | none => exact (takes_invalidNumber argument).bind fun _ => takes_liftM _

/-- So is one with a fraction. -/
theorem takes_real (argument : List Char) : Takes (real argument) [] := by
  unfold real
  refine takes_ite (takes_pure _) (takes_ite (takes_pure _) ?_)
  cases Real64.read? (trim argument) with
  | some value => exact takes_pure value
  | none => exact (takes_invalidNumber argument).bind fun _ => takes_pure _

/-- A width that is written out takes no argument. -/
theorem takes_amount (ds : List Nat) : Takes (amount ds) [] :=
  takes_ite (takes_fault _) (takes_pure _)

/-- A width takes an argument if it is a `*`. -/
theorem takes_width (spec : Spec) : Takes (width spec) spec.width.uses := by
  unfold width
  cases spec.width with
  | none => exact takes_pure _
  | digits ds => exact (takes_amount ds).bind fun _ => takes_pure _
  | star => exact takes_next_bind fun _ _ => (takes_whole _).bind fun _ => takes_pure _

/-- So does a precision. -/
theorem takes_precision (spec : Spec) : Takes (precision spec) spec.precision.uses := by
  unfold precision
  cases spec.precision with
  | none => exact takes_pure _
  | digits ds => exact (takes_amount ds).bind fun _ => takes_pure _
  | star => exact takes_next_bind fun _ _ => (takes_whole _).bind fun _ => takes_pure _

/-- What comes after a check that may fail. -/
theorem Takes.checked {p : Prop} [Decidable p] {f : Fault} {x : Formatter α} (hx : Takes x uses) :
    Takes (if p then (do fault f; x) else x) uses := by
  have hfault : Takes (fault f : Formatter Unit) [] := takes_fault f
  exact takes_ite (hfault.bind fun _ => hx) hx

theorem takes_checkSize (width precision : Option Nat) : Takes (checkSize width precision) [] := by
  unfold checkSize
  exact (takes_ite (takes_fault _) (takes_pure ())).checked

theorem takes_checkField (width : Option Nat) : Takes (checkField memory width) [] :=
  takes_ite (takes_fault _) (takes_pure ())

/-- The field of a number is made from its value. -/
theorem takes_wholeField (flags : Flags) (width precision : Option Nat) (radix : Radix)
    (value : Int) : Takes (wholeField memory flags width precision radix value) [] := by
  have hfield : Takes (do
      checkField memory width
      return wholeText flags (width.getD 0) (precision.getD 0) radix value) [] :=
    (takes_checkField width).bind fun _ => takes_pure _
  exact (takes_checkSize width precision).bind fun _ => hfield.checked.checked

/-- A conversion asks for its width and its precision where they are stars, and for its value. -/
theorem takes_convert (spec : Spec) : Takes (convert memory spec) spec.uses := by
  unfold convert
  refine (takes_width spec).bind fun (flags, width) => ?_
  refine (takes_precision spec).bind fun precision => takes_next_bind fun arg hadmits => ?_
  cases hconversion : spec.conversion with
  | text => exact takes_liftM _
  | escaped =>
    have hgoes : stops arg = false := hadmits (by rw [hconversion])
    unfold stops at hgoes
    simp only
    cases hdecoded : Escape.argument arg.toList with
    | error _ => exact takes_fault _
    | ok expanded =>
      rw [hdecoded] at hgoes
      simp only [show expanded.ended = false from hgoes]
      exact (takes_noteHalf _).bind fun _ => takes_liftM _
  | quoted => exact takes_liftM _
  | char => exact takes_liftM _
  | real style upper =>
    refine (takes_real _).bind fun _ => (takes_checkSize width precision).bind fun _ => ?_
    exact (takes_checkField width).bind fun _ => takes_pure _
  | signed => exact (takes_whole _).bind fun _ => takes_wholeField _ _ _ _ _
  | unsigned radix => exact (takes_whole _).bind fun _ => takes_wholeField _ _ _ _ _

/-! ## 5. Passes -/

/-- **A pass asks for what can be read off its format**, and what it writes and reports is a
function of the window of the arguments that it is at. -/
theorem takes_pass (done cs : List Char) :
    ∀ uses, uses? cs = some uses → Takes (pass memory done cs) uses := by
  -- What is asked for is read off the format by the same turns that the pass makes.
  fun_induction pass memory done cs with
  | case1 =>
    intro uses h
    obtain rfl : [] = uses := by simpa only [uses?, Option.some.injEq] using h
    exact takes_pure _
  | case2 => exact fun _ _ => takes_fault _
  | case3 done cs decoded hdecode _ hstop =>
    intro uses h
    simp [uses?, hdecode, hstop] at h
  | case4 done cs decoded hdecode _ hgoes ih =>
    intro uses h
    exact (takes_noteHalf _).bind fun _ => ih uses (by simpa [uses?, hdecode, hgoes] using h)
  | case5 done cs hpercent _ ih =>
    intro uses h
    exact ih uses (by simpa [uses?, hpercent] using h)
  | case6 _ _ hpercent hspec =>
    intro uses h
    simp [uses?_of_invalid hpercent hspec] at h
  | case7 _ _ _ _ hpercent hspec =>
    intro uses h
    simp [uses?_of_invalid hpercent hspec] at h
  | case8 done cs hpercent spec extent hspec _ ih =>
    intro uses h
    obtain ⟨rest, hrest, rfl⟩ :
        ∃ rest, uses? (cs.drop extent) = some rest ∧ spec.uses ++ rest = uses := by
      simpa [uses?, hpercent, hspec] using h
    exact (takes_convert spec).bind fun text => (ih text rest hrest).unless_stopped
  | case9 done c cs hescape hpercent ih =>
    intro uses h
    exact ih uses (by simpa [uses?, hescape, hpercent] using h)

end Formatter

/-- What a pass over these arguments alone writes and notes. -/
def passOver (memory : Nat) (format : List Char) (args : List String) : Except Fault (List Char × List Note) :=
  ((Formatter.pass memory [] format).run { args := args }).map fun made => (made.1, made.2.notes.reverse)

/-- No argument ends the output where the passes come to use it. -/
def FitsPasses (uses : List Use) (args : List String) : Prop :=
  ∀ i arg, args[i]? = some arg → ∀ use, uses[i % uses.length]? = some use → use.Admits arg

/-- What is left after some passes fits those that follow. -/
theorem FitsPasses.drop {uses : List Use} {args : List String} (h : FitsPasses uses args) (k : Nat) :
    FitsPasses uses (args.drop (k * uses.length)) := by
  intro i arg hi use huse
  rw [List.getElem?_drop] at hi
  exact h _ arg hi use (by rwa [Nat.mul_comm, Nat.mul_add_mod])

theorem Use.admits_empty (use : Use) : use.Admits "" := by
  intro _
  simp [stops, Escape.argument, Escape.argumentFrom]

theorem FitsPasses.window {uses : List Use} {args : List String} (h : FitsPasses uses args) :
    Fits uses (window uses.length args) := by
  refine List.forall₂_iff_get.mpr ⟨(length_window _ _).symm, fun i hi hwindow => ?_⟩
  simp only [List.get_eq_getElem, Printf.window, List.getElem_append, List.length_take,
    List.getElem_take, List.getElem_replicate]
  split
  · next harg =>
    refine h i _ (List.getElem?_eq_getElem (by omega)) _ ?_
    rw [Nat.mod_eq_of_lt hi, List.getElem?_eq_getElem hi]
  · exact Use.admits_empty _

/-- One pass, by what it does with its window alone. -/
theorem run_pass (memory : Nat) {format : List Char} {uses : List Use} (huses : uses? format = some uses)
    {s : Formatting} (hs : s.stopped = false) (hfits : Fits uses (window uses.length s.args)) :
    (Formatter.pass memory [] format).run s
      = (passOver memory format (window uses.length s.args)).map fun made =>
        (made.1, s.after uses.length made.2.reverse) := by
  obtain ⟨g, hg⟩ : (Formatter.pass memory [] format).Takes uses := Formatter.takes_pass [] format uses huses
  have hwindow : window uses.length (window uses.length s.args) = window uses.length s.args :=
    window_of_length (length_window _ _)
  rw [passOver, hg s hs hfits, hg { args := window uses.length s.args } rfl (by rwa [hwindow]), hwindow]
  cases g (window uses.length s.args) with
  | error f => rfl
  | ok made => simp [Except.map, Formatting.after]

/-- The loop of the passes goes on as long as a pass has used arguments and has left some. -/
theorem run_passes_step (memory : Nat) (format : List Char) (n : Nat) (done : List (List Char)) (s : Formatting) :
    (Formatter.passes memory format n done).run s = ((Formatter.pass memory [] format).run s).bind fun made =>
      if made.2.stopped || made.2.used == s.used || made.2.args.isEmpty then
        .ok ((made.1 :: done).reverse, made.2)
      else
        match n with
        | 0 => .ok ((made.1 :: done).reverse, made.2)
        | n + 1 => (Formatter.passes memory format n (made.1 :: done)).run made.2 := by
  rw [Formatter.passes]
  change (((Formatter.pass memory [] format).run s).bind fun made =>
    (if made.2.stopped || made.2.used == s.used || made.2.args.isEmpty then
      pure (made.1 :: done).reverse else _ : Formatter (List (List Char))).run made.2) = _
  refine congrArg (Except.bind ((Formatter.pass memory [] format).run s)) (funext fun made => ?_)
  split
  · rfl
  · cases n <;> rfl

/-- A format that is one conversion, of one argument, makes the text of the conversion. -/
theorem format_of_convert {memory : Nat} {pattern : String} {c : Char} {spec : Spec} {arg : String} {text : List Char}
    (hpattern : pattern.toList = ['%', c]) (hspec : takeSpec? [c] = some (spec, 1))
    (hrun : (Formatter.convert memory spec).run ⟨[arg], 0, [], false⟩ = .ok (text, ⟨[], 1, [], false⟩)) :
    format memory pattern [arg] = .ok (String.ofList text, []) := by
  have hpercent : ¬ [c].head? = some '%' := by
    intro h
    obtain rfl : c = '%' := Option.some.inj h
    cases hspec
  have hpass : (Formatter.pass memory [] ['%', c]).run ⟨[arg], 0, [], false⟩ = .ok (text, ⟨[], 1, [], false⟩) := by
    rw [Formatter.pass, if_neg (by decide), if_pos rfl, if_neg hpercent, hspec]
    show (((Formatter.convert memory spec).run ⟨[arg], 0, [], false⟩).bind fun made => _) = _
    rw [hrun]
    show (Formatter.pass memory (text.reverse ++ []) []).run ⟨[], 1, [], false⟩ = _
    rw [Formatter.pass, List.append_nil, List.reverse_reverse]
    rfl
  unfold format
  rw [hpattern, run_passes_step, List.length_singleton, hpass]
  simp [Except.bind]

/-- What passes have written behind these texts, and what they have noted behind these notes. -/
def behind (texts : List (List Char)) (notes : List Note)
    (made : List (List Char × List Note)) : List (List Char) × List Note :=
  (texts ++ made.map Prod.fst, notes ++ (made.map Prod.snd).flatten)

section Runs

variable (memory : Nat) {format : List Char} {uses : List Use} {n : Nat} (done : List (List Char)) {s : Formatting}

/-- A pass is the last one if it takes nothing, or all arguments that are left. -/
theorem run_passes_of_last (huses : uses? format = some uses) (hs : s.stopped = false)
    (hfits : FitsPasses uses s.args) (hlast : uses.length = 0 ∨ s.args.length ≤ uses.length) :
    ((Formatter.passes memory format n done).run s).map (fun made => (made.1, made.2.notes.reverse))
      = ((windows uses.length s.args).mapM (passOver memory format)).map
        (behind done.reverse s.notes.reverse) := by
  rw [run_passes_step, run_pass memory huses hs hfits.window, windows_of_last hlast, List.mapM_cons]
  cases passOver memory format (window uses.length s.args) with
  | error f => rfl
  | ok made =>
    have hend : (s.stopped || s.used + min uses.length s.args.length == s.used
        || (s.args.drop uses.length).isEmpty) = true := by
      rcases hlast with h | h <;> simp [h]
    simp [Except.map, Except.bind, bind, pure, Except.pure, Formatting.after, hend, behind]

/-- Otherwise the passes go on behind its window. -/
theorem run_passes_of_more (huses : uses? format = some uses) (hs : s.stopped = false)
    (hfits : FitsPasses uses s.args) (hpos : 0 < uses.length) (hmore : uses.length < s.args.length) :
    (Formatter.passes memory format (n + 1) done).run s
      = (passOver memory format (window uses.length s.args)).bind fun made =>
        (Formatter.passes memory format n (made.1 :: done)).run (s.after uses.length made.2.reverse) := by
  rw [run_passes_step, run_pass memory huses hs hfits.window]
  cases passOver memory format (window uses.length s.args) with
  | error f => rfl
  | ok made =>
    have hgoes : (s.stopped || s.used + min uses.length s.args.length == s.used
        || (s.args.drop uses.length).isEmpty) = false := by
      simp only [hs, Bool.false_or, Bool.or_eq_false_iff, beq_eq_false_iff_ne, List.isEmpty_eq_false_iff,
        ne_eq, List.drop_eq_nil_iff]
      omega
    simp only [Except.map, Except.bind, Formatting.after, hgoes, Bool.false_eq_true, if_false]

/-- The loop makes a pass over each window, in order. -/
theorem run_passes (huses : uses? format = some uses) (hn : s.args.length ≤ n)
    (hs : s.stopped = false) (hfits : FitsPasses uses s.args) :
    ((Formatter.passes memory format n done).run s).map (fun made => (made.1, made.2.notes.reverse))
      = ((windows uses.length s.args).mapM (passOver memory format)).map
        (behind done.reverse s.notes.reverse) := by
  -- The bound covers the arguments that are left, and each further pass leaves fewer of them.
  induction n generalizing done s with
  | zero => exact run_passes_of_last memory done huses hs hfits (.inr (by omega))
  | succ n ih =>
    by_cases hlast : uses.length = 0 ∨ s.args.length ≤ uses.length
    · exact run_passes_of_last memory done huses hs hfits hlast
    · have hpos : 0 < uses.length := by omega
      have hmore : uses.length < s.args.length := by omega
      rw [run_passes_of_more memory done huses hs hfits hpos hmore, windows_of_more hpos hmore, List.mapM_cons]
      cases passOver memory format (window uses.length s.args) with
      | error f => rfl
      | ok made =>
        have hrest := ih (made.1 :: done) (s := s.after uses.length made.2.reverse)
          (by simp only [Formatting.after, List.length_drop]; omega) hs
          (by simpa only [Formatting.after, Nat.one_mul] using hfits.drop 1)
        simp only [Except.bind, bind]
        rw [hrest]
        simp only [Formatting.after]
        cases (windows uses.length (s.args.drop uses.length)).mapM (passOver memory format) with
        | error f => rfl
        | ok others => simp [Except.map, pure, Except.pure, behind]

end Runs

/-- A pass over a window takes all of it, and nothing else. -/
theorem args_of_run_pass {memory : Nat} {format : List Char} {uses : List Use} {args : List String}
    {made : List Char × Formatting} (huses : uses? format = some uses)
    (hlength : args.length = uses.length) (hfits : Fits uses args)
    (h : (Formatter.pass memory [] format).run { args := args } = .ok made) :
    made.2.args = [] ∧ made.2.used = uses.length ∧ made.2.stopped = false := by
  have hwindow : window uses.length args = args := window_of_length hlength
  have hpass := run_pass memory (s := { args := args }) huses rfl (by rwa [hwindow])
  rw [h] at hpass
  cases hmade : passOver memory format (window uses.length args) with
  | error f => rw [hmade] at hpass; cases hpass
  | ok p =>
    rw [hmade] at hpass
    obtain rfl := Except.ok.inj hpass
    simp [Formatting.after, hlength]

/-- **The passes share out the arguments.** A format of which the passes ask for `c` arguments makes
one pass over each window of `c` arguments, as many as the arguments fill or begin, at least one, and
exactly one if `c` is zero. The output and the diagnostics are those of these passes, in order; if a
pass has no answer, the format has none, for the same fault. Unless `c` is zero, the windows behind one
another are the arguments with nothing but empty texts for missing ones at the end, and a pass takes all
of its window, and has no other arguments to look at. -/
theorem format_eq_passes (memory : Nat) {pattern : String} {args : List String} {uses : List Use}
    (huses : uses? pattern.toList = some uses)
    (hstops : ∀ i arg, args[i]? = some arg → uses[i % uses.length]? = some (.value .escaped) →
      stops arg = false) :
    format memory pattern args = (do
      let made ← (windows uses.length args).mapM (passOver memory pattern.toList)
      return (String.ofList (made.map Prod.fst).flatten, (made.map Prod.snd).flatten)) ∧
    (0 < uses.length → ∃ missing ≤ uses.length,
      (windows uses.length args).flatten = args ++ List.replicate missing "") ∧
    ∀ group ∈ windows uses.length args, ∀ made,
      (Formatter.pass memory [] pattern.toList).run { args := group } = .ok made →
        made.2.args = [] ∧ made.2.used = uses.length ∧ made.2.stopped = false := by
  have hfits : FitsPasses uses args := by
    intro i arg harg use huse hescaped
    exact hstops i arg harg (by rw [huse, hescaped])
  refine ⟨?_, fun hpos => flatten_windows hpos args, ?_⟩
  -- The arguments are enough fuel, since each pass uses one of them at least.
  · have hrun := run_passes memory [] (s := { args := args }) huses Nat.le.refl rfl hfits
    have hformat : format memory pattern args
        = (((Formatter.passes memory pattern.toList args.length []).run { args := args }).map fun made =>
          (made.1, made.2.notes.reverse)).map fun made => (String.ofList made.1.flatten, made.2) := by
      unfold format
      cases (Formatter.passes memory pattern.toList args.length []).run { args := args } <;> rfl
    rw [hformat, hrun]
    cases (windows uses.length args).mapM (passOver memory pattern.toList) <;> rfl
  · intro group hgroup made hmade
    obtain ⟨i, -, rfl⟩ := List.mem_map.mp hgroup
    exact args_of_run_pass huses (length_window _ _) (hfits.drop i).window hmade

/-- Two passes over a width, a number and a text with escapes, of which the second one has only an
invalid width left. -/
theorem format_two_passes :
    uses? "%*d %b|".toList = some [.amount, .value .signed, .value .escaped] ∧
    (∀ arg ∈ ["3", "7", "a\\tb", "x"], stops arg = false) ∧
    windows 3 ["3", "7", "a\\tb", "x"] = [["3", "7", "a\\tb"], ["x", "", ""]] ∧
    format 1000 "%*d %b|" ["3", "7", "a\\tb", "x"] = .ok ("  7 a\tb|0 |", [.mistake "x: invalid number"]) := by
  have huses : uses? "%*d %b|".toList = some [.amount, .value .signed, .value .escaped] := by
    decide +kernel
  have hstops : ∀ arg ∈ ["3", "7", "a\\tb", "x"], stops arg = false := by decide +kernel
  refine ⟨huses, hstops, by decide, ?_⟩
  rw [(format_eq_passes 1000 huses fun _ arg harg _ => hstops arg (List.mem_of_getElem? harg)).1]
  decide +kernel

end Shell.Printf
