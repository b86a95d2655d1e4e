/-
How wide the text of a conversion is.

A width is written in the format or taken from an argument, where a negative number is a width as well.
Texts are filled up with blanks, and numbers with blanks or zeros, and both come out as wide as the
width. But the introduction of a number in the alternate form counts for two characters in every case.
It is one character in an octal number and missing from a hexadecimal zero, and by then the number has
been filled up.

So a conversion is compared with itself without a width (`Padded`): what it makes is as long as what it
makes without one, or as the width less the characters that have been lost (`padded_convert`). It keeps
the width unless some are lost and the number does not fill the field by itself (`width_kept_iff`).
-/
import Shell.Proofs.Printf.Passes

set_option autoImplicit false

namespace Shell.Printf

open Shell.Text Formatter

/-! ## 1. What is asked for -/

/-- The value of an argument as a whole number. -/
def numberOf (argument : String) : Except Fault Int :=
  ((whole argument.toList).run { args := [] }).map Prod.fst

/-- The width of a conversion before these arguments. -/
inductive Spec.HasWidth (spec : Spec) (args : List String) : Nat → Prop where
  /-- A width in the format, of which the digits can be read. -/
  | written {ds : List Nat} (hwidth : spec.width = .digits ds) (hread : ds.length ≤ maxDigits) :
    HasWidth spec args (ofDigits 10 ds)
  /-- A width in the next argument, with any sign. -/
  | argument {n : Int} (hwidth : spec.width = .star) (hread : numberOf (args.headD "") = .ok n) :
    HasWidth spec args n.natAbs

/-- The same conversion without a width. -/
def Spec.bare (spec : Spec) : Spec := { spec with width := .none }

/-- The argument that is converted. It stands behind the width and the precision. -/
def Spec.operand (spec : Spec) (args : List String) : String :=
  (args.drop (spec.width.uses.length + spec.precision.uses.length)).headD ""

/-- The number is in an alternate form of which the introduction counts for more characters than it has:
it is octal, or it is hexadecimal and zero. -/
def Spec.Shortened (spec : Spec) (args : List String) : Prop :=
  spec.flags.alternate = true ∧ ∃ radix n, spec.conversion = .unsigned radix ∧ numberOf (spec.operand args) = .ok n ∧
    (radix = .octal ∨ radix ≠ .decimal ∧ n % wordSize = 0)

/-! ## 2. Lengths -/

/-- A text is as long as the width, or longer. -/
theorem length_pad (left : Bool) (width : Nat) (text : List Char) :
    (pad left width text).length = max width text.length := by
  unfold pad
  cases left <;> simp <;> omega

/-- A number is as long as without a field, or as the field without what is counted and missing. -/
theorem length_layout (flags : Flags) (left : Bool) (width : Nat) (negative : Bool) (introduction : List Char)
    (counted : Nat) (digits : List Char) (hcounted : introduction.length ≤ counted) :
    (layout { flags with left := left } width negative introduction counted digits).length =
      max (width - (counted - introduction.length)) (layout flags 0 negative introduction counted digits).length := by
  unfold layout
  generalize (if negative then ['-'] else if flags.plus then ['+'] else if flags.blank then [' '] else []) = sign
  cases left <;> cases flags.left <;> cases flags.zero <;> simp <;> omega

/-- The characters that are counted for the introduction of a number and are not in it. -/
def Radix.lost (radix : Radix) (n : Nat) : Nat := (radix.introduction n).2 - (radix.introduction n).1.length

/-- An introduction is never longer than it counts for. -/
theorem Radix.length_introduction_le (radix : Radix) (n : Nat) :
    (radix.introduction n).1.length ≤ (radix.introduction n).2 := by
  cases radix <;> simp only [Radix.introduction] <;> (try split) <;> decide

/-- It is just as long, but for octal numbers and for a zero in the other notations. -/
theorem Radix.lost_eq_zero_iff (radix : Radix) (n : Nat) :
    radix.lost n = 0 ↔ ¬ (radix = .octal ∨ radix ≠ .decimal ∧ n = 0) := by
  by_cases hn : n = 0 <;> cases radix <;> simp [Radix.lost, Radix.introduction, hn]

/-- The characters that a conversion loses. -/
def Spec.lost (spec : Spec) (args : List String) : Nat :=
  match spec.conversion, numberOf (spec.operand args) with
  | .unsigned radix, .ok n => if spec.flags.alternate then radix.lost (n % wordSize).natAbs else 0
  | _, _ => 0

/-- A conversion loses nothing unless it is one of those. -/
theorem Spec.lost_eq_zero_iff (spec : Spec) (args : List String) : spec.lost args = 0 ↔ ¬ spec.Shortened args := by
  unfold Spec.lost Spec.Shortened
  cases spec.conversion with
  | unsigned radix =>
    cases numberOf (spec.operand args) with
    | ok n => cases spec.flags.alternate <;> simp [Radix.lost_eq_zero_iff]
    | error f => simp
  | _ => simp

/-! ## 3. With and without a width -/

/-- What a conversion makes with a width, next to what it makes without one: the same if the width can be had, but
as long as the width, less what is lost. -/
structure Padded (memory w lost : Nat) (wide bare : Except Fault (List Char × Formatting)) : Prop where
  made_iff : (∃ made, wide = .ok made) ↔ w ≤ maxField memory ∧ ∃ made, bare = .ok made
  length_eq : ∀ text after, wide = .ok (text, after) →
    ∃ body, bare = .ok (body, after) ∧ text.length = max (w - lost) body.length

/-- What is read before the field does not depend on the width. -/
theorem Padded.bind {α : Type} {memory w lost : Nat} {read : Except Fault (α × Formatting)}
    {wide bare : α × Formatting → Except Fault (List Char × Formatting)}
    (h : ∀ made, read = .ok made → Padded memory w lost (wide made) (bare made)) :
    Padded memory w lost (read >>= wide) (read >>= bare) := by
  cases read with
  | error f => exact ⟨⟨nofun, nofun⟩, nofun⟩
  | ok made => exact h made rfl

/-- Texts that are made under the same conditions, but for the width. -/
theorem Padded.of_iff {memory w lost : Nat} {wide bare : Except Fault (List Char × Formatting)} {possible : Prop}
    {text body : List Char} {s : Formatting}
    (hwide : ∀ made, wide = .ok made ↔ (w ≤ maxField memory ∧ possible) ∧ (text, s) = made)
    (hbare : ∀ made, bare = .ok made ↔ (0 ≤ maxField memory ∧ possible) ∧ (body, s) = made)
    (hlength : text.length = max (w - lost) body.length) : Padded memory w lost wide bare := by
  refine ⟨⟨?_, ?_⟩, ?_⟩
  · rintro ⟨made, h⟩
    obtain ⟨⟨hw, hpossible⟩, -⟩ := (hwide made).mp h
    exact ⟨hw, _, (hbare _).mpr ⟨⟨Nat.zero_le _, hpossible⟩, rfl⟩⟩
  · rintro ⟨hw, made, h⟩
    exact ⟨_, (hwide _).mpr ⟨⟨hw, ((hbare made).mp h).1.2⟩, rfl⟩⟩
  · intro text' after h
    obtain ⟨⟨-, hpossible⟩, hmade⟩ := (hwide _).mp h
    obtain ⟨rfl, rfl⟩ := Prod.mk.inj hmade
    exact ⟨body, (hbare _).mpr ⟨⟨Nat.zero_le _, hpossible⟩, rfl⟩, hlength⟩

/-! ### Fields -/

section Fields

variable {memory : Nat} (width precision : Option Nat) {s : Formatting} {made : List Char × Formatting}

theorem run_return {text : List Char} : (return text : Formatter _).run s = .ok made ↔ (text, s) = made :=
  ⟨Except.ok.inj, congrArg Except.ok⟩

/-- What comes after a check has the result that it has alone, if the check passes. -/
theorem run_checked {p : Prop} [Decidable p] {f : Fault} {x : Formatter (List Char)} :
    (if p then (do fault f; x) else x).run s = .ok made ↔ ¬ p ∧ x.run s = .ok made := by
  by_cases hp : p
  · simp only [hp, if_true, not_true, false_and, iff_false]
    nofun
  · simp only [hp, if_false, not_false_eq_true, true_and]

/-- A field that there is memory for is made. -/
theorem run_checkField_bind {x : Formatter (List Char)} :
    (do checkField memory width; x).run s = .ok made ↔ width.getD 0 ≤ maxField memory ∧ x.run s = .ok made := by
  unfold checkField
  by_cases hfield : maxField memory < width.getD 0
  · simp only [hfield, if_true, Nat.not_le.mpr hfield, false_and, iff_false]
    nofun
  · simp only [hfield, if_false, Nat.le_of_not_lt hfield, true_and]
    rfl

/-- A width and a precision that can be had are had. -/
theorem run_checkSize_bind {x : Formatter (List Char)} :
    (do checkSize width precision; x).run s = .ok made ↔
      (width.getD 0 ≤ maxWidth ∧ precision.getD 0 ≤ maxPrecision) ∧ x.run s = .ok made := by
  unfold checkSize
  by_cases hwidth : maxWidth < width.getD 0
  · simp only [hwidth, if_true, Nat.not_le.mpr hwidth, false_and, iff_false]
    nofun
  · by_cases hprecision : maxPrecision < precision.getD 0
    · simp only [hwidth, hprecision, if_true, if_false, Nat.not_le.mpr hprecision, and_false, false_and, iff_false]
      nofun
    · simp only [hwidth, hprecision, if_false, Nat.le_of_not_lt hwidth, Nat.le_of_not_lt hprecision,
        and_self, true_and]
      rfl

/-- A text in a field. -/
theorem run_padText (flags : Flags) (text : List Char) :
    (liftM (padText memory flags width text) : Formatter _).run s = .ok made ↔
      (width.getD 0 ≤ maxField memory ∧ True) ∧ (pad flags.left (width.getD 0) text, s) = made := by
  have hle : maxField memory ≤ maxWidth := Nat.min_le_right _ _
  cases width with
  | none =>
    have hpad : pad flags.left 0 text = text := by simp [pad]
    simp only [Option.getD_none, Nat.zero_le, true_and, hpad]
    exact run_return
  | some w =>
    unfold padText
    by_cases hw : w ≤ maxField memory
    · simp only [if_neg (Nat.not_lt.mpr (Nat.le_trans hw hle)), if_neg (Nat.not_lt.mpr hw), Option.getD_some, hw,
        true_and]
      exact run_return
    · simp only [Option.getD_some, hw, false_and, iff_false, if_pos (Nat.lt_of_not_le hw)]
      split <;> nofun

/-- A real number in a field. -/
theorem run_realField (text : List Char) :
    (do checkSize width precision; checkField memory width; return text : Formatter _).run s = .ok made ↔
      (width.getD 0 ≤ maxField memory ∧ precision.getD 0 ≤ maxPrecision) ∧ (text, s) = made := by
  have hle : maxField memory ≤ maxWidth := Nat.min_le_right _ _
  rw [run_checkSize_bind, run_checkField_bind, run_return]
  constructor
  · rintro ⟨⟨-, hprecision⟩, hfield, hmade⟩
    exact ⟨⟨hfield, hprecision⟩, hmade⟩
  · rintro ⟨⟨hfield, hprecision⟩, hmade⟩
    exact ⟨⟨by omega, hprecision⟩, hfield, hmade⟩

/-- A whole number in a field. -/
theorem run_wholeField (flags : Flags) (radix : Radix) (value : Int) :
    (wholeField memory flags width precision radix value).run s = .ok made ↔
      (width.getD 0 ≤ maxField memory ∧ precision.getD 0 ≤ maxWholePrecision ∧
        ¬ (radix = .decimal ∧ (writeInteger? value).isNone)) ∧
      (wholeText flags (width.getD 0) (precision.getD 0) radix value, s) = made := by
  have hle : maxField memory ≤ maxWidth := Nat.min_le_right _ _
  have hdigits : maxWholePrecision ≤ maxPrecision := by decide
  unfold wholeField
  rw [run_checkSize_bind]
  constructor
  · rintro ⟨-, h⟩
    obtain ⟨hprecision, h⟩ := run_checked.mp h
    obtain ⟨hwritten, h⟩ := run_checked.mp h
    obtain ⟨hfield, h⟩ := (run_checkField_bind width).mp h
    exact ⟨⟨hfield, Nat.le_of_not_lt hprecision, hwritten⟩, run_return.mp h⟩
  · rintro ⟨⟨hfield, hprecision, hwritten⟩, hmade⟩
    refine ⟨⟨by omega, by omega⟩, run_checked.mpr ⟨Nat.not_lt.mpr hprecision, run_checked.mpr ⟨hwritten, ?_⟩⟩⟩
    exact (run_checkField_bind width).mpr ⟨hfield, run_return.mpr hmade⟩

end Fields

/-! ### Conversions -/

section Conversions

variable {memory : Nat} (flags : Flags) (left : Bool) (w : Nat) (s : Formatting)

/-- A text is filled up to the width. -/
theorem padded_text (text : List Char) :
    Padded memory w 0 ((liftM (padText memory { flags with left := left } (some w) text) : Formatter _).run s)
      ((liftM (padText memory flags none text) : Formatter _).run s) := by
  refine .of_iff (fun _ => run_padText (some w) _ text) (fun _ => run_padText none flags text) ?_
  simp [length_pad]

/-- So is a number with a fraction. -/
theorem padded_real (precision : Option Nat) (places : Nat) (style : Real64.Style) (upper : Bool) (value : Real64) :
    Padded memory w 0
      ((do
        checkSize (some w) precision
        checkField memory (some w)
        return realText { flags with left := left } w places style upper value : Formatter _).run s)
      ((do
        checkSize none precision
        checkField memory none
        return realText flags 0 places style upper value : Formatter _).run s) :=
  .of_iff (fun _ => run_realField (some w) precision _) (fun _ => run_realField none precision _)
    (length_layout flags left w _ [] 0 _ Nat.le.refl)

/-- So is a whole number, but for what its introduction loses. -/
theorem padded_whole (precision : Option Nat) (radix : Radix) (value : Int) :
    Padded memory w (if flags.alternate then radix.lost value.natAbs else 0)
      ((wholeField memory { flags with left := left } (some w) precision radix value).run s)
      ((wholeField memory flags none precision radix value).run s) := by
  refine .of_iff (fun _ => run_wholeField (some w) precision _ radix value)
    (fun _ => run_wholeField none precision flags radix value) ?_
  unfold wholeText
  cases halternate : flags.alternate with
  | true => exact length_layout flags left w _ _ _ _ (radix.length_introduction_le _)
  | false => exact length_layout flags left w _ [] 0 _ Nat.le.refl

end Conversions

/-! ### The parts before the text -/

/-- The value of an argument is a matter of the argument, and notes are all that comes of it. -/
theorem exists_run_whole (argument : String) :
    ∃ notes, ∀ s, (whole argument.toList).run s = (numberOf argument).map fun n => (n, s.after 0 notes) := by
  obtain ⟨value, notes, hrun⟩ : ∃ value notes, ∀ s,
      (whole argument.toList).run s = Except.map (fun n => (n, Formatting.after s 0 notes)) value := by
    unfold whole
    dsimp only
    split
    · exact ⟨.ok 0, [], fun s => by rw [s.after_zero]; rfl⟩
    · split
      · exact ⟨.ok (code (trim argument.toList)), [], fun s => by rw [s.after_zero]; rfl⟩
      · split
        · next value _ => exact ⟨value, [], fun s => by rw [s.after_zero]; cases value <;> rfl⟩
        · refine ⟨leadingNumber (trim argument.toList),
            [.mistake (String.ofList argument.toList ++ ": invalid number")], fun s => ?_⟩
          cases leadingNumber (trim argument.toList) <;> rfl
  refine ⟨notes, fun s => ?_⟩
  rw [numberOf, hrun, hrun]
  cases value <;> rfl

/-- A number that has been read is the number of its text. -/
theorem numberOf_of_run_whole {argument : String} {s s' : Formatting} {n : Int}
    (h : (whole argument.toList).run s = .ok (n, s')) : numberOf argument = .ok n := by
  obtain ⟨notes, hrun⟩ := exists_run_whole argument
  rw [hrun] at h
  cases hvalue : numberOf argument with
  | error f =>
    rw [hvalue] at h
    cases h
  | ok n' =>
    rw [hvalue] at h
    exact congrArg Except.ok (Prod.mk.inj (Except.ok.inj h)).1

theorem run_bind_of_ok {α β : Type} {x : Formatter α} {f : α → Formatter β} {s s' : Formatting} {a : α}
    (h : x.run s = .ok (a, s')) : (x >>= f).run s = (f a).run s' := by
  rw [StateT.run_bind, h]
  rfl

/-- The width is read, and what is read behind it stands behind its argument. -/
theorem Spec.HasWidth.exists_run {spec : Spec} {s : Formatting} {w : Nat} (h : spec.HasWidth s.args w) :
    ∃ left notes, (Formatter.width spec).run s =
      .ok (({ spec.flags with left := left }, some w), s.after spec.width.uses.length notes) := by
  unfold Formatter.width
  cases h with
  | @written ds hwidth hread =>
    rw [hwidth]
    refine ⟨spec.flags.left, [], ?_⟩
    simp only [amount, if_neg (Nat.not_lt.mpr hread)]
    rw [Amount.uses, List.length_nil, s.after_zero]
    rfl
  | @argument n hwidth hread =>
    rw [hwidth]
    obtain ⟨notes, hrun⟩ := exists_run_whole (s.args.headD "")
    have hvalue : (whole (s.args.headD "").toList).run (s.after 1 []) = .ok (n, s.after 1 notes) := by
      rw [hrun, hread, Except.map, s.after_add, List.append_nil]
    refine ⟨if n < 0 then true else spec.flags.left, notes, ?_⟩
    refine (run_bind_of_ok (run_next s)).trans ((run_bind_of_ok hvalue).trans ?_)
    split <;> rfl

/-- What is read behind the precision stands behind its argument. -/
theorem after_of_run_precision {spec : Spec} {s s' : Formatting} {precision : Option Nat}
    (h : (Formatter.precision spec).run s = .ok (precision, s')) :
    ∃ notes, s' = s.after spec.precision.uses.length notes := by
  unfold Formatter.precision at h
  cases hprecision : spec.precision with
  | none =>
    rw [hprecision] at h
    obtain ⟨-, rfl⟩ := Prod.mk.inj (Except.ok.inj h)
    exact ⟨[], s.after_zero.symm⟩
  | digits ds =>
    rw [hprecision] at h
    simp only [amount] at h
    split at h
    · cases h
    · obtain ⟨-, rfl⟩ := Prod.mk.inj (Except.ok.inj h)
      exact ⟨[], s.after_zero.symm⟩
  | star =>
    rw [hprecision] at h
    -- A star takes an argument, which may leave a diagnostic behind.
    obtain ⟨notes, hrun⟩ := exists_run_whole (s.args.headD "")
    have hread := (run_bind_of_ok (run_next s)).symm.trans h
    rw [StateT.run_bind, hrun] at hread
    refine ⟨notes, ?_⟩
    cases hvalue : numberOf (s.args.headD "") with
    | error f =>
      rw [hvalue] at hread
      cases hread
    | ok n =>
      rw [hvalue, Except.map, s.after_add, List.append_nil] at hread
      exact (Prod.mk.inj (Except.ok.inj hread)).2.symm

/-- A conversion with a width is as long as the same one without it, or as the width, less what is lost. -/
theorem padded_convert (memory : Nat) {spec : Spec} {s : Formatting} {w : Nat} (hw : spec.HasWidth s.args w) :
    ∃ notes, Padded memory w (spec.lost s.args) ((convert memory spec).run s)
      ((convert memory spec.bare).run (s.after spec.width.uses.length notes)) := by
  obtain ⟨left, notes, hwidth⟩ := hw.exists_run
  refine ⟨notes, ?_⟩
  have hbare : (Formatter.width spec.bare).run (s.after spec.width.uses.length notes) =
      .ok ((spec.flags, none), s.after spec.width.uses.length notes) := rfl
  unfold convert
  -- Behind the width, both read the same precision and the same operand.
  rw [run_bind_of_ok hwidth, run_bind_of_ok hbare, StateT.run_bind, StateT.run_bind]
  refine Padded.bind fun (precision, s') hprecision => ?_
  obtain ⟨more, rfl⟩ := after_of_run_precision hprecision
  rw [s.after_add]
  have hnext := run_next (s.after (spec.width.uses.length + spec.precision.uses.length) (more ++ notes))
  simp only
  rw [run_bind_of_ok hnext, run_bind_of_ok hnext]
  have hoperand : ((s.after (spec.width.uses.length + spec.precision.uses.length) (more ++ notes)).args.headD "") =
      spec.operand s.args := rfl
  rw [hoperand]
  generalize (s.after (spec.width.uses.length + spec.precision.uses.length) (more ++ notes)).after 1 [] = s'
  have hlost (h : ∀ radix, spec.conversion ≠ .unsigned radix) : spec.lost s.args = 0 := by
    rw [spec.lost_eq_zero_iff]
    exact fun ⟨_, radix, _, hradix, _⟩ => h radix hradix
  rw [show spec.bare.conversion = spec.conversion from rfl]
  cases hconversion : spec.conversion with
  | text =>
    rw [hlost (by simp [hconversion])]
    exact padded_text _ _ _ _ _
  | escaped =>
    rw [hlost (by simp [hconversion])]
    simp only
    cases Escape.argument (spec.operand s.args).toList with
    | error _ => exact ⟨⟨nofun, nofun⟩, nofun⟩
    | ok expanded =>
      -- What is noted, and whether the output goes on, is the same with a width and without one.
      obtain ⟨text, ended, half⟩ := expanded
      cases half <;> cases ended <;> exact padded_text _ _ _ _ _
  | quoted =>
    rw [hlost (by simp [hconversion])]
    exact padded_text _ _ _ _ _
  | char =>
    rw [hlost (by simp [hconversion])]
    exact padded_text _ _ _ _ _
  | real style upper =>
    rw [hlost (by simp [hconversion])]
    simp only
    rw [StateT.run_bind, StateT.run_bind]
    exact Padded.bind fun (value, s'') _ => padded_real _ _ _ _ _ _ _ _ _
  | signed =>
    -- A decimal number has no introduction, also in the alternate form.
    have hdecimal (n : Int) : (if spec.flags.alternate then Radix.decimal.lost n.natAbs else 0) = 0 := by
      split <;> rfl
    rw [hlost (by simp [hconversion])]
    simp only
    rw [StateT.run_bind, StateT.run_bind]
    exact Padded.bind fun (n, s'') _ => hdecimal n ▸ padded_whole _ _ _ _ _ _ _
  | unsigned radix =>
    simp only
    rw [StateT.run_bind, StateT.run_bind]
    refine Padded.bind fun (n, s'') hn => ?_
    simp only [Spec.lost, hconversion, numberOf_of_run_whole hn]
    exact padded_whole _ _ _ _ _ _ _

/-! ## 4. Which fields are as wide as they are asked to be -/

/-- **A conversion is as wide as it is asked to be, unless the alternate form has lost characters that
the field was filled up for.** Without a width it makes the `body` of the arguments behind the width.
With the width it makes a text whenever it does without, if there is memory for the field. The text is
narrower than the width exactly for an octal number or a hexadecimal zero in the alternate form of which
the body does not fill the field by itself. -/
theorem width_kept_iff (memory : Nat) {spec : Spec} {s : Formatting} {w : Nat} (hw : spec.HasWidth s.args w) :
    ∃ notes,
      ((∃ made, (convert memory spec).run s = .ok made) ↔
        w ≤ maxField memory ∧ ∃ made, (convert memory spec.bare).run (s.after spec.width.uses.length notes) = .ok made) ∧
      ∀ text after, (convert memory spec).run s = .ok (text, after) →
        ∃ body, (convert memory spec.bare).run (s.after spec.width.uses.length notes) = .ok (body, after) ∧
          (w ≤ text.length ↔ ¬ (spec.Shortened s.args ∧ body.length < w)) := by
  obtain ⟨notes, hpadded⟩ := padded_convert memory hw
  refine ⟨notes, hpadded.made_iff, fun text after h => ?_⟩
  obtain ⟨body, hbody, hlength⟩ := hpadded.length_eq text after h
  refine ⟨body, hbody, ?_⟩
  have hkept := spec.lost_eq_zero_iff s.args
  by_cases hshort : spec.Shortened s.args
  · have hlost : spec.lost s.args ≠ 0 := fun h => hkept.mp h hshort
    simp only [hshort, true_and]
    omega
  · have hlost : spec.lost s.args = 0 := hkept.mpr hshort
    simp only [hshort, false_and, not_false_eq_true, iff_true]
    omega

/-- A hexadecimal number that is not zero keeps its width, which is negative and taken from an argument. -/
theorem negativeWidth_kept :
    takeSpec? "#*x".toList = some (⟨{ alternate := true }, .star, .none, .unsigned .hex⟩, 3) ∧
    Spec.HasWidth ⟨{ alternate := true }, .star, .none, .unsigned .hex⟩ ["-7", "255"] 7 ∧
    ((convert 1000 ⟨{ alternate := true }, .star, .none, .unsigned .hex⟩).run { args := ["-7", "255"] }).map Prod.fst =
      .ok "0xff   ".toList ∧
    7 ≤ "0xff   ".toList.length := by
  have hwidth : Spec.HasWidth ⟨{ alternate := true }, .star, .none, .unsigned .hex⟩ ["-7", "255"] 7 :=
    .argument (n := -7) rfl (by decide +kernel)
  have hrun : ((convert 1000 ⟨{ alternate := true }, .star, .none, .unsigned .hex⟩).run
      { args := ["-7", "255"] }).map Prod.fst = .ok "0xff   ".toList := by decide +kernel
  have hvalue : numberOf "255" = .ok 255 := by decide +kernel
  -- A hexadecimal number loses characters only if it is zero.
  obtain ⟨notes, -, hkept⟩ := width_kept_iff 1000 (s := { args := ["-7", "255"] }) hwidth
  refine ⟨by decide, hwidth, hrun, ?_⟩
  cases hmade : (convert 1000 ⟨{ alternate := true }, .star, .none, .unsigned .hex⟩).run { args := ["-7", "255"] } with
  | error f => rw [hmade] at hrun; cases hrun
  | ok made =>
    rw [hmade] at hrun
    obtain ⟨body, -, hiff⟩ := hkept _ _ hmade
    rw [← Except.ok.inj hrun]
    refine hiff.mpr ?_
    rintro ⟨⟨-, radix, n, hradix, hn, hzero⟩, -⟩
    obtain rfl := Conversion.unsigned.inj hradix
    obtain rfl : 255 = n := Except.ok.inj (hvalue.symm.trans hn)
    revert hzero
    decide

/-- An octal number in the alternate form, in a field of five characters, has four. -/
theorem octal_narrow :
    takeSpec? "#5o".toList = some (⟨{ alternate := true }, .digits [5], .none, .unsigned .octal⟩, 3) ∧
    Spec.HasWidth ⟨{ alternate := true }, .digits [5], .none, .unsigned .octal⟩ ["8"] 5 ∧
    ((convert 1000 ⟨{ alternate := true }, .digits [5], .none, .unsigned .octal⟩).run { args := ["8"] }).map Prod.fst =
      .ok " 010".toList ∧
    ¬ 5 ≤ " 010".toList.length := by
  have hwidth : Spec.HasWidth ⟨{ alternate := true }, .digits [5], .none, .unsigned .octal⟩ ["8"]
      (ofDigits 10 [5]) := .written rfl (by decide)
  have hfive : ofDigits 10 [5] = 5 := by decide +kernel
  rw [hfive] at hwidth
  exact ⟨by decide, hwidth, by decide +kernel, by decide⟩

end Shell.Printf
