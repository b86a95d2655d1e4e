/-
What `test` makes of its arguments, one rule for each form that they can have.

A list of arguments is a comparison, or it is cut at a connective outside parentheses, or it is not cut (`Uncut`) and
its first argument decides. Where a list is cut is a matter of the parentheses that have been opened and closed before
(`turn`): the scan walks over arguments that close what they open and have no connective outside (`Skips`).
-/
import Shell.Builtin.Run

set_option autoImplicit false

namespace Shell.Test

/-! ## 1. Connectives -/

/-- What joins two conditions. -/
inductive Connective where
  | either
  | both
  deriving DecidableEq, Repr

namespace Connective

def word : Connective → String
  | either => "-o"
  | both => "-a"

/-- How tightly a connective binds. -/
def level : Connective → Nat
  | either => 0
  | both => 1

def apply : Connective → Bool → Bool → Bool
  | either => or
  | both => and

/-- Both sides are evaluated, whatever the left one comes to. -/
def join (k : Connective) (l r : Except Mistake Bool) : Except Mistake Bool := do return k.apply (← l) (← r)

theorem apply_assoc (k : Connective) (x y z : Bool) : k.apply (k.apply x y) z = k.apply x (k.apply y z) := by
  cases k
  · exact Bool.or_assoc x y z
  · exact Bool.and_assoc x y z

/-- It makes no difference in which order the parts of a chain are joined. -/
theorem join_assoc (k : Connective) (x y z : Except Mistake Bool) :
    k.join (k.join x y) z = k.join x (k.join y z) := by
  cases x with
  | error mistake => rfl
  | ok x =>
    cases y with
    | error mistake => rfl
    | ok y =>
      cases z with
      | error mistake => rfl
      | ok z => exact congrArg Except.ok (k.apply_assoc x y z)

theorem eq_of_word_eq {k k' : Connective} (h : k.word = k'.word) : k = k' := by
  cases k <;> cases k'
  · rfl
  · exact absurd h (by decide)
  · exact absurd h (by decide)
  · rfl

theorem eq_of_level_eq {k k' : Connective} (h : k.level = k'.level) : k = k' := by
  cases k <;> cases k'
  · rfl
  · exact absurd h (by decide)
  · exact absurd h (by decide)
  · rfl

theorem level_lt (k : Connective) : k.level < 2 := by
  cases k <;> decide

theorem word_ne_open (k : Connective) : k.word ≠ "(" := by
  cases k <;> decide

theorem word_ne_close (k : Connective) : k.word ≠ ")" := by
  cases k <;> decide

/-- No connective is a comparison. -/
theorem ofText?_word (k : Connective) : Comparison.ofText? k.word = none := by
  cases k <;> rfl

end Connective

/-! ## 2. The scan for a connective -/

/-- How many parentheses are open behind an argument more than before it. -/
def turn (arg : String) : Int := if arg = "(" then 1 else if arg = ")" then -1 else 0

@[simp] theorem turn_word (k : Connective) : turn k.word = 0 := by
  cases k <;> rfl

@[simp] theorem turn_same : turn "=" = 0 := rfl

variable {k : Connective} {depth : Int}

theorem cutAt?_nil (op : String) (depth : Int) (before : List String) : cutAt? op depth before [] = none := rfl

/-- One step of the scan. -/
theorem cutAt?_cons (depth : Int) (before : List String) (arg : String) (rest : List String) :
    cutAt? k.word depth before (arg :: rest) =
      if arg = k.word ∧ depth = 0 ∧ before ≠ [] ∧ rest ≠ [] then some (before.reverse, rest)
      else cutAt? k.word (depth + turn arg) (arg :: before) rest := by
  rw [cutAt?]
  unfold turn
  by_cases hopen : arg = "("
  · subst hopen
    simp [k.word_ne_open.symm]
  · by_cases hclose : arg = ")"
    · subst hclose
      simp [k.word_ne_close.symm, Int.sub_eq_add_neg]
    · simp [hopen, hclose]

/-- The scan goes on behind these arguments as deep as it was before them. -/
def Skips (k : Connective) (depth : Int) (args : List String) : Prop :=
  ∀ before rest, cutAt? k.word depth before (args ++ rest) = cutAt? k.word depth (args.reverse ++ before) rest

theorem Skips.cutAt?_eq_none {args : List String} (h : Skips k depth args) : cutAt? k.word depth [] args = none := by
  rw [← List.append_nil args, h, cutAt?_nil]

theorem Skips.append {args args' : List String} (h : Skips k depth args) (h' : Skips k depth args') :
    Skips k depth (args ++ args') := by
  intro before rest
  rw [List.append_assoc, h, h', List.reverse_append, List.append_assoc]

/-- An argument that is no parenthesis is walked over, unless it is the connective and stands outside. -/
theorem skips_singleton {arg : String} (hturn : turn arg = 0) (h : arg = k.word → depth ≠ 0) :
    Skips k depth [arg] := by
  intro before rest
  rw [List.singleton_append, cutAt?_cons, if_neg fun hcut => h hcut.1 hcut.2.1, hturn, Int.add_zero]
  rfl

theorem Skips.cons {arg : String} {args : List String} (h : Skips k depth args) (hturn : turn arg = 0)
    (hne : arg = k.word → depth ≠ 0) : Skips k depth (arg :: args) :=
  (skips_singleton hturn hne).append h

/-- What stands in parentheses is walked over one level deeper. -/
theorem Skips.group {args : List String} (h : Skips k (depth + 1) args) : Skips k depth ("(" :: (args ++ [")"])) := by
  intro before rest
  have hopen : cutAt? k.word depth before ("(" :: (args ++ ([")"] ++ rest))) =
      cutAt? k.word (depth + 1) ("(" :: before) (args ++ ([")"] ++ rest)) := by
    rw [cutAt?_cons, if_neg fun hcut => k.word_ne_open hcut.1.symm]
    rfl
  have hclose (before : List String) : cutAt? k.word (depth + 1) before (")" :: rest) =
      cutAt? k.word depth (")" :: before) rest := by
    rw [cutAt?_cons, if_neg fun hcut => k.word_ne_close hcut.1.symm]
    exact congrArg (cutAt? k.word · (")" :: before) rest) (Int.add_neg_cancel_right depth 1)
  rw [List.cons_append, List.append_assoc, hopen, h, List.singleton_append, hclose]
  simp

/-- The scan cuts at the first connective outside, with something on both sides of it. -/
theorem Skips.cutAt?_eq_some {args rest : List String} (h : Skips k 0 args) (hargs : args ≠ []) (hrest : rest ≠ []) :
    cutAt? k.word 0 [] (args ++ k.word :: rest) = some (args, rest) := by
  rw [h, cutAt?_cons, if_pos ⟨rfl, rfl, by simpa using hargs, hrest⟩]
  simp

/-! ## 3. The forms of a condition -/

/-- No comparison is between two arguments, so that it would have to be made. -/
def NotCompared (args : List String) : Prop :=
  ∀ first op last, args = [first, op, last] → Comparison.ofText? op = none

theorem notCompared_of_length {args : List String} (h : args.length ≠ 3) : NotCompared args := by
  rintro first op last rfl
  exact absurd rfl h

/-- Arguments that are neither a comparison nor cut. -/
structure Uncut (args : List String) : Prop where
  notCompared : NotCompared args
  whole : ∀ k : Connective, cutAt? k.word 0 [] args = none

variable {s : Surroundings}

theorem evaluate_comparison {op : String} {comparison : Comparison} (h : Comparison.ofText? op = some comparison)
    (l r : String) : evaluate s [l, op, r] = comparison.holds l r := by
  rw [evaluate.eq_def]
  simp [h]

theorem NotCompared.eq_none {first second : String} {rest : List String} (h : NotCompared (first :: second :: rest)) :
    (if rest.length = 1 then Comparison.ofText? second else none) = none := by
  split
  · next hone =>
    obtain ⟨last, rfl⟩ := List.length_eq_one_iff.mp hone
    exact h first second last rfl
  · rfl

/-- Arguments that are cut are evaluated on both sides of the connective. -/
theorem evaluate_of_cut {args l r : List String} (hm : NotCompared args)
    (hlooser : ∀ k' : Connective, k'.level < k.level → cutAt? k'.word 0 [] args = none)
    (hc : cutAt? k.word 0 [] args = some (l, r)) :
    evaluate s args = k.join (evaluate s l) (evaluate s r) := by
  rcases args with - | ⟨first, - | ⟨second, rest⟩⟩
  · cases hc
  · rw [cutAt?_cons, if_neg fun hcut => hcut.2.2.1 rfl] at hc
    cases hc
  · rw [evaluate.eq_def]
    simp only [hm.eq_none]
    have hcut {op : String} {l' r' : List String} (hop : k.word = op)
        (he : cutAt? op 0 [] (first :: second :: rest) = some (l', r')) : l' = l ∧ r' = r := by
      rw [← hop, hc] at he
      exact ⟨(Prod.mk.inj (Option.some.inj he)).1.symm, (Prod.mk.inj (Option.some.inj he)).2.symm⟩
    have hnone {op : String} (hop : k.word = op) : cutAt? op 0 [] (first :: second :: rest) ≠ none := by
      rw [← hop, hc]
      exact Option.some_ne_none _
    -- `-o` is looked for first, so it is enough that it is found. For `-a` there must be no `-o`.
    cases k with
    | either =>
      split
      · next he =>
        obtain ⟨rfl, rfl⟩ := hcut rfl he
        rfl
      · next he => exact absurd he (hnone rfl)
    | both =>
      split
      · next he =>
        have hwhole := hlooser .either (by decide)
        rw [Connective.word, he] at hwhole
        cases hwhole
      · split
        · next he =>
          obtain ⟨rfl, rfl⟩ := hcut rfl he
          rfl
        · next he => exact absurd he (hnone rfl)

/-- What the first of some arguments decides. -/
def lead (s : Surroundings) (first second : String) (rest : List String) : Except Mistake Bool :=
  if first = "!" then do return !(← evaluate s (second :: rest))
  else if first = "(" then
    if (second :: rest).getLast? ≠ some ")" then .error .missingParenthesis
    else evaluate s (second :: rest).dropLast
  else
    match rest with
    | [] =>
      match Property.ofText? first with
      | some property => property.holds s second
      | none => .error (.notUnary first)
    | [_] => .error (.notBinary second)
    | _ => .error .tooManyArguments

theorem Uncut.evaluate_eq {first second : String} {rest : List String} (h : Uncut (first :: second :: rest)) :
    evaluate s (first :: second :: rest) = lead s first second rest := by
  have hnone {op : String} {k : Connective} (hop : k.word = op) {cut : List String × List String} :
      cutAt? op 0 [] (first :: second :: rest) ≠ some cut := by
    rw [← hop, h.whole k]
    exact Option.some_ne_none cut |>.symm
  rw [evaluate.eq_def]
  simp only [h.notCompared.eq_none]
  split
  · next he => exact absurd he (hnone (k := .either) rfl)
  · split
    · next he => exact absurd he (hnone (k := .both) rfl)
    · unfold lead
      rcases rest with - | ⟨third, - | ⟨fourth, rest⟩⟩ <;> rfl

/-- Two arguments cannot be cut. -/
theorem uncut_pair (first second : String) : Uncut [first, second] where
  notCompared := notCompared_of_length (by simp)
  whole k := by
    rw [cutAt?_cons, if_neg fun h => h.2.2.1 rfl, cutAt?_cons, if_neg fun h => h.2.2.2 rfl, cutAt?_nil]

theorem Uncut.evaluate_group {args : List String} (h : Uncut ("(" :: (args ++ [")"]))) :
    evaluate s ("(" :: (args ++ [")"])) = evaluate s args := by
  obtain ⟨second, rest, hargs⟩ := List.exists_cons_of_ne_nil (List.append_ne_nil_of_right_ne_nil args (by simp : [")"] ≠ []))
  have hlast : (second :: rest).getLast? = some ")" := by rw [← hargs]; simp
  rw [hargs] at h ⊢
  rw [h.evaluate_eq]
  unfold lead
  rw [if_neg (by decide), if_pos rfl, if_neg (not_not_intro hlast), ← hargs, List.dropLast_concat]

/-- More than three arguments have to start with `!` or a parenthesis. -/
theorem Uncut.evaluate_many {first second third fourth : String} {rest : List String}
    (h : Uncut (first :: second :: third :: fourth :: rest)) (hnot : first ≠ "!") (hopen : first ≠ "(") :
    evaluate s (first :: second :: third :: fourth :: rest) = .error .tooManyArguments := by
  rw [h.evaluate_eq]
  unfold lead
  rw [if_neg hnot, if_neg hopen]

/-! ## 4. The answer -/

/-- The answer of `test` or `[`, as which it is called by `name`. -/
def answer (name : String) (s : Surroundings) (args : List String) : Answer :=
  if args.isEmpty then .ofStatus 1
  else
    match evaluate s args with
    | .ok holds => .ofStatus (if holds then 0 else 1)
    | .error mistake => .refusal (name ++ ": " ++ mistake.message) 2

/-- `test` gives its answer and does nothing else. -/
theorem run_test (run : Runner) (args : List String) (c : Context) (s : State) :
    Builtin.run run .test args c s = (answer "test" ⟨s.env, c.files⟩ args).give c s := by
  have hfollow : Call.follow .test args = .builtin .test args := by
    unfold Call.follow
    rfl
  unfold Builtin.run
  rw [hfollow]
  show Builtin.runTest "test" args c s = _
  unfold Builtin.runTest answer
  cases args with
  | nil => rfl
  | cons arg args =>
    show (match evaluate ⟨s.env, c.files⟩ (arg :: args) with
      | .ok holds => (return .status (if holds then 0 else 1) : Exec Outcome)
      | .error mistake => (Answer.refusal ("test: " ++ mistake.message) 2).give) c s = _
    cases evaluate ⟨s.env, c.files⟩ (arg :: args) <;> rfl

variable {args : List String} {name : String}

/-- A condition that holds or not is told by the status. -/
theorem status_answer_of_ok (hargs : args ≠ []) {holds : Bool} (h : evaluate s args = .ok holds) :
    (answer name s args).status = if holds then 0 else 1 := by
  unfold answer
  rw [if_neg (by simpa using hargs), h]
  rfl

/-- A mistake is told by the status 2. -/
theorem status_answer_of_error (hargs : args ≠ []) {mistake : Mistake} (h : evaluate s args = .error mistake) :
    (answer name s args).status = 2 := by
  unfold answer
  rw [if_neg (by simpa using hargs), h]
  rfl

/-- Only a value is told by another status. -/
theorem status_answer_eq_iff (hargs : args ≠ []) (holds : Bool) :
    (answer name s args).status = (if holds then 0 else 1) ↔ evaluate s args = .ok holds := by
  cases he : evaluate s args with
  | ok v =>
    rw [status_answer_of_ok hargs he]
    cases v <;> cases holds <;> simp
  | error mistake =>
    rw [status_answer_of_error hargs he]
    cases holds <;> simp

end Shell.Test
