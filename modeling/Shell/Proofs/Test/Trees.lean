/-
Conditions as trees.

`test` is given arguments and no tree, and it has no grammar: it counts them, and cuts them where a connective stands
outside parentheses. A tree is written with `-o` as the loosest connective, then `-a`, then `!`, and with parentheses
where these levels ask for them (`Tree.words`). What is said here is that the arguments are cut where the tree says,
so that they are evaluated as the tree is (`Tree.reads`).

A chain of one connective is written without parentheses, however it is nested. It is cut at its first connective, so
the tree of it is taken apart from the left: the induction says what comes of a tree alone and of a tree with more of
the chain behind it.
-/
import Mathlib.Data.List.Basic
import Shell.Proofs.Test.Evaluation

set_option autoImplicit false

namespace Shell.Test

open Shell.Text

/-! ## 1. Trees -/

/-- The texts that are looked for among the arguments. -/
def isReserved (text : String) : Bool :=
  text ∈ ["!", "(", ")", "-a", "-o"] || (Comparison.ofText? text).isSome

/-- A text that is no part of the structure of a condition. -/
def Operand : Type := { text : String // isReserved text = false }

/-- What is asked of one text. -/
inductive Query where
  | empty | notEmpty
  /-- Whether the text is the name of a variable. -/
  | set
  deriving DecidableEq, Repr

def Query.word : Query → String
  | empty => "-z"
  | notEmpty => "-n"
  | set => "-v"

def Query.holds (env : Environment) (query : Query) (text : String) : Bool :=
  match query with
  | empty => text = ""
  | notEmpty => text ≠ ""
  | set => (env.get? text).isSome

/-- A comparison with one of its spellings. -/
structure Operator where
  word : String
  comparison : Comparison
  spelled : Comparison.ofText? word = some comparison

inductive Tree where
  | text (text : Operand)
  | query (query : Query) (text : Operand)
  | comparison (l : Operand) (op : Operator) (r : Operand)
  | not (tree : Tree)
  | join (k : Connective) (l r : Tree)
  | group (tree : Tree)

/-- Arguments in parentheses if they need them. -/
def enclosed (needed : Bool) (words : List String) : List String :=
  if needed then "(" :: (words ++ [")"]) else words

namespace Tree

/-- The arguments that a tree is written as, where connectives that bind less than `level` need parentheses. -/
def words (level : Nat) : Tree → List String
  | text t => [t.val]
  | query q t => [q.word, t.val]
  | comparison l op r => [l.val, op.word, r.val]
  | not t => "!" :: t.words 2
  | join k l r => enclosed (k.level < level) (l.words k.level ++ k.word :: r.words k.level)
  | group t => enclosed true (t.words 0)

/-- Whether a text is a number, with or without white space around it. -/
def isNumber (text : String) : Bool := (readDecimal? (trim text.toList)).isSome

/-- The number that a text is. -/
def number (text : String) : Int := (readDecimal? (trim text.toList)).getD 0

/-- Whether two texts compare as asked, if they are numbers where numbers are compared. -/
def compares (comparison : Comparison) (l r : String) : Bool :=
  match comparison with
  | .same => l = r
  | .different => l ≠ r
  | .before => l < r
  | .after => r < l
  | .numbers order => order.holds (number l) (number r)

/-- Whether numbers are compared somewhere in a tree, of which one is no number. -/
def isMistaken : Tree → Bool
  | text _ => false
  | query _ _ => false
  | comparison l op r =>
    match op.comparison with
    | .numbers _ => !isNumber l.val || !isNumber r.val
    | _ => false
  | not t => t.isMistaken
  | join _ l r => l.isMistaken || r.isMistaken
  | group t => t.isMistaken

/-- Whether a tree holds. -/
def holds (env : Environment) : Tree → Bool
  | text t => t.val ≠ ""
  | query q t => q.holds env t.val
  | comparison l op r => compares op.comparison l.val r.val
  | not t => !t.holds env
  | join k l r => k.apply (l.holds env) (r.holds env)
  | group t => t.holds env

/-- The status that a tree comes to. -/
def status (env : Environment) (t : Tree) : Nat :=
  if t.isMistaken then 2 else if t.holds env then 0 else 1

/-- The value of a tree, of which all parts are evaluated from the left. -/
def value (s : Surroundings) : Tree → Except Mistake Bool
  | text t => .ok !t.val.isEmpty
  | query q t => .ok (q.holds s.env t.val)
  | comparison l op r => op.comparison.holds l.val r.val
  | not t => return !(← t.value s)
  | join k l r => k.join (l.value s) (r.value s)
  | group t => t.value s

end Tree

/-! ## 2. The value of a tree -/

theorem isEmpty_eq (text : String) : text.isEmpty = decide (text = "") := by
  by_cases h : text = ""
  · subst h
    rfl
  · rw [decide_eq_false h]
    exact Bool.eq_false_iff.mpr fun he => h (String.isEmpty_iff.mp he)

theorem integer_of_isNumber {text : String} (h : Tree.isNumber text = true) : integer text = .ok (Tree.number text) := by
  obtain ⟨n, hn⟩ := Option.isSome_iff_exists.mp h
  unfold integer Tree.number
  rw [hn]
  rfl

theorem integer_of_not_isNumber {text : String} (h : Tree.isNumber text = false) :
    integer text = .error (.notInteger text) := by
  have hn : readDecimal? (trim text.toList) = none := Option.not_isSome_iff_eq_none.mp (by simpa [Tree.isNumber] using h)
  unfold integer
  rw [hn]

namespace Tree

/-- A comparison of numbers is a mistake where one of them is none, and holds or not everywhere else. -/
theorem value_comparison (s : Surroundings) (l : Operand) (op : Operator) (r : Operand) :
    if (comparison l op r).isMistaken then ∃ mistake, (comparison l op r).value s = .error mistake
    else (comparison l op r).value s = .ok ((comparison l op r).holds s.env) := by
  unfold isMistaken value holds compares Comparison.holds
  cases op.comparison with
  | same => exact congrArg Except.ok (Bool.beq_eq_decide_eq _ _)
  | different =>
    refine congrArg Except.ok ?_
    show (!(l.val == r.val)) = decide (¬ l.val = r.val)
    rw [Bool.beq_eq_decide_eq, decide_not]
  | before => rfl
  | after => rfl
  | numbers order =>
    cases hl : isNumber l.val with
    | false => exact ⟨.notInteger l.val, by simp only [integer_of_not_isNumber hl]; rfl⟩
    | true =>
      cases hr : isNumber r.val with
      | false =>
        exact ⟨.notInteger r.val, by simp only [integer_of_isNumber hl, integer_of_not_isNumber hr]; rfl⟩
      | true =>
        simp only [integer_of_isNumber hl, integer_of_isNumber hr]
        rfl

/-- **A tree has a value unless numbers are compared that are none.** -/
theorem value_eq (s : Surroundings) (t : Tree) :
    if t.isMistaken then ∃ mistake, t.value s = .error mistake else t.value s = .ok (t.holds s.env) := by
  -- The left part is evaluated first, so its mistake is the one that is reported.
  induction t with
  | text t => exact congrArg (Except.ok !·) (isEmpty_eq t.val) |>.trans (congrArg Except.ok (by simp [holds]))
  | query q t => rfl
  | comparison l op r => exact value_comparison s l op r
  | not t ih =>
    unfold isMistaken value holds
    cases hm : t.isMistaken with
    | true =>
      rw [hm] at ih
      obtain ⟨mistake, he⟩ := ih
      exact ⟨mistake, by rw [he]; rfl⟩
    | false =>
      rw [hm] at ih
      have hv : t.value s = .ok (t.holds s.env) := ih
      simp only [hv]
      rfl
  | join k l r ihl ihr =>
    unfold isMistaken value holds
    cases hl : l.isMistaken with
    | true =>
      rw [hl] at ihl
      obtain ⟨mistake, he⟩ := ihl
      exact ⟨mistake, by rw [he]; rfl⟩
    | false =>
      rw [hl] at ihl
      have hvl : l.value s = .ok (l.holds s.env) := ihl
      cases hr : r.isMistaken with
      | true =>
        rw [hr] at ihr
        obtain ⟨mistake, he⟩ := ihr
        exact ⟨mistake, by rw [hvl, he]; rfl⟩
      | false =>
        rw [hr] at ihr
        have hvr : r.value s = .ok (r.holds s.env) := ihr
        simp only [hvl, hvr]
        rfl
  | group t ih => exact ih

end Tree

/-! ## 3. The scan over a tree -/

/-- An operand is nothing that is looked for. -/
theorem Operand.ne_of_isReserved (t : Operand) {word : String} (h : isReserved word = true) : t.val ≠ word := by
  intro he
  have hnot := t.property
  rw [he, h] at hnot
  exact Bool.noConfusion hnot

theorem Operand.turn_eq_zero (t : Operand) : turn t.val = 0 := by
  unfold turn
  rw [if_neg (t.ne_of_isReserved (by decide)), if_neg (t.ne_of_isReserved (by decide))]

theorem Operand.ne_word (t : Operand) (k : Connective) : t.val ≠ k.word := by
  cases k <;> exact t.ne_of_isReserved (by decide)

theorem Operand.ofText?_eq_none (t : Operand) : Comparison.ofText? t.val = none := by
  have hnot := t.property
  unfold isReserved at hnot
  exact Option.not_isSome_iff_eq_none.mp (by simpa using (Bool.or_eq_false_iff.mp hnot).2)

/-- A comparison is spelled as nothing else. -/
theorem Operator.ne_of_ofText? (op : Operator) {word : String} (h : Comparison.ofText? word = none) : op.word ≠ word := by
  intro he
  have hspelled := op.spelled
  rw [he, h] at hspelled
  cases hspelled

theorem Operator.turn_eq_zero (op : Operator) : turn op.word = 0 := by
  unfold turn
  rw [if_neg (op.ne_of_ofText? rfl), if_neg (op.ne_of_ofText? rfl)]

variable {k : Connective} {depth : Int} {s : Surroundings}

/-- What is written in parentheses where it needs them is walked over, if it is walked over inside of them. -/
theorem skips_enclosed {needed : Bool} {words : List String} (hinside : Skips k (depth + 1) words)
    (hbare : needed = false → Skips k depth words) : Skips k depth (enclosed needed words) := by
  cases needed with
  | true => exact hinside.group
  | false => exact hbare rfl

namespace Tree

/-- **A tree is walked over** by the scan for a connective, inside parentheses and wherever all that binds as loosely as
the connective has parentheses around it. -/
theorem skips_words (t : Tree) {level : Nat} (hdepth : 0 ≤ depth) (h : 0 < depth ∨ k.level < level) :
    Skips k depth (t.words level) := by
  -- A part without parentheses is a join of a closer level, or it stands at a depth that is not 0.
  induction t generalizing level depth with
  | text t => exact skips_singleton t.turn_eq_zero fun he => absurd he (t.ne_word k)
  | query q t =>
    have hturn : turn q.word = 0 := by cases q <;> rfl
    have hne : q.word ≠ k.word := by cases q <;> cases k <;> decide
    exact (skips_singleton t.turn_eq_zero fun he => absurd he (t.ne_word k)).cons hturn fun he => absurd he hne
  | comparison l op r =>
    have hr : Skips k depth [r.val] := skips_singleton r.turn_eq_zero fun he => absurd he (r.ne_word k)
    exact (hr.cons op.turn_eq_zero fun he => absurd he (op.ne_of_ofText? k.ofText?_word)).cons l.turn_eq_zero
      fun he => absurd he (l.ne_word k)
  | not t ih =>
    have hne : "!" ≠ k.word := by cases k <;> decide
    exact (ih hdepth (.inr k.level_lt)).cons rfl fun he => absurd he hne
  | join k' l r ihl ihr =>
    have hjoined {depth : Int} (hdepth : 0 ≤ depth) (h : 0 < depth ∨ k.level < k'.level) :
        Skips k depth (l.words k'.level ++ k'.word :: r.words k'.level) := by
      refine (ihl hdepth h).append ((ihr hdepth h).cons (turn_word k') fun he => ?_)
      rcases h with hpos | hlt
      · exact Int.ne_of_gt hpos
      · exact absurd hlt (Connective.eq_of_word_eq he ▸ Nat.lt_irrefl _)
    refine skips_enclosed (hjoined (by omega) (.inl (by omega))) fun hneeded => hjoined hdepth ?_
    have hle : ¬ k'.level < level := of_decide_eq_false hneeded
    omega
  | group t ih => exact skips_enclosed (ih (by omega) (.inl (by omega))) nofun

theorem words_ne_nil (t : Tree) (level : Nat) : t.words level ≠ [] := by
  cases t with
  | join k l r =>
    unfold words enclosed
    split <;> simp
  | _ => exact List.cons_ne_nil _ _

/-- No tree starts with a comparison. -/
theorem head?_words (t : Tree) {level : Nat} {word : String} (h : (t.words level).head? = some word) :
    Comparison.ofText? word = none := by
  induction t generalizing level with
  | text t => exact Option.some.inj h ▸ t.ofText?_eq_none
  | query q t =>
    obtain rfl := Option.some.inj h
    cases q <;> rfl
  | comparison l op r => exact Option.some.inj h ▸ l.ofText?_eq_none
  | not t ih => exact Option.some.inj h ▸ rfl
  | join k l r ihl ihr =>
    unfold words enclosed at h
    split at h
    · exact Option.some.inj h ▸ rfl
    · rw [List.head?_append_of_ne_nil _ (l.words_ne_nil _)] at h
      exact ihl h
  | group t ih => exact Option.some.inj h ▸ rfl

/-! ## 4. The evaluation of a tree -/

/-- A tree behind one argument is no comparison. -/
theorem notCompared_cons (first : String) (t : Tree) (level : Nat) (rest : List String) :
    NotCompared (first :: (t.words level ++ rest)) := by
  intro first' op last he
  have hhead : (t.words level ++ rest).head? = some op := by rw [(List.cons.inj he).2, List.head?_cons]
  rw [List.head?_append_of_ne_nil _ (t.words_ne_nil level)] at hhead
  exact t.head?_words hhead

/-- Nor is a tree before a connective with something behind it. -/
theorem notCompared_join (t : Tree) (level : Nat) (k : Connective) {rest : List String} (hrest : rest ≠ []) :
    NotCompared (t.words level ++ k.word :: rest) := by
  intro first op last he
  obtain ⟨word, words, hwords⟩ := List.exists_cons_of_ne_nil (t.words_ne_nil level)
  obtain ⟨next, rest, rfl⟩ := List.exists_cons_of_ne_nil hrest
  rw [hwords, List.cons_append] at he
  obtain ⟨-, hbehind⟩ := List.cons.inj he
  cases words with
  | nil =>
    obtain ⟨rfl, -⟩ := List.cons.inj hbehind
    exact k.ofText?_word
  | cons second words =>
    have hlength := congrArg List.length hbehind
    simp at hlength
    omega

theorem evaluate_not (t : Tree) : evaluate s ("!" :: t.words 2) = do return !(← evaluate s (t.words 2)) := by
  have hskips (k : Connective) : Skips k 0 ("!" :: t.words 2) :=
    t.not.skips_words (Int.le_refl 0) (.inr k.level_lt)
  have huncut : Uncut ("!" :: t.words 2) :=
    { notCompared := by simpa using t.notCompared_cons "!" 2 []
      whole := fun k => (hskips k).cutAt?_eq_none }
  obtain ⟨word, words, hwords⟩ := List.exists_cons_of_ne_nil (t.words_ne_nil 2)
  rw [hwords] at huncut ⊢
  rw [huncut.evaluate_eq]
  unfold lead
  rw [if_pos rfl]

theorem evaluate_query (q : Query) (text : String) : evaluate s [q.word, text] = .ok (q.holds s.env text) := by
  rw [(uncut_pair q.word text).evaluate_eq]
  unfold lead
  cases q with
  | empty => exact congrArg Except.ok (isEmpty_eq text)
  | notEmpty => exact congrArg (fun e => Except.ok !e) (isEmpty_eq text) |>.trans (congrArg Except.ok (by simp [Query.holds]))
  | set => rfl

/-- Parentheses around a tree change nothing. -/
theorem evaluate_enclosed (t : Tree) : evaluate s ("(" :: (t.words 0 ++ [")"])) = evaluate s (t.words 0) :=
  Uncut.evaluate_group
    { notCompared := t.notCompared_cons "(" 0 [")"]
      whole := fun k => Skips.cutAt?_eq_none (t.skips_words (by decide) (.inl (by decide))).group }

/-- Arguments before a connective and behind it are evaluated by themselves. -/
theorem evaluate_join (t : Tree) (k : Connective) {rest : List String} (hskips : Skips k 0 (t.words k.level))
    (hrest : rest ≠ []) (hlooser : ∀ k' : Connective, k'.level < k.level → Skips k' 0 rest) :
    evaluate s (t.words k.level ++ k.word :: rest) = k.join (evaluate s (t.words k.level)) (evaluate s rest) := by
  refine evaluate_of_cut (t.notCompared_join k.level k hrest) (fun k' hlt => ?_)
    (hskips.cutAt?_eq_some (t.words_ne_nil _) hrest)
  refine Skips.cutAt?_eq_none ((t.skips_words (Int.le_refl 0) (.inr hlt)).append ((hlooser k' hlt).cons (turn_word k) ?_))
  intro he
  exact absurd hlt (Connective.eq_of_word_eq he ▸ Nat.lt_irrefl _)

/-- Of all trees only a chain of a connective is cut at that connective where it needs no parentheses. -/
theorem words_succ (t : Tree) (k : Connective) (h : ∀ l r, t ≠ .join k l r) :
    t.words k.level = t.words (k.level + 1) := by
  cases t with
  | join k' l r =>
    have hne : k'.level ≠ k.level := fun he => h l r (Connective.eq_of_level_eq he ▸ rfl)
    unfold words
    rw [decide_eq_decide.mpr (show k'.level < k.level ↔ k'.level < k.level + 1 by omega)]
  | _ => rfl

/-- What comes of a tree where it stands alone, and of a tree that is the front of a chain. -/
structure Reads (s : Surroundings) (t : Tree) : Prop where
  alone : ∀ level, evaluate s (t.words level) = t.value s
  before : ∀ (k : Connective) (rest : List String), rest ≠ [] →
    (∀ k' : Connective, k'.level < k.level → Skips k' 0 rest) →
    evaluate s (t.words k.level ++ k.word :: rest) = k.join (t.value s) (evaluate s rest)

/-- A tree that is no chain of a connective is the front of one as it is. -/
theorem before_of_alone {t : Tree} (halone : ∀ level, evaluate s (t.words level) = t.value s)
    (hsimple : ∀ l r, t ≠ .join k l r) {rest : List String} (hrest : rest ≠ [])
    (hlooser : ∀ k' : Connective, k'.level < k.level → Skips k' 0 rest) :
    evaluate s (t.words k.level ++ k.word :: rest) = k.join (t.value s) (evaluate s rest) := by
  have hskips : Skips k 0 (t.words k.level) := by
    rw [t.words_succ k hsimple]
    exact t.skips_words (Int.le_refl 0) (.inr (Nat.lt_succ_self _))
  rw [t.evaluate_join k hskips hrest hlooser, halone]

theorem reads_of_alone {t : Tree} (halone : ∀ level, evaluate s (t.words level) = t.value s)
    (hsimple : ∀ (k : Connective) l r, t ≠ .join k l r) : t.Reads s :=
  ⟨halone, fun k _ hrest hlooser => before_of_alone halone (hsimple k) hrest hlooser⟩

/-- **Arguments are cut where the tree is joined.** -/
theorem reads (s : Surroundings) (t : Tree) : t.Reads s := by
  -- Joins are the only trees that are not read as a whole: before another connective, their right part is cut off.
  induction t with
  | text t => exact reads_of_alone (fun _ => by rw [words, evaluate.eq_def]; rfl) nofun
  | query q t => exact reads_of_alone (fun _ => evaluate_query q t.val) nofun
  | comparison l op r => exact reads_of_alone (fun _ => evaluate_comparison op.spelled l.val r.val) nofun
  | not t ih =>
    refine reads_of_alone (fun _ => ?_) nofun
    rw [words, evaluate_not, ih.alone]
    rfl
  | group t ih => exact reads_of_alone (fun _ => (evaluate_enclosed t).trans (ih.alone 0)) nofun
  | join k l r ihl ihr =>
    have hrest : ∀ k' : Connective, k'.level < k.level → Skips k' 0 (r.words k.level) :=
      fun k' hlt => r.skips_words (Int.le_refl 0) (.inr hlt)
    have hplain : evaluate s (l.words k.level ++ k.word :: r.words k.level) = (join k l r).value s := by
      rw [ihl.before k _ (r.words_ne_nil _) hrest, ihr.alone]
      rfl
    have halone (level : Nat) : evaluate s ((join k l r).words level) = (join k l r).value s := by
      by_cases hneeded : k.level < level
      · have hwords : (join k l r).words level = "(" :: ((join k l r).words 0 ++ [")"]) := by
          simp [words, enclosed, hneeded]
        rw [hwords, evaluate_enclosed]
        simpa [words, enclosed] using hplain
      · simpa [words, enclosed, hneeded] using hplain
    refine ⟨halone, fun k' rest hne hlooser => ?_⟩
    by_cases hk : k' = k
    · -- The chain goes on behind the right part, so that part comes before the rest of it.
      subst hk
      have hskips : ∀ k : Connective, k.level < k'.level → Skips k 0 (r.words k'.level ++ k'.word :: rest) :=
        fun k hlt => (hrest k hlt).append ((hlooser k hlt).cons (turn_word k')
          fun he => absurd hlt (Connective.eq_of_word_eq he ▸ Nat.lt_irrefl _))
      have hwords : (join k' l r).words k'.level = l.words k'.level ++ k'.word :: r.words k'.level := by
        simp [words, enclosed]
      rw [hwords, List.append_assoc, List.cons_append, ihl.before k' _ (by simp) hskips, ihr.before k' rest hne hlooser]
      exact (k'.join_assoc _ _ _).symm
    · exact before_of_alone halone (fun l' r' he => hk (by cases he; rfl)) hne hlooser

end Tree

/-! ## 5. The status -/

/-- **Conditions are evaluated by precedence.** A tree that is written as arguments is evaluated as the tree is: the
status is 2 if numbers are compared in it of which one is no number, and otherwise it says whether the tree holds. -/
theorem evaluates_by_precedence (t : Tree) (run : Runner) (c : Context) (s : State) :
    ∃ answer : Answer, Builtin.run run .test (t.words 0) c s = answer.give c s ∧ answer.status = t.status s.env := by
  refine ⟨_, run_test run (t.words 0) c s, ?_⟩
  have hargs := t.words_ne_nil 0
  have halone := (t.reads ⟨s.env, c.files⟩).alone 0
  have hvalue := t.value_eq ⟨s.env, c.files⟩
  unfold Tree.status
  cases hm : t.isMistaken with
  | true =>
    rw [hm] at hvalue
    obtain ⟨mistake, he⟩ := hvalue
    exact status_answer_of_error hargs (halone.trans he)
  | false =>
    rw [hm] at hvalue
    exact status_answer_of_ok hargs (halone.trans hvalue)

end Shell.Test
