/-
What operands can do to the structure of a condition.

In `A = B -a C = D` the scan for a connective looks at every argument, operands too. An operand that is spelled as a
parenthesis makes all that follows look as if it stood inside, unless another one before the connective closes it; an
operand that is spelled as a connective is taken for one. What is said here is exactly which operands leave the
structure as it is (`Undisturbed`). With all others the condition is a mistake or comes to the wrong value, but for
three conditions with four particular operands, which come to the right value for a wrong reason (`Coincides`).
-/
import Shell.Proofs.Test.Evaluation
import Shell.Session

set_option autoImplicit false

namespace Shell.Test

/-! ## 1. Mistakes -/

/-- Not a value. -/
def IsMistake (r : Except Mistake Bool) : Prop := ∃ mistake, r = .error mistake

theorem IsMistake.ne_ok {r : Except Mistake Bool} (h : IsMistake r) (v : Bool) : r ≠ .ok v := by
  obtain ⟨mistake, rfl⟩ := h
  nofun

theorem IsMistake.join_left {k : Connective} {l : Except Mistake Bool} (h : IsMistake l) (r : Except Mistake Bool) :
    IsMistake (k.join l r) := by
  obtain ⟨mistake, rfl⟩ := h
  exact ⟨mistake, rfl⟩

/-- Both sides are evaluated, so the right one can be a mistake whatever the left one is. -/
theorem IsMistake.join_right {k : Connective} {r : Except Mistake Bool} (l : Except Mistake Bool) (h : IsMistake r) :
    IsMistake (k.join l r) := by
  obtain ⟨mistake, rfl⟩ := h
  cases l with
  | error mistake' => exact ⟨mistake', rfl⟩
  | ok v => exact ⟨mistake, rfl⟩

theorem join_ne_false_left (r : Except Mistake Bool) : Connective.either.join (.ok true) r ≠ .ok false := by
  cases r <;> nofun

theorem join_ne_false_right (l : Except Mistake Bool) : Connective.either.join l (.ok true) ≠ .ok false := by
  cases l with
  | error mistake => nofun
  | ok v => cases v <;> nofun

variable {k k' : Connective} {s : Surroundings} {a b c d : String}

theorem evaluate_singleton (text : String) : evaluate s [text] = .ok !text.isEmpty := by
  rw [evaluate.eq_def]

/-- `=` is no property of a text. -/
theorem isMistake_same (text : String) : IsMistake (evaluate s ["=", text]) := by
  rw [(uncut_pair "=" text).evaluate_eq]
  exact ⟨.notUnary "=", rfl⟩

/-- The connectives from the loosest on. -/
theorem looser_cases (k' : Connective) (h : k'.level < k.level) : k' = .either ∧ k = .both := by
  cases k <;> cases k' <;> first | exact ⟨rfl, rfl⟩ | exact absurd h (by decide)

/-- Arguments are a mistake if the first cut of them leaves one on a side, or the argument that decides makes one. -/
theorem isMistake_of_cuts {args : List String} (hm : NotCompared args)
    (huncut : Uncut args → IsMistake (evaluate s args))
    (hcut : ∀ k l r, (∀ k' : Connective, k'.level < k.level → cutAt? k'.word 0 [] args = none) →
      cutAt? (Connective.word k) 0 [] args = some (l, r) → IsMistake (evaluate s l) ∨ IsMistake (evaluate s r)) :
    IsMistake (evaluate s args) := by
  have hjoin {k : Connective} {l r : List String} (hlooser : ∀ k' : Connective, k'.level < k.level →
      cutAt? k'.word 0 [] args = none) (hc : cutAt? k.word 0 [] args = some (l, r)) : IsMistake (evaluate s args) := by
    rw [evaluate_of_cut hm hlooser hc]
    rcases hcut k l r hlooser hc with hl | hr
    · exact hl.join_left _
    · exact hr.join_right _
  cases heither : cutAt? Connective.either.word 0 [] args with
  | some cut => exact hjoin (fun k' hlt => absurd hlt (Nat.not_lt_zero _)) heither
  | none =>
    cases hboth : cutAt? Connective.both.word 0 [] args with
    | some cut =>
      refine hjoin (fun k' hlt => ?_) hboth
      rw [(looser_cases k' hlt).1]
      exact heither
    | none => exact huncut ⟨hm, fun k => by cases k <;> assumption⟩

/-! ## 2. Two comparisons -/

/-- Two comparisons and a connective between them. -/
def pairs (k : Connective) (a b c d : String) : List String := [a, "=", b, k.word, c, "=", d]

theorem notCompared_pairs : NotCompared (pairs k a b c d) := notCompared_of_length (by simp [pairs])

theorem same_ne_word : "=" ≠ k.word := by
  cases k <;> decide

theorem word_eq_iff : k.word = k'.word ↔ k = k' := ⟨Connective.eq_of_word_eq, congrArg Connective.word⟩

/-- Where two comparisons are cut: at an operand that is a connective, or between the comparisons, if as many
parentheses have been closed as opened there. -/
theorem cutAt?_pairs (k k' : Connective) (a b c d : String) : cutAt? k'.word 0 [] (pairs k a b c d) =
    if b = k'.word ∧ turn a = 0 then some ([a, "="], [k.word, c, "=", d])
    else if turn a + turn b = 0 then
      if k = k' then some ([a, "=", b], [c, "=", d])
      else if c = k'.word then some ([a, "=", b, k.word], ["=", d])
      else none
    else none := by
  unfold pairs
  simp only [cutAt?_cons, turn_word, turn_same, same_ne_word, word_eq_iff, Int.add_zero, Int.zero_add]
  by_cases hlevel : turn a + turn b = 0 <;> simp [hlevel, cutAt?_nil]

/-- The operands that are taken for what they are. -/
structure Undisturbed (k : Connective) (a b c : String) : Prop where
  /-- No parenthesis is open before the connective. -/
  level : turn a + turn b = 0
  left : ∀ k' : Connective, k'.level ≤ k.level → b ≠ k'.word
  right : ∀ k' : Connective, k'.level < k.level → c ≠ k'.word

/-- **Undisturbed comparisons** are cut between them. -/
theorem Undisturbed.evaluate_pairs (h : Undisturbed k a b c) (d : String) :
    evaluate s (pairs k a b c d) = .ok (k.apply (a == b) (c == d)) := by
  have hmiddle : cutAt? k.word 0 [] (pairs k a b c d) = some ([a, "=", b], [c, "=", d]) := by
    rw [cutAt?_pairs, if_neg fun hb => h.left k (Nat.le_refl _) hb.1, if_pos h.level, if_pos rfl]
  have hlooser (k' : Connective) (hlt : k'.level < k.level) : cutAt? k'.word 0 [] (pairs k a b c d) = none := by
    rw [cutAt?_pairs, if_neg fun hb => h.left k' (Nat.le_of_lt hlt) hb.1, if_pos h.level, if_neg, if_neg (h.right k' hlt)]
    rintro rfl
    exact Nat.lt_irrefl _ hlt
  have hsame (l r : String) : evaluate s [l, "=", r] = .ok (l == r) :=
    evaluate_comparison (show Comparison.ofText? "=" = some .same from rfl) l r
  rw [evaluate_of_cut notCompared_pairs hlooser hmiddle, hsame, hsame]
  rfl

/-- What is left behind an operand that is taken for a connective is no condition. -/
theorem isMistake_rest (k : Connective) (c d : String) : IsMistake (evaluate s [k.word, c, "=", d]) := by
  have hcut (k' : Connective) : cutAt? k'.word 0 [] [k.word, c, "=", d] =
      if c = k'.word then some ([k.word], ["=", d]) else none := by
    simp [cutAt?_cons, same_ne_word, cutAt?_nil]
  refine isMistake_of_cuts (notCompared_of_length (by simp)) (fun huncut => ?_) fun k' l r _ hc => ?_
  · exact ⟨_, huncut.evaluate_many (by cases k <;> decide) k.word_ne_open⟩
  · rw [hcut] at hc
    split at hc
    · cases hc
      exact .inr (isMistake_same d)
    · cases hc

/-- As many parentheses are closed as opened, but an operand is taken for a connective. -/
theorem isMistake_of_level (hlevel : turn a + turn b = 0) (h : ¬ Undisturbed k a b c) :
    IsMistake (evaluate s (pairs k a b c d)) := by
  have hturn {k' : Connective} (hb : b = k'.word) : turn a = 0 := by
    rw [hb, turn_word, Int.add_zero] at hlevel
    exact hlevel
  refine isMistake_of_cuts notCompared_pairs (fun huncut => ?_) fun k' l r hlooser hc => ?_
  · -- The connective itself would be a place to cut.
    have hnone := huncut.whole k
    rw [cutAt?_pairs, if_pos hlevel, if_pos rfl] at hnone
    split at hnone <;> cases hnone
  · rw [cutAt?_pairs, if_pos hlevel] at hc
    split at hc
    · cases hc
      exact .inr (isMistake_rest k c d)
    · next hb =>
      split at hc
      · next hk =>
        subst hk
        -- It is cut in the middle, and at no looser connective, so that nothing has disturbed it.
        refine absurd ⟨hlevel, fun k' hle he => ?_, fun k' hlt he => ?_⟩ h
        · rcases Nat.lt_or_eq_of_le hle with hlt | heq
          · have hnone := hlooser k' hlt
            rw [cutAt?_pairs, if_pos ⟨he, hturn he⟩] at hnone
            cases hnone
          · obtain rfl := Connective.eq_of_level_eq heq
            exact hb ⟨he, hturn he⟩
        · have hnone := hlooser k' hlt
          have hne : k ≠ k' := fun hk => Nat.lt_irrefl _ (hk ▸ hlt)
          rw [cutAt?_pairs, if_pos hlevel, if_neg hne, if_pos he] at hnone
          split at hnone <;> cases hnone
      · split at hc
        · cases hc
          exact .inr (isMistake_same d)
        · cases hc

/-- Where a parenthesis is open before the connective, nothing is cut. -/
theorem uncut_pairs (hlevel : turn a + turn b ≠ 0) : Uncut (pairs k a b c d) where
  notCompared := notCompared_pairs
  whole k' := by
    rw [cutAt?_pairs, if_neg, if_neg hlevel]
    rintro ⟨rfl, hturn⟩
    exact hlevel (by rw [hturn, turn_word]; rfl)

/-! ## 3. An open parenthesis -/

/-- Where two comparisons without their first operand are cut. -/
theorem cutAt?_behind (k k' : Connective) (b c : String) (tail : List String) (htail : tail.length ≤ 1) :
    cutAt? k'.word 0 [] ("=" :: b :: k.word :: c :: "=" :: tail) =
      if b = k'.word then some (["="], k.word :: c :: "=" :: tail)
      else if turn b = 0 then
        if k = k' then some (["=", b], c :: "=" :: tail)
        else if c = k'.word then some (["=", b, k.word], "=" :: tail)
        else none
      else none := by
  have hend (depth : Int) (before : List String) : cutAt? k'.word depth before tail = none := by
    rcases tail with - | ⟨d, - | ⟨e, tail⟩⟩
    · rfl
    · rw [cutAt?_cons, if_neg fun h => h.2.2.2 rfl, cutAt?_nil]
    · simp at htail
  simp only [cutAt?_cons, turn_word, turn_same, same_ne_word, word_eq_iff, Int.add_zero, Int.zero_add, hend]
  by_cases hturn : turn b = 0 <;> simp [hturn]

/-- With a parenthesis in place of the second operand they are not cut, and so a mistake. -/
theorem isMistake_behind (hturn : turn b ≠ 0) (tail : List String) (htail : tail.length ≤ 1) :
    IsMistake (evaluate s ("=" :: b :: k.word :: c :: "=" :: tail)) := by
  have huncut : Uncut ("=" :: b :: k.word :: c :: "=" :: tail) :=
    { notCompared := notCompared_of_length (by simp)
      whole := fun k' => by
        rw [cutAt?_behind k k' b c tail htail, if_neg, if_neg hturn]
        rintro rfl
        exact hturn (turn_word k') }
  exact ⟨_, huncut.evaluate_many (by decide) (by decide)⟩

/-- An open parenthesis is a mistake, unless the condition seems to stand in parentheses. -/
theorem isMistake_of_open (hlevel : turn a + turn b ≠ 0) (h : ¬ (a = "(" ∧ d = ")")) :
    IsMistake (evaluate s (pairs k a b c d)) := by
  have huncut : Uncut (pairs k a b c d) := uncut_pairs hlevel
  by_cases hopen : a = "("
  · have hlast : ["=", b, k.word, c, "=", d].getLast? ≠ some ")" := by
      simpa using fun hd => h ⟨hopen, hd⟩
    refine ⟨.missingParenthesis, huncut.evaluate_eq.trans ?_⟩
    unfold lead
    rw [if_neg (by rw [hopen]; decide), if_pos hopen, if_pos hlast]
  · by_cases hnot : a = "!"
    · -- The second operand is the parenthesis.
      subst hnot
      have hturn : turn b ≠ 0 := fun hb => hlevel (by rw [hb]; rfl)
      obtain ⟨mistake, he⟩ : IsMistake (evaluate s ["=", b, k.word, c, "=", d]) := isMistake_behind hturn [d] (by simp)
      refine ⟨mistake, huncut.evaluate_eq.trans ?_⟩
      unfold lead
      rw [if_pos rfl, he]
      rfl
    · exact ⟨_, huncut.evaluate_many hnot hopen⟩

/-! ## 4. What seems to stand in parentheses -/

theorem turn_eq_zero_of_ne {text : String} (hopen : text ≠ "(") (hclose : text ≠ ")") : turn text = 0 := by
  unfold turn
  rw [if_neg hopen, if_neg hclose]

theorem ofText?_eq_same_iff {text : String} : Comparison.ofText? text = some .same ↔ text = "=" ∨ text = "==" := by
  constructor
  · intro h
    unfold Comparison.ofText? at h
    split at h <;> first | exact .inl rfl | exact .inr rfl | cases h
  · rintro (rfl | rfl) <;> rfl

theorem ofText?_eq_after_iff {text : String} : Comparison.ofText? text = some .after ↔ text = ">" := by
  constructor
  · intro h
    unfold Comparison.ofText? at h
    split at h <;> first | rfl | cases h
  · rintro rfl
    rfl

/-- A connective is no number, is not `=`, and comes before it. -/
theorem holds_word_eq_false_iff (k : Connective) (comparison : Comparison) :
    comparison.holds k.word "=" = .ok false ↔ comparison = .same ∨ comparison = .after := by
  cases comparison with
  | same =>
    have hsame : (k.word == "=") = false := by cases k <;> decide
    exact iff_of_true (congrArg Except.ok hsame) (.inl rfl)
  | different => cases k <;> exact iff_of_false nofun nofun
  | before =>
    have hbefore : decide (k.word < "=") = true := by cases k <;> decide
    exact iff_of_false (fun h => Bool.noConfusion (hbefore.symm.trans (Except.ok.inj h))) nofun
  | after =>
    have hafter : decide ("=" < k.word) = false := by cases k <;> decide
    exact iff_of_true (congrArg Except.ok hafter) (.inr rfl)
  | numbers order =>
    have hnumber : integer k.word = .error (.notInteger k.word) := by cases k <;> rfl
    unfold Comparison.holds
    rw [hnumber]
    exact iff_of_false nofun nofun

/-- What is left behind an operand that is taken for a connective, where the last argument has been taken for a closing
parenthesis. -/
theorem evaluate_triple_eq_false_iff (k : Connective) (c : String) :
    evaluate s [k.word, c, "="] = .ok false ↔ c = "=" ∨ c = "==" ∨ c = ">" := by
  rw [← or_assoc, ← ofText?_eq_same_iff, ← ofText?_eq_after_iff]
  cases hc : Comparison.ofText? c with
  | some comparison =>
    rw [evaluate_comparison hc, holds_word_eq_false_iff, Option.some_inj, Option.some_inj]
  | none =>
    have hm : NotCompared [k.word, c, "="] := by
      rintro first op last he
      cases he
      exact hc
    have hcut (k' : Connective) : cutAt? k'.word 0 [] [k.word, c, "="] =
        if c = k'.word then some ([k.word], ["="]) else none := by
      simp [cutAt?_cons, same_ne_word, cutAt?_nil]
    -- Without a comparison the three words are cut at the second one, or they are a mistake.
    refine iff_of_false ?_ nofun
    by_cases hword : ∃ k' : Connective, c = k'.word
    · obtain ⟨k', rfl⟩ := hword
      have hlooser (k'' : Connective) (hlt : k''.level < k'.level) : cutAt? k''.word 0 [] [k.word, k'.word, "="] = none := by
        rw [hcut, if_neg fun he => Nat.lt_irrefl _ (Connective.eq_of_word_eq he ▸ hlt)]
      rw [evaluate_of_cut hm hlooser (hcut k' |>.trans (if_pos rfl)), evaluate_singleton, evaluate_singleton]
      cases k <;> cases k' <;> nofun
    · have huncut : Uncut [k.word, c, "="] :=
        ⟨hm, fun k' => (hcut k').trans (if_neg fun he => hword ⟨k', he⟩)⟩
      rw [huncut.evaluate_eq]
      unfold lead
      rw [if_neg (by cases k <;> decide), if_neg k.word_ne_open]
      nofun

/-- Four operands that happen to be read as the right value: `( = -a ) -a ...` seems to be a condition in parentheses,
and the second operand to be its connective. -/
def Coincides (k : Connective) (a b c d : String) : Prop :=
  k = .both ∧ a = "(" ∧ b = "-a" ∧ (c = "=" ∨ c = "==" ∨ c = ">") ∧ d = ")"

section

variable (hopen : b ≠ "(") (hclose : b ≠ ")")

include hopen hclose

/-- Between two operands that are a pair of parentheses, `-o` comes to the wrong value or is a mistake. -/
theorem evaluate_behind_either : evaluate s ["=", b, Connective.either.word, c, "="] ≠ .ok (c == ")") := by
  have hm : NotCompared ["=", b, Connective.either.word, c, "="] := notCompared_of_length (by simp)
  have hloosest (k' : Connective) (hlt : k'.level < Connective.either.level) :
      cutAt? k'.word 0 [] ["=", b, Connective.either.word, c, "="] = none := absurd hlt (Nat.not_lt_zero _)
  have hcut := cutAt?_behind .either .either b c [] (by simp)
  by_cases hb : b = Connective.either.word
  · rw [if_pos hb] at hcut
    rw [evaluate_of_cut hm hloosest hcut, evaluate_singleton]
    by_cases hc : c = ")"
    · -- The condition should hold, but what is behind the operand is a mistake.
      subst hc
      have huncut : Uncut [Connective.either.word, ")", "="] :=
        { notCompared := by rintro first op last he; cases he; rfl
          whole := fun k' => by cases k' <;> rfl }
      have hmistake : IsMistake (evaluate s [Connective.either.word, ")", "="]) := ⟨_, huncut.evaluate_eq⟩
      exact (hmistake.join_right _).ne_ok _
    · rw [beq_eq_false_iff_ne.mpr hc]
      exact join_ne_false_left _
  · rw [if_neg hb, if_pos (turn_eq_zero_of_ne hopen hclose), if_pos rfl] at hcut
    rw [evaluate_of_cut hm hloosest hcut]
    exact ((isMistake_same b).join_left _).ne_ok _

/-- `-a` comes to the right value there only if the second operand is taken for it, and what is behind that operand does
not hold. -/
theorem evaluate_behind_both_iff : evaluate s ["=", b, Connective.both.word, c, "="] = .ok false ↔
    b = "-a" ∧ (c = "=" ∨ c = "==" ∨ c = ">") := by
  have hm : NotCompared ["=", b, Connective.both.word, c, "="] := notCompared_of_length (by simp)
  have hloosest (k' : Connective) (hlt : k'.level < Connective.either.level) :
      cutAt? k'.word 0 [] ["=", b, Connective.both.word, c, "="] = none := absurd hlt (Nat.not_lt_zero _)
  -- The second word is no parenthesis, so the depth behind it is still 0.
  have hturn : turn b = 0 := turn_eq_zero_of_ne hopen hclose
  have hcut (k' : Connective) := cutAt?_behind .both k' b c [] (by simp)
  have heither := hcut .either
  by_cases hb : b = Connective.either.word
  · rw [if_pos hb] at heither
    rw [evaluate_of_cut hm hloosest heither, evaluate_singleton]
    refine iff_of_false (join_ne_false_left _) fun h => ?_
    rw [hb] at h
    exact absurd h.1 (by decide)
  rw [if_neg hb, if_pos hturn, if_neg (by decide)] at heither
  by_cases hc : c = Connective.either.word
  · rw [if_pos hc] at heither
    rw [evaluate_of_cut hm hloosest heither, evaluate_singleton "="]
    refine iff_of_false (join_ne_false_right _) fun h => ?_
    rw [hc] at h
    exact absurd h.2 (by decide)
  rw [if_neg hc] at heither
  have hlooser (k' : Connective) (hlt : k'.level < Connective.both.level) :
      cutAt? k'.word 0 [] ["=", b, Connective.both.word, c, "="] = none := by
    rw [(looser_cases k' hlt).1]
    exact heither
  have hboth := hcut .both
  by_cases hb : b = Connective.both.word
  · rw [if_pos hb] at hboth
    rw [evaluate_of_cut hm hlooser hboth, evaluate_singleton, ← evaluate_triple_eq_false_iff .both c]
    cases evaluate s [Connective.both.word, c, "="] with
    | error mistake => exact iff_of_false nofun fun h => nomatch h.2
    | ok v => exact (and_iff_right hb).symm
  · rw [if_neg hb, if_pos hturn, if_pos rfl] at hboth
    rw [evaluate_of_cut hm hlooser hboth]
    exact iff_of_false (((isMistake_same b).join_left _).ne_ok _) fun h => hb h.1

end

/-- What stands between two operands that are a pair of parentheses comes to the value of the condition only by
coincidence. -/
theorem evaluate_behind_iff (hclose : b ≠ ")") :
    evaluate s ["=", b, k.word, c, "="] = .ok (k.apply ("(" == b) (c == ")")) ↔
      k = .both ∧ b = "-a" ∧ (c = "=" ∨ c = "==" ∨ c = ">") := by
  by_cases hopen : b = "("
  · subst hopen
    have hmistake : IsMistake (evaluate s ["=", "(", k.word, c, "="]) := isMistake_behind (by decide) [] (by simp)
    exact iff_of_false (hmistake.ne_ok _) fun h => absurd h.2.1 (by decide)
  · rw [beq_eq_false_iff_ne.mpr (Ne.symm hopen)]
    cases k with
    | either => exact iff_of_false (evaluate_behind_either hopen hclose) nofun
    | both => exact (evaluate_behind_both_iff hopen hclose).trans (and_iff_right rfl).symm

/-! ## 5. All operands -/

/-- **The value of two comparisons** is that of their operands where these leave the structure as it is, and where four
of them coincide. -/
theorem evaluate_pairs_iff : evaluate s (pairs k a b c d) = .ok (k.apply (a == b) (c == d)) ↔
    Undisturbed k a b c ∨ Coincides k a b c d := by
  by_cases hlevel : turn a + turn b = 0
  · have hno : ¬ Coincides k a b c d := by
      rintro ⟨-, rfl, rfl, -, -⟩
      exact absurd hlevel (by decide)
    rw [or_iff_left hno]
    constructor
    · intro h
      exact Classical.byContradiction fun hdisturbed => (isMistake_of_level hlevel hdisturbed).ne_ok _ h
    · intro h
      exact h.evaluate_pairs d
  · rw [or_iff_right fun h => hlevel h.level]
    by_cases hgroup : a = "(" ∧ d = ")"
    · obtain ⟨rfl, rfl⟩ := hgroup
      have hclose : b ≠ ")" := by
        rintro rfl
        exact hlevel rfl
      have huncut : Uncut ("(" :: (["=", b, k.word, c, "="] ++ [")"])) := uncut_pairs hlevel
      have hinside : evaluate s (pairs k "(" b c ")") = evaluate s ["=", b, k.word, c, "="] := huncut.evaluate_group
      rw [hinside, evaluate_behind_iff hclose]
      simp [Coincides]
    · exact iff_of_false ((isMistake_of_open hlevel hgroup).ne_ok _) fun h => hgroup ⟨h.2.1, h.2.2.2.2⟩

/-- **Which operands can change the structure of a test.** The status of `A = B -a C = D` and of `A = B -o C = D` is
that of the two comparisons exactly if as many parentheses are closed as opened among A and B, B is no connective
that binds as loosely as the one in the middle, and C none that binds more loosely, and for three conditions by
coincidence. -/
theorem operands_kept_iff (k : Connective) (a b c d : String) (run : Runner) (ctx : Context) (s : State) :
    ∃ answer : Answer,
      Builtin.run run .test [a, "=", b, k.word, c, "=", d] ctx s = answer.give ctx s ∧
        (answer.status = (if k.apply (a == b) (c == d) then 0 else 1) ↔
          Undisturbed k a b c ∨ Coincides k a b c d) := by
  refine ⟨_, run_test run _ ctx s, ?_⟩
  have hvalue := evaluate_pairs_iff (s := ⟨s.env, ctx.files⟩) (k := k) (a := a) (b := b) (c := c) (d := d)
  exact (status_answer_eq_iff (List.cons_ne_nil _ _) _).trans hvalue

/-- The tree of `test '(' = '(' -a x = x`. -/
def openedTwice : Sequence :=
  ⟨[⟨⟨false, .simple 1 (some ⟨1, [.literal "test"]⟩)
    [⟨1, [.singleQuoted "("]⟩, ⟨1, [.literal "="]⟩, ⟨1, [.singleQuoted "("]⟩, ⟨1, [.literal "-a"]⟩,
      ⟨1, [.literal "x"]⟩, ⟨1, [.literal "="]⟩, ⟨1, [.literal "x"]⟩] [], []⟩, []⟩]⟩

/-- Two parentheses are the same text, but the connective behind them seems to stand inside. -/
theorem openedTwice_mistaken :
    Connective.both.apply ("(" == "(") ("x" == "x") = true ∧
      (({} : Session).runScript openedTwice (.ofText "")).env.status = 2 := by
  decide +kernel

end Shell.Test
