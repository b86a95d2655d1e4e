/-
Cutting an expression into tokens.

The tokens of a rest of an expression come behind those before it and do not depend on them
(`tokensFrom_eq_map`), so a text is cut one token at a time: one equation for each kind of token, with any text
behind it. Where a token ends depends on the characters behind it, which are a hypothesis of these equations.
-/
import Shell.Proofs.Arithmetic.Numerals
import Shell.Proofs.Token.Scans

set_option autoImplicit false

namespace Shell.Arithmetic

open Shell.Text

/-! ## 1. Characters -/

theorem isAsciiDigit_of_isStart {c : Char} (h : Name.isStart c = true) : isAsciiDigit c = false := by
  refine eq_false_of_ne_true fun hdigit => ?_
  simp only [Name.isStart, isAsciiLetter, isAsciiDigit, Bool.or_eq_true, between_iff, Char.reduceToNat,
    beq_iff_eq] at h hdigit
  rcases h with (h | h) | rfl
  · omega
  · omega
  · exact absurd hdigit (by decide)

theorem isBlank_of_isStart {c : Char} (h : Name.isStart c = true) : isBlank c = false := by
  simp only [Name.isStart, isAsciiLetter, Bool.or_eq_true, between_iff, Char.reduceToNat, beq_iff_eq] at h
  rcases h with (h | h) | rfl
  · simp [isBlank]
    omega
  · simp [isBlank]
    omega
  · decide

/-! ## 2. One token after another -/

/-- The tokens of the rest of an expression come behind those that are there. -/
theorem tokensFrom_eq_map (text : List Char) (done : List Token) (cs : List Char) :
    tokensFrom text done cs = (tokensFrom text [] cs).map (done.reverse ++ ·) := by
  induction hn : cs.length using Nat.strong_induction_on generalizing done cs with
  | _ n ih =>
    subst hn
    cases cs with
    | nil => simp [tokensFrom, Except.map]
    | cons c cs =>
      -- What is left is shorter, so it is the same behind `done` and behind nothing.
      have hstep : ∀ (t : Token) (k : Nat), tokensFrom text (t :: done) (cs.drop k) =
          (tokensFrom text [t] (cs.drop k)).map (done.reverse ++ ·) := by
        intro t k
        have hk : (cs.drop k).length < (c :: cs).length := by
          rw [List.length_drop, List.length_cons]
          omega
        rw [ih _ hk (t :: done) (cs.drop k) rfl, ih _ hk [t] (cs.drop k) rfl]
        cases tokensFrom text [] (cs.drop k) <;> simp [Except.map]
      rw [tokensFrom, tokensFrom]
      split
      · exact ih _ (by simp) done cs rfl
      · split
        · exact hstep _ _
        · split
          · exact hstep _ _
          · split
            · rfl
            · split
              · exact hstep _ _
              · rfl

/-- A token in front of the rest of an expression. -/
theorem tokensFrom_singleton (text : List Char) (t : Token) (cs : List Char) :
    tokensFrom text [t] cs = (tokensFrom text [] cs).map (t :: ·) :=
  tokensFrom_eq_map text [t] cs

theorem tokensFrom_nil (text : List Char) : tokensFrom text [] [] = .ok [] := by
  rw [tokensFrom]
  rfl

theorem tokensFrom_blank {c : Char} (hc : isBlank c = true) (text cs : List Char) :
    tokensFrom text [] (c :: cs) = tokensFrom text [] cs := by
  rw [tokensFrom, if_pos hc]

/-- A constant is as long as its extent. -/
theorem tokensFrom_numeral {c : Char} (hc : isAsciiDigit c = true) {cs : List Char} {front rest : List Char}
    (hcs : cs = front ++ rest) (hextent : constantExtent c cs = front.length) (text : List Char) :
    tokensFrom text [] (c :: cs) = (tokensFrom text [] rest).map (.numeral (c :: front) :: ·) := by
  have htake : cs.take (constantExtent c cs) = front := by rw [hextent, hcs, List.take_left]
  have hdrop : cs.drop (constantExtent c cs) = rest := by rw [hextent, hcs, List.drop_left]
  rw [tokensFrom, if_neg (by simp [isBlank_of_isAsciiDigit hc]), if_pos hc]
  dsimp only
  rw [htake, hdrop]
  exact tokensFrom_singleton text _ _

theorem tokensFrom_name {c : Char} (hc : Name.isStart c = true) {front rest : List Char}
    (hfront : ∀ d ∈ front, Name.isRest d = true) (hrest : ∀ d ∈ rest.head?, Name.isRest d = false)
    (text : List Char) :
    tokensFrom text [] (c :: front ++ rest) = (tokensFrom text [] rest).map (.name (c :: front) :: ·) := by
  have hrun : (front ++ rest).takeWhile Name.isRest = front := takeWhile_append_of_head? hfront hrest
  rw [List.cons_append, tokensFrom, if_neg (by simp [isBlank_of_isStart hc]),
    if_neg (by simp [isAsciiDigit_of_isStart hc]), if_pos hc]
  dsimp only
  rw [hrun, List.take_left, List.drop_left]
  exact tokensFrom_singleton text _ _

/-- The characters that no symbol starts with. -/
def startsOther (c : Char) : Bool := isBlank c || isAsciiDigit c || Name.isStart c || isDigit c || isLetter c

/-- A symbol starts with a character that nothing else starts with. -/
theorem Symbol.exists_text {s : Symbol} (h : s ∈ Symbol.all) :
    ∃ c cs, s.text.toList = c :: cs ∧ startsOther c = false := by
  have hall : Symbol.all.all (fun s => (s.text.toList.head?.map startsOther) == some false) = true := by
    decide +kernel
  have hs := List.all_eq_true.mp hall s h
  cases ht : s.text.toList with
  | nil => simp [ht] at hs
  | cons c cs => exact ⟨c, cs, rfl, by simpa [ht] using hs⟩

/-- A symbol, if no other one is found first. -/
theorem tokensFrom_symbol {s : Symbol} {rest : List Char} (h : symbolAt? (s.text.toList ++ rest) = some s)
    (text : List Char) :
    tokensFrom text [] (s.text.toList ++ rest) = (tokensFrom text [] rest).map (.symbol s :: ·) := by
  obtain ⟨c, cs, hcs, hc⟩ := Symbol.exists_text (List.mem_of_find?_eq_some h)
  have hlength : s.text.length - 1 = cs.length := by
    rw [← String.length_toList, hcs]
    rfl
  rw [hcs, List.cons_append] at h ⊢
  simp only [startsOther, Bool.or_eq_false_iff] at hc
  rw [← tokensFrom_singleton, tokensFrom]
  simp [hc, h, hlength]

end Shell.Arithmetic
