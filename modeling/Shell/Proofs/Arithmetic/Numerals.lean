/-
Numbers that are written and read again.

A variable holds its value as a decimal numeral, so each value that is stored goes through its text. The text of
a word is a numeral, with a minus sign in front if the word is negative; the numeral has no zero in front of other
digits, which would make it octal. So it is read as the number that was written (`readConstant_toDigits`), and
a variable has the value that it was given (`resolve_of_stored`). The least word of all is no exception: its
numeral is too large by one, wraps, and is its own negative.
-/
import Mathlib.Data.Nat.Digits.Defs
import Mathlib.Tactic.IntervalCases
import Shell.Arithmetic.Evaluation

set_option autoImplicit false

namespace Shell.Arithmetic

open Shell.Text

/-! ## 1. Decimal digits -/

theorem isAsciiDigit_of_mem {n : Nat} {c : Char} (h : c ∈ Nat.toDigits 10 n) :
    isAsciiDigit c = true := by
  have hdigit := Nat.isDigit_of_mem_toDigits (by decide) (by decide) h
  simpa [Char.isDigit, isAsciiDigit, Char.le_def] using hdigit

/-- What holds of ten characters holds of every ASCII digit. -/
theorem forall_isAsciiDigit {p : Char → Prop} [DecidablePred p]
    (hp : ['0', '1', '2', '3', '4', '5', '6', '7', '8', '9'].all (fun c => decide (p c)) = true) {c : Char}
    (h : isAsciiDigit c = true) : p c := by
  refine of_decide_eq_true (List.all_eq_true.mp hp c ?_)
  rw [isAsciiDigit, between_iff] at h
  obtain ⟨hlow, hhigh⟩ := h
  rw [← Char.ofNat_toNat c]
  generalize c.toNat = n at hlow hhigh
  simp only [Char.reduceToNat] at hlow hhigh
  interval_cases n <;> decide

theorem digitValue?_of_isAsciiDigit {c : Char} (h : isAsciiDigit c = true) :
    digitValue? 10 c = some (c.toNat - '0'.toNat) :=
  forall_isAsciiDigit (p := fun c => digitValue? 10 c = some (c.toNat - '0'.toNat)) (by decide) h

/-- Only the numeral of zero starts with a zero. -/
theorem toDigits_eq_zero_cons {n : Nat} {ds : List Char} (h : Nat.toDigits 10 n = '0' :: ds) :
    ds = [] := by
  induction n using Nat.strongRecOn generalizing ds with
  | _ n ih =>
    by_cases hn : n < 10
    · rw [Nat.toDigits_of_lt_base hn] at h
      exact (List.cons.inj h).2.symm
    · have hn : 10 ≤ n := Nat.le_of_not_lt hn
      rw [Nat.toDigits_of_base_le (by decide) hn] at h
      obtain ⟨c, cs, hcs⟩ := List.exists_cons_of_ne_nil (Nat.toDigits_ne_nil (b := 10) (n := n / 10))
      rw [hcs] at h
      obtain ⟨rfl, -⟩ := List.cons.inj h
      obtain rfl := ih (n / 10) (by omega) hcs
      -- The digits before the last one are those of zero, so there are none.
      have hzero : n / 10 = 0 := by
        rw [← Nat.ofDigitChars_ten_toDigits (n := n / 10), hcs]
        rfl
      omega

/-! ## 2. Numerals -/

theorem takeDigits_of_isAsciiDigit {cs : List Char} (h : ∀ c ∈ cs, isAsciiDigit c = true) (gap : Bool)
    (digits : List Nat) (hcs : gap = true → cs ≠ []) :
    takeDigits 10 gap cs digits =
      some (digits.reverse ++ cs.map fun c => c.toNat - '0'.toNat, []) := by
  induction cs generalizing gap digits with
  | nil =>
    have hgap : gap = false := Bool.eq_false_iff.mpr fun hgap => hcs hgap rfl
    simp [takeDigits, hgap]
  | cons c cs ih =>
    obtain ⟨hc, hcs⟩ := List.forall_mem_cons.mp h
    have hne : c ≠ '_' := by
      rintro rfl
      exact absurd hc (by decide)
    unfold takeDigits
    rw [if_neg hne, digitValue?_of_isAsciiDigit hc]
    simp only
    rw [ih hcs false _ nofun]
    simp

theorem isMargin_of_isAsciiDigit {c : Char} (h : isAsciiDigit c = true) : isMargin c = false :=
  forall_isAsciiDigit (p := fun c => isMargin c = false) (by decide) h

theorem takeSign_of_isAsciiDigit {c : Char} (h : isAsciiDigit c = true) (cs : List Char) :
    takeSign (c :: cs) = (false, c :: cs) := by
  unfold takeSign
  split
  · next heq => rw [(List.cons.inj heq).1] at h; exact absurd h (by decide)
  · next heq => rw [(List.cons.inj heq).1] at h; exact absurd h (by decide)
  · rfl

/-- A text of few digits is read as the number that they make up. -/
theorem readInteger_of_digits {cs : List Char} (h : ∀ c ∈ cs, isAsciiDigit c = true) (hne : cs ≠ [])
    (hlength : cs.length ≤ maxDigits) :
    readInteger 10 cs = .ok (Nat.ofDigitChars 10 cs 0 : Int) := by
  obtain ⟨c, cs, rfl⟩ := List.exists_cons_of_ne_nil hne
  have hc := h c List.mem_cons_self
  have hsign := takeSign_of_isAsciiDigit hc cs
  have hintroduction : dropIntroduction 10 (c :: cs) = c :: cs := by
    unfold dropIntroduction
    split <;> simp_all
  have hdigits := takeDigits_of_isAsciiDigit h true [] fun _ => hne
  have hfew : ¬ maxDigits < ((c :: cs).map fun c => c.toNat - '0'.toNat).length := by
    rw [List.length_map]
    exact Nat.not_lt_of_le hlength
  unfold readInteger
  rw [List.dropWhile_cons_of_neg (by simp [isMargin_of_isAsciiDigit hc]), hsign]
  simp only [hintroduction, hdigits, List.reverse_nil, List.nil_append]
  rw [if_neg (by simp only [Bool.and_eq_true, decide_eq_true_eq]; exact fun h => hfew h.2)]
  have hvalue : ofDigits 10 ((c :: cs).map fun c => c.toNat - '0'.toNat) =
      Nat.ofDigitChars 10 (c :: cs) 0 := by
    rw [ofDigits_eq, Nat.ofDigitChars_eq_foldl, List.foldl_map]
    simp only [Nat.mul_comm 10]
  rw [hvalue]
  rfl

/-- **A decimal numeral is read as its number.** -/
theorem readConstant_toDigits {n : Nat} (h : n < 10 ^ maxDigits) :
    readConstant (Nat.toDigits 10 n) = .ok (Int64.ofNat n) := by
  have hdigits : ∀ c ∈ Nat.toDigits 10 n, isAsciiDigit c = true := fun c hc => isAsciiDigit_of_mem hc
  have hbase : (Nat.toDigits 10 n).contains '#' = false := by
    rw [List.contains_eq_mem, decide_eq_false_iff_not]
    exact fun hmem => absurd (hdigits _ hmem) (by decide)
  have hplain : readPlainConstant (Nat.toDigits 10 n) = readInteger 10 (Nat.toDigits 10 n) := by
    unfold readPlainConstant
    split
    · next heq => exact absurd (toDigits_eq_zero_cons heq) (List.cons_ne_nil _ _)
    · next heq => exact absurd (toDigits_eq_zero_cons heq) (List.cons_ne_nil _ _)
    · next heq => exact absurd (toDigits_eq_zero_cons heq) (List.cons_ne_nil _ _)
    · rfl
  have hlength : (Nat.toDigits 10 n).length ≤ maxDigits :=
    Nat.toDigits_length 10 n maxDigits (by decide) h
  unfold readConstant
  rw [hbase, hplain, readInteger_of_digits hdigits Nat.toDigits_ne_nil hlength,
    Nat.ofDigitChars_ten_toDigits]
  simp only [Bool.false_eq_true, if_false]
  rfl

theorem isConstant_toDigits (n : Nat) : isConstant (Nat.toDigits 10 n) = true := by
  have hdigits : ∀ c ∈ Nat.toDigits 10 n, isAsciiDigit c = true := fun c hc => isAsciiDigit_of_mem hc
  obtain ⟨c, cs, hcs⟩ := List.exists_cons_of_ne_nil (Nat.toDigits_ne_nil (b := 10) (n := n))
  rw [hcs] at hdigits ⊢
  obtain ⟨hc, hcs⟩ := List.forall_mem_cons.mp hdigits
  have hall : cs.all isConstantRest = true :=
    List.all_eq_true.mpr fun d hd => by simp [isConstantRest, hcs d hd]
  simp [isConstant, hc, hall]

/-! ## 3. Words -/

/-- The text of a number: its numeral, after a minus sign if it is negative. -/
theorem toList_toString (n : Int) :
    (toString n).toList = (if n < 0 then ['-'] else []) ++ Nat.toDigits 10 n.natAbs := by
  cases n with
  | ofNat n =>
    have hpos : ¬ Int.ofNat n < 0 := Int.not_lt.mpr (Int.natCast_nonneg n)
    rw [if_neg hpos]
    show (toString n).toList = _
    rw [Nat.toString_eq_ofList_toDigits, String.toList_ofList]
    rfl
  | negSucc n =>
    rw [if_pos (Int.negSucc_lt_zero n)]
    show ("-" ++ toString (n + 1)).toList = _
    rw [String.toList_append, Nat.toString_eq_ofList_toDigits, String.toList_ofList]
    simp [Int.natAbs_negSucc]

theorem trim_of_not_isBlank {text : List Char} (h : ∀ c ∈ text, isBlank c = false) :
    trim text = text := by
  have hdrop {cs : List Char} (hcs : ∀ c ∈ cs, isBlank c = false) : cs.dropWhile isBlank = cs := by
    cases cs with
    | nil => rfl
    | cons c cs => rw [List.dropWhile_cons_of_neg (by simp [hcs c List.mem_cons_self])]
  unfold trim trimBy trimEnd
  rw [hdrop h, hdrop (fun c hc => h c (List.mem_reverse.mp hc)), List.reverse_reverse]

theorem isBlank_of_isAsciiDigit {c : Char} (h : isAsciiDigit c = true) : isBlank c = false :=
  forall_isAsciiDigit (p := fun c => isBlank c = false) (by decide) h

variable {σ : Type} {store : Store σ}

/-- **A variable has the value that it was given.** It makes no difference how deep in the values of
variables it is looked up. -/
theorem resolve_of_stored {s : σ} {name : String} {word : Int64}
    (h : store.lookup s name = some (toString word.toInt)) (depth : Nat) :
    (resolve store depth name).run s = (.ok word, s) := by
  have hdigits : ∀ c ∈ Nat.toDigits 10 word.toInt.natAbs, isAsciiDigit c = true :=
    fun c hc => isAsciiDigit_of_mem hc
  have hsign : ∀ c ∈ Nat.toDigits 10 word.toInt.natAbs, (c == '+' || c == '-') = false := by
    intro c hc
    rw [Bool.or_eq_false_iff, beq_eq_false_iff_ne, beq_eq_false_iff_ne]
    constructor <;> rintro rfl <;> exact absurd (hdigits _ hc) (by decide)
  obtain ⟨d, ds, hds⟩ :=
    List.exists_cons_of_ne_nil (Nat.toDigits_ne_nil (b := 10) (n := word.toInt.natAbs))
  have htrim : trim (toString word.toInt).toList = (toString word.toInt).toList := by
    refine trim_of_not_isBlank fun c hc => ?_
    rw [toList_toString, List.mem_append] at hc
    rcases hc with hc | hc
    · split at hc
      · rw [List.mem_singleton.mp hc]
        decide
      · cases hc
    · exact isBlank_of_isAsciiDigit (hdigits c hc)
  have hbody : (toString word.toInt).toList.dropWhile (fun c => c == '+' || c == '-') =
      Nat.toDigits 10 word.toInt.natAbs := by
    have hd := hsign d (hds ▸ List.mem_cons_self)
    rw [toList_toString, hds]
    split <;> simp [hd]
  -- A word has 19 digits at most, so none of its numerals is too long to be read.
  have hsize : word.toInt.natAbs < 10 ^ maxDigits := by
    have hlow := word.le_toInt
    have hhigh := word.toInt_lt
    have hpow : 10 ^ 19 ≤ 10 ^ maxDigits := Nat.pow_le_pow_right (by decide) (by decide)
    omega
  have hread := readConstant_toDigits hsize
  -- The sign is in front exactly if the word is negative, since no digit is a sign.
  have hhead : (toString word.toInt).toList.head? = some '-' ↔ word.toInt < 0 := by
    have hne : d ≠ '-' := by
      rintro rfl
      exact absurd (hdigits '-' (hds ▸ List.mem_cons_self)) (by decide)
    rw [toList_toString, hds]
    split <;> simp_all
  -- Negating the absolute value gives back the least word too, which has no positive counterpart.
  have hvalue : (if (toString word.toInt).toList.head? = some '-'
      then -Int64.ofNat word.toInt.natAbs else Int64.ofNat word.toInt.natAbs) = word := by
    rw [← Int64.ofInt_eq_ofNat, ← Int64.ofInt_neg]
    split
    · next hminus =>
      rw [hhead] at hminus
      rw [show -(word.toInt.natAbs : Int) = word.toInt by omega, Int64.ofInt_toInt]
    · next hplus =>
      rw [hhead] at hplus
      rw [show (word.toInt.natAbs : Int) = word.toInt by omega, Int64.ofInt_toInt]
  have hne : (toString word.toInt).toList.isEmpty = false := by
    rw [toList_toString, hds]
    split <;> rfl
  unfold resolve
  show (ExceptT.run (if (trim ((store.lookup s name).getD "").toList).isEmpty = true then _ else _) : StateM σ _) s = _
  rw [h]
  simp only [Option.getD_some, htrim, hne, hbody, isConstant_toDigits, hread]
  simp only [Bool.false_eq_true, if_false, if_true]
  show (Except.ok (if _ then _ else _), s) = _
  rw [hvalue]

end Shell.Arithmetic
