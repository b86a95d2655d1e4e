/-
The numbers of `printf` and the numbers of arithmetic.

An argument of `printf` and an arithmetic expression may be the same text: a numeral behind a sign. One
is matched as a whole and read as an integer of any size. The other one is cut into tokens, read in
another way, and wrapped to a word. They come to the same number as far as a word can tell
(`Signed.run_whole`, `Signed.run_evaluate`).

In the other direction, what `printf` writes of a word in base 16 or 8 is the numeral of the word
modulo `2 ^ 64`, which wraps to the word again where it is read as a constant (`numbers_agree`).
-/
import Mathlib.Data.Int.ModEq
import Shell.Proofs.Arithmetic.Constants
import Shell.Proofs.Printf.Widths

set_option autoImplicit false

namespace Shell.Arithmetic

open Shell.Text

/-! ## 1. Numerals -/

/-- A numeral without a sign, and its number. A zero introduces hexadecimal digits, behind an `x`, or
octal digits, and may be alone. -/
inductive Numeral : List Char → Nat → Prop where
  | hexadecimal {x : Char} {digits : List Char} (hx : x = 'x' ∨ x = 'X') (h : AreDigits 16 digits) :
    Numeral ('0' :: x :: digits) (positional 16 (digits.filterMap (digitIn? 16)))
  | octal {digits : List Char} (h : ∀ c ∈ digits, (digitIn? 8 c).isSome = true) :
    Numeral ('0' :: digits) (positional 8 (digits.filterMap (digitIn? 8)))
  | decimal {digits : List Char} (h : AreDigits 10 digits) (hhead : digits.head? ≠ some '0')
      (hfew : digits.length ≤ maxDigits) :
    Numeral digits (positional 10 (digits.filterMap (digitIn? 10)))

/-- A numeral behind one sign or none, and its number. -/
inductive Signed : List Char → Int → Prop where
  | bare {body : List Char} {n : Nat} (h : Numeral body n) : Signed body n
  | plus {body : List Char} {n : Nat} (h : Numeral body n) : Signed ('+' :: body) n
  | minus {body : List Char} {n : Nat} (h : Numeral body n) : Signed ('-' :: body) (-n)

/-! ### Digits -/

theorem filter_some (base value : Nat) :
    (some value).filter (· < base) = if value < base then some value else none := by
  simp [Option.filter]

/-- Up to base 16, digits are the hexadecimal digits with a value below the base. -/
theorem digitIn?_eq_filter {base : Nat} (hbase : base ≤ 16) (c : Char) :
    digitIn? base c = (hexValue? c).filter (· < base) := by
  unfold digitIn? hexValue? isAsciiDigit
  simp only [between_iff, Char.reduceToNat, if_pos (show base ≤ 36 by omega)]
  split_ifs <;> first | with_reducible rfl | omega | exact (filter_some base _).trans (if_neg (by omega))

theorem hexValue?_eq (c : Char) : hexValue? c = digitIn? 16 c := by
  rw [digitIn?_eq_filter Nat.le.refl]
  unfold hexValue?
  simp only [between_iff, Char.reduceToNat]
  split_ifs <;> first | rfl | exact ((filter_some 16 _).trans (if_pos (by omega))).symm

theorem octalValue?_eq (c : Char) : octalValue? c = digitIn? 8 c := by
  rw [digitIn?_eq_filter (by decide)]
  unfold octalValue? hexValue?
  simp only [between_iff, Char.reduceToNat]
  split_ifs
  case pos => exact ((filter_some 8 _).trans (if_pos (by omega))).symm
  all_goals first | rfl | omega | exact ((filter_some 8 _).trans (if_neg (by omega))).symm

theorem isAsciiDigit_of_digitIn? {c : Char} (h : (digitIn? 10 c).isSome = true) : isAsciiDigit c = true := by
  rw [digitIn?_eq_filter (by decide)] at h
  unfold hexValue? at h
  unfold isAsciiDigit
  by_contra hdigit
  rw [if_neg hdigit] at h
  simp only [between_iff, Char.reduceToNat] at h
  split_ifs at h <;> simp [filter_some] at h

theorem decimalValue?_eq {c : Char} (h : isAsciiDigit c = true) : decimalValue? c = digitIn? 10 c :=
  forall_isAsciiDigit (p := fun c => decimalValue? c = digitIn? 10 c) (by decide) h

theorem isSome_hexValue? {base : Nat} (hbase : base ≤ 16) {c : Char} (h : (digitIn? base c).isSome = true) :
    (hexValue? c).isSome = true := by
  rw [digitIn?_eq_filter hbase] at h
  exact Option.isSome_of_isSome_filter _ _ h

theorem isConstantRest_of_hex {c : Char} (h : (hexValue? c).isSome = true) : isConstantRest c = true := by
  unfold hexValue? at h
  unfold isConstantRest isAsciiDigit isAsciiLetter
  simp only [between_iff, Char.reduceToNat, Bool.or_eq_true] at h ⊢
  split_ifs at h
  · exact .inl (.inl ‹_›)
  · exact .inl (.inr (.inl (by omega)))
  · exact .inl (.inr (.inr (by omega)))
  · cases h

theorem isConstantRest_of_digitIn? {base : Nat} (hbase : base ≤ 16) {c : Char}
    (h : (digitIn? base c).isSome = true) : isConstantRest c = true :=
  isConstantRest_of_hex (isSome_hexValue? hbase h)

/-- The characters of a numeral: a digit, and hexadecimal digits behind it, where the first one may be an `x`. -/
theorem Numeral.exists_cons {body : List Char} {n : Nat} (h : Numeral body n) :
    ∃ c cs, body = c :: cs ∧ isAsciiDigit c = true ∧ (∀ d ∈ cs, isConstantRest d = true) ∧
      ∀ d ∈ cs.tail, (hexValue? d).isSome = true := by
  cases h with
  | @hexadecimal x digits hx h =>
    have hrest : isConstantRest x = true := by rcases hx with rfl | rfl <;> rfl
    refine ⟨'0', x :: digits, rfl, rfl, List.forall_mem_cons.mpr ⟨hrest, fun d hd => ?_⟩, fun d hd => ?_⟩
    · exact isConstantRest_of_digitIn? Nat.le.refl (h.2 d hd)
    · exact isSome_hexValue? Nat.le.refl (h.2 d hd)
  | @octal digits h =>
    refine ⟨'0', digits, rfl, rfl, fun d hd => ?_, fun d hd => ?_⟩
    · exact isConstantRest_of_digitIn? (by decide) (h d hd)
    · exact isSome_hexValue? (by decide) (h d (List.mem_of_mem_tail hd))
  | @decimal digits h hhead hfew =>
    obtain ⟨c, cs, rfl⟩ := List.exists_cons_of_ne_nil h.1
    obtain ⟨hc, hcs⟩ := List.forall_mem_cons.mp h.2
    refine ⟨c, cs, rfl, isAsciiDigit_of_digitIn? hc, fun d hd => ?_, fun d hd => ?_⟩
    · exact isConstantRest_of_digitIn? (by decide) (hcs d hd)
    · exact isSome_hexValue? (by decide) (hcs d (List.mem_of_mem_tail hd))

theorem Numeral.isConstantRest_of_mem {body : List Char} {n : Nat} (h : Numeral body n) :
    ∀ c ∈ body, isConstantRest c = true := by
  obtain ⟨c, cs, rfl, hc, hcs, -⟩ := h.exists_cons
  exact List.forall_mem_cons.mpr ⟨by simp [isConstantRest, hc], hcs⟩

/-! ## 2. In arithmetic -/

/-- A numeral is a constant. -/
theorem Numeral.isConstant {body : List Char} {n : Nat} (h : Numeral body n) : isConstant body = true := by
  obtain ⟨c, cs, rfl, hc, hcs, -⟩ := h.exists_cons
  simp only [Arithmetic.isConstant, hc, List.all_eq_true.mpr hcs, Bool.or_true, Bool.and_self]

/-- A numeral is one token. -/
theorem Numeral.tokens {body : List Char} {n : Nat} (h : Numeral body n) :
    tokens body = .ok [.numeral body] := by
  obtain ⟨c, cs, rfl, hc, hcs, hhex⟩ := h.exists_cons
  have hextent : constantExtent c cs = cs.length := by
    rcases constantExtent_plain c hcs with hall | ⟨x, after, rfl, hafter⟩
    · exact hall
    · have hrun : (after.takeWhile fun d => (hexValue? d).isSome) = after := List.takeWhile_eq_self_iff.mpr hhex
      rw [hafter, hrun, List.length_cons, Nat.add_comm]
  rw [Arithmetic.tokens, tokensFrom_numeral hc (List.append_nil cs).symm hextent, tokensFrom_nil]
  rfl

/-- The base and the digits of a numeral as a constant. -/
theorem Numeral.baseAndDigits {body : List Char} {n : Nat} (h : Numeral body n) :
    ∃ base digits, baseAndDigits body = (base, digits) ∧ (base = 16 ∨ base = 8 ∨ base = 10) ∧
      AreDigits base digits ∧ positional base (digits.filterMap (digitIn? base)) = n ∧
      (base = 10 → digits.length ≤ maxDigits) := by
  have hplain : '#' ∉ body := fun hmem => absurd (h.isConstantRest_of_mem _ hmem) (by decide)
  unfold Arithmetic.baseAndDigits
  rw [if_neg hplain]
  cases h with
  | @hexadecimal x digits hx h =>
    refine ⟨16, digits, ?_, .inl rfl, h, rfl, nofun⟩
    rcases hx with rfl | rfl <;> rfl
  | @octal digits h =>
    cases digits with
    | nil => exact ⟨10, ['0'], rfl, .inr (.inr rfl), by decide, by decide, fun _ => by decide⟩
    | cons c digits =>
      have hdigit := h c List.mem_cons_self
      -- An octal digit behind the zero is not the `x` of another base.
      have hlower : c ≠ 'x' := by
        rintro rfl
        exact absurd hdigit (by decide)
      have hupper : c ≠ 'X' := by
        rintro rfl
        exact absurd hdigit (by decide)
      exact ⟨8, c :: digits, by simp, .inr (.inl rfl), ⟨List.cons_ne_nil _ _, h⟩, rfl, nofun⟩
  | @decimal digits h hhead hfew =>
    obtain ⟨c, cs, rfl⟩ := List.exists_cons_of_ne_nil h.1
    have hzero : c ≠ '0' := by simpa using hhead
    exact ⟨10, c :: cs, by simp [hzero], .inr (.inr rfl), h, rfl, fun _ => hfew⟩

/-- A numeral is read as its number, wrapped to a word. -/
theorem Numeral.readConstant {body : List Char} {n : Nat} (h : Numeral body n) :
    readConstant body = .ok (Int64.ofInt n) := by
  obtain ⟨base, digits, hparts, hbase, hdigits, hn, hfew⟩ := h.baseAndDigits
  have hplain : '#' ∉ body := fun hmem => absurd (h.isConstantRest_of_mem _ hmem) (by decide)
  have hspecified : specified body = .ok (Whole.wrap n) := by
    unfold specified
    rw [hparts]
    dsimp only
    rw [if_neg (by omega), if_pos hdigits, hn]
  have hexactly : ReadsExactly body := by
    rw [readsExactly_iff_of_plain hplain h.isConstantRest_of_mem, Misread, if_neg hplain, hparts]
    rintro (⟨hten, -, hlt⟩ | ⟨hnot, -⟩)
    · exact absurd (hfew hten) (Nat.not_le_of_lt hlt)
    · exact hnot hdigits
  rw [ReadsExactly, hspecified] at hexactly
  cases hread : Arithmetic.readConstant body with
  | error failure =>
    rw [hread] at hexactly
    cases hexactly
  | ok word =>
    rw [hread] at hexactly
    have hword : word.toInt = Whole.wrap n := Except.ok.inj hexactly
    rw [Whole.wrap_eq] at hword
    rw [Int64.toInt_inj.mp hword]

section

variable {σ : Type} (store : Store σ) (s : σ)

/-- Signs that alternate and a numeral are the numeral, negated once for each minus sign. -/
theorem Numeral.run_evaluate {body : List Char} {n : Nat} (h : Numeral body n) (signs : List Char)
    (hsigns : ∀ c ∈ signs, isSign c = true) (halternate : signs.IsChain (· ≠ ·)) :
    (evaluate store (signs ++ body)).run s =
      (.ok (if Odd (signs.count '-') then -Int64.ofInt n else Int64.ofInt n), s) := by
  rw [evaluate, evaluateWith_run, parse_signed hsigns h.isConstant halternate h.tokens h.readConstant]
  simp only [eval_signedTree]
  rfl

/-- **A signed numeral evaluates to its number, wrapped to a word.** -/
theorem Signed.run_evaluate {text : List Char} {n : Int} (h : Signed text n) :
    (evaluate store text).run s = (.ok (Int64.ofInt n), s) := by
  cases h with
  | bare h =>
    have hrun := h.run_evaluate store s [] nofun .nil
    simpa using hrun
  | plus h =>
    have hrun := h.run_evaluate store s ['+'] (by simp [isSign]) (.singleton _)
    simpa using hrun
  | minus h =>
    have hrun := h.run_evaluate store s ['-'] (by simp [isSign]) (.singleton _)
    simpa using hrun

end

/-! ## 3. As an argument of `printf` -/

/-- A numeral behind its sign has the form of a whole number. -/
theorem Numeral.wholeNumber? {text body : List Char} {n : Nat} {negative : Bool} {value : Int}
    (h : Numeral body n) (hsign : takeSign text = (negative, body))
    (hvalue : (if negative then -n else n : Int) = value) : Printf.wholeNumber? text = some (.ok value) := by
  subst hvalue
  unfold Printf.wholeNumber?
  rw [hsign, show hexValue? = digitIn? 16 from funext hexValue?_eq,
    show octalValue? = digitIn? 8 from funext octalValue?_eq]
  simp only [ofDigits_eq_positional]
  -- The forms are told apart by how they begin: 0x, 0, or another digit.
  cases h with
  | @hexadecimal x digits hx h =>
    have hform : (x = 'x' ∨ x = 'X') ∧ !digits.isEmpty ∧ digits.all fun c => (digitIn? 16 c).isSome := by
      simpa using ⟨hx, h.1, h.2⟩
    exact if_pos hform
  | @octal digits h =>
    cases digits with
    | nil => cases negative <;> decide
    | cons c digits =>
      have hdigit := h c List.mem_cons_self
      have hplain : ¬ ((c = 'x' ∨ c = 'X') ∧ !digits.isEmpty ∧
          digits.all fun c => (digitIn? 16 c).isSome) := by
        rintro ⟨rfl | rfl, -⟩ <;> exact absurd hdigit (by decide)
      exact (if_neg hplain).trans (if_pos (List.all_eq_true.mpr h))
  | @decimal digits h hhead hfew =>
    obtain ⟨c, cs, rfl⟩ := List.exists_cons_of_ne_nil h.1
    have hzero : c ≠ '0' := by simpa using hhead
    have hascii : ∀ d ∈ c :: cs, isAsciiDigit d = true := fun d hd => isAsciiDigit_of_digitIn? (h.2 d hd)
    have hdigits : (c :: cs).filterMap decimalValue? = (c :: cs).filterMap (digitIn? 10) :=
      List.filterMap_congr fun d hd => decimalValue?_eq (hascii d hd)
    split
    · next heq => exact absurd (List.cons.inj heq).1 hzero
    · next heq => cases heq
    · rw [if_pos (List.all_eq_true.mpr hascii), if_neg (Nat.not_lt_of_le hfew), hdigits]

/-- A numeral behind its sign has nothing else around it. -/
theorem Signed.exists_parts {text : List Char} {n : Int} (h : Signed text n) :
    ∃ c cs, text = c :: cs ∧ Printf.Formatter.isCode text = false ∧ (∀ d ∈ text, isBlank d = false) ∧
      Printf.wholeNumber? text = some (.ok n) := by
  have hblank {body : List Char} {m : Nat} (h : Numeral body m) : ∀ d ∈ body, isBlank d = false :=
    fun d hd => isBlank_of_isConstantRest (h.isConstantRest_of_mem d hd)
  cases h with
  | plus h => exact ⟨'+', _, rfl, rfl, List.forall_mem_cons.mpr ⟨by decide, hblank h⟩, h.wholeNumber? rfl rfl⟩
  | minus h => exact ⟨'-', _, rfl, rfl, List.forall_mem_cons.mpr ⟨by decide, hblank h⟩, h.wholeNumber? rfl rfl⟩
  | bare h =>
    obtain ⟨c, cs, rfl, hc, -⟩ := h.exists_cons
    have hcode : Printf.Formatter.isCode (c :: cs) = false :=
      forall_isAsciiDigit (p := fun c => Printf.Formatter.isCode [c] = false) (by decide) hc
    exact ⟨c, cs, rfl, hcode, hblank h, h.wholeNumber? (takeSign_of_isAsciiDigit hc cs) rfl⟩

/-- **A signed numeral is read as its number**, and there is nothing to report. -/
theorem Signed.run_whole {text : List Char} {n : Int} (h : Signed text n) (s : Printf.Formatting) :
    (Printf.Formatter.whole text).run s = .ok (n, s) := by
  obtain ⟨c, cs, rfl, hcode, hblank, hwhole⟩ := h.exists_parts
  unfold Printf.Formatter.whole
  rw [trim_of_not_isBlank hblank]
  dsimp only
  rw [hcode, hwhole, if_neg (by simp), if_neg Bool.false_ne_true]
  rfl

/-! ## 4. What `printf` writes -/

theorem digitIn?_digitChar {base d : Nat} (hbase : base ≤ 16) (hd : d < base) :
    digitIn? base (Nat.digitChar d) = some d := by
  have hhex : hexValue? (Nat.digitChar d) = some d := by
    have hsixteen : d < 16 := by omega
    interval_cases d <;> rfl
  rw [digitIn?_eq_filter hbase, hhex, filter_some, if_pos hd]

theorem positional_append (base : Nat) (digits : List Nat) (d : Nat) :
    positional base (digits ++ [d]) = d + base * positional base digits := by
  rw [positional, List.reverse_append, List.reverse_singleton, List.singleton_append, Nat.ofDigits_cons, positional]

/-- The digits that are written for a number make it up. -/
theorem positional_toDigits {base : Nat} (hone : 1 < base) (hbase : base ≤ 16) (n : Nat) :
    AreDigits base (Nat.toDigits base n) ∧
      positional base ((Nat.toDigits base n).filterMap (digitIn? base)) = n := by
  -- All digits but the last one are those of the quotient.
  induction n using Nat.strongRecOn with
  | ind n ih =>
    by_cases hn : n < base
    · have hdigit := digitIn?_digitChar hbase hn
      rw [Nat.toDigits_of_lt_base hn]
      refine ⟨⟨List.cons_ne_nil _ _, by simp [hdigit]⟩, ?_⟩
      simp [hdigit, positional]
    · have hn : base ≤ n := Nat.le_of_not_lt hn
      have hdigit := digitIn?_digitChar hbase (Nat.mod_lt n (by omega : base > 0))
      obtain ⟨⟨-, hdigits⟩, hvalue⟩ := ih (n / base) (Nat.div_lt_self (by omega) hone)
      rw [Nat.toDigits_of_base_le hone hn]
      refine ⟨⟨by simp, fun c hc => ?_⟩, ?_⟩
      · rcases List.mem_append.mp hc with hc | hc
        · exact hdigits c hc
        · rw [List.mem_singleton.mp hc, hdigit]
          rfl
      · rw [List.filterMap_append, List.filterMap_cons_some hdigit, List.filterMap_nil, positional_append, hvalue]
        exact Nat.mod_add_div n base

/-- A decimal numeral with a zero at its start is the one of zero. -/
theorem numeral_toDigits {n : Nat} (h : n < 10 ^ maxDigits) : Numeral (Nat.toDigits 10 n) n := by
  obtain ⟨hdigits, hvalue⟩ := positional_toDigits (by decide : 1 < 10) (by decide) n
  by_cases hzero : n = 0
  · subst hzero
    exact @Numeral.octal [] nofun
  · have hhead : (Nat.toDigits 10 n).head? ≠ some '0' := by
      intro hhead
      -- Then the zero is the only digit.
      obtain ⟨ds, hds⟩ : ∃ ds, Nat.toDigits 10 n = '0' :: ds := by
        cases hcs : Nat.toDigits 10 n with
        | nil => exact absurd hcs Nat.toDigits_ne_nil
        | cons c cs =>
          rw [hcs] at hhead
          exact ⟨cs, by rw [Option.some.inj hhead]⟩
      rw [hds, toDigits_eq_zero_cons hds] at hvalue
      exact hzero hvalue.symm
    have hnumeral := Numeral.decimal hdigits hhead (Nat.toDigits_length 10 n maxDigits (by decide) h)
    rwa [hvalue] at hnumeral

/-- The text of a word is its numeral behind its sign. -/
theorem signed_toString (n : Int64) : Signed (toString n.toInt).toList n.toInt := by
  have hlow := n.le_toInt
  have hhigh := n.toInt_lt
  have hsmall : n.toInt.natAbs < 10 ^ maxDigits := by
    refine Nat.lt_of_lt_of_le (m := 10 ^ 19) (by omega) ?_
    exact Nat.pow_le_pow_right (by decide) (by decide)
  have hnumeral := numeral_toDigits hsmall
  rw [toList_toString]
  by_cases hn : n.toInt < 0
  · have hvalue : -(n.toInt.natAbs : Int) = n.toInt := by omega
    have hminus := Signed.minus hnumeral
    rw [hvalue] at hminus
    rwa [if_pos hn]
  · have hvalue : (n.toInt.natAbs : Int) = n.toInt := by omega
    have hbare := Signed.bare hnumeral
    rw [hvalue] at hbare
    rwa [if_neg hn]

/-- A number without a field and flags is written as its digits. -/
theorem wholeText_bare (radix : Printf.Radix) {value : Int} (hvalue : 0 ≤ value) :
    Printf.wholeText {} 0 0 radix value = radix.digits value.natAbs := by
  have hsign : ¬ value < 0 := by omega
  simp [Printf.wholeText, Printf.layout, hsign]

/-- `%x` and `%o` of the text of a word write it modulo `2 ^ 64`. -/
theorem format_unsigned (memory : Nat) {pattern : String} {c : Char} (radix : Printf.Radix) (n : Int64)
    (hpattern : pattern.toList = ['%', c])
    (hspec : Printf.takeSpec? [c] = some (⟨{}, .none, .none, .unsigned radix⟩, 1)) (hradix : radix ≠ .decimal) :
    Printf.format memory pattern [toString n.toInt] =
      .ok (String.ofList (radix.digits (n.toInt % Printf.wordSize).natAbs), []) := by
  refine Printf.format_of_convert hpattern hspec ?_
  let s : Printf.Formatting := ⟨[toString n.toInt], 0, [], false⟩
  let spec : Printf.Spec := ⟨{}, .none, .none, .unsigned radix⟩
  have hwidth : (Printf.Formatter.width spec).run s = .ok (({}, none), s) := rfl
  have hprecision : (Printf.Formatter.precision spec).run s = .ok (none, s) := rfl
  have hnext : Printf.Formatter.next.run s = .ok ((toString n.toInt).toList, ⟨[], 1, [], false⟩) := rfl
  have hwhole := (signed_toString n).run_whole ⟨[], 1, [], false⟩
  unfold Printf.Formatter.convert
  rw [Printf.run_bind_of_ok hwidth, Printf.run_bind_of_ok hprecision, Printf.run_bind_of_ok hnext,
    Printf.run_bind_of_ok hwhole, Printf.run_wholeField]
  refine ⟨⟨Nat.zero_le _, Nat.zero_le _, fun h => hradix h.1⟩, ?_⟩
  exact congrArg (·, _) (wholeText_bare radix (Int.emod_nonneg _ (by decide)))

/-- The number of a word modulo `2 ^ 64` wraps to the word. -/
theorem ofInt_modulo (n : Int64) : Int64.ofInt ((n.toInt % Printf.wordSize).natAbs : Nat) = n := by
  have hvalue : ((n.toInt % Printf.wordSize).natAbs : Int) = n.toInt % 2 ^ 64 :=
    Int.natAbs_of_nonneg (Int.emod_nonneg _ (by decide))
  rw [hvalue, Whole.ofInt_emod, Int64.ofInt_toInt]

/-- **`printf` and arithmetic agree on numbers.** A conversion of numbers takes a numeral behind its sign for its
number, without a diagnostic, and the arithmetic value is a word that is the same number modulo `2 ^ 64`. A word that
is written in base 16 or 8 is the arithmetic value of what is written, behind `0x` or `0`. -/
theorem numbers_agree (memory : Nat) {σ : Type} (store : Store σ) :
    (∀ text n, Signed text n →
      (∀ s, (Printf.Formatter.whole text).run s = .ok (n, s)) ∧
      ∃ word : Int64, (∀ s, (evaluate store text).run s = (.ok word, s)) ∧ n ≡ word.toInt [ZMOD 2 ^ 64]) ∧
    ∀ n : Int64, ∃ hex octal,
      Printf.format memory "%x" [toString n.toInt] = .ok (hex, []) ∧
      Printf.format memory "%o" [toString n.toInt] = .ok (octal, []) ∧
      ∀ s, (evaluate store ("0x" ++ hex).toList).run s = (.ok n, s) ∧
        (evaluate store ("0" ++ octal).toList).run s = (.ok n, s) := by
  constructor
  · intro text n h
    refine ⟨h.run_whole, Int64.ofInt n, fun s => h.run_evaluate store s, ?_⟩
    rw [← Whole.wrap_eq, Whole.wrap, Int.modEq_iff_dvd]
    omega
  · intro n
    -- A negative number is printed as the word that it is modulo 2 ^ 64.
    obtain ⟨hhex, hhexValue⟩ :=
      positional_toDigits (by decide : 1 < 16) (by decide) (n.toInt % Printf.wordSize).natAbs
    obtain ⟨hoctal, hoctalValue⟩ :=
      positional_toDigits (by decide : 1 < 8) (by decide) (n.toInt % Printf.wordSize).natAbs
    refine ⟨_, _, format_unsigned memory .hex n rfl (by decide) (by decide),
      format_unsigned memory .octal n rfl (by decide) (by decide), fun s => ⟨?_, ?_⟩⟩
    · have hread := (Signed.bare (.hexadecimal (.inl rfl) hhex)).run_evaluate store s
      rw [hhexValue, ofInt_modulo] at hread
      simp only [String.toList_append, String.toList_ofList]
      exact hread
    · have hread := (Signed.bare (.octal hoctal.2)).run_evaluate store s
      rw [hoctalValue, ofInt_modulo] at hread
      simp only [String.toList_append, String.toList_ofList]
      exact hread

/-- A number that is too large for a word, where it is minus one. -/
theorem beyondWords_agree :
    Signed "-0x10000000000000001".toList (-18446744073709551617) ∧
    (∀ s, (Printf.Formatter.whole "-0x10000000000000001".toList).run s = .ok (-18446744073709551617, s)) ∧
    ∀ s, (evaluate tables "-0x10000000000000001".toList).run s = (.ok (-1), s) := by
  have hdigits : AreDigits 16 "10000000000000001".toList := by decide
  have hvalue : positional 16 ("10000000000000001".toList.filterMap (digitIn? 16)) = 18446744073709551617 := rfl
  have hnumeral := Numeral.hexadecimal (.inl rfl) hdigits
  rw [hvalue] at hnumeral
  have hsigned : Signed "-0x10000000000000001".toList (-18446744073709551617) := .minus hnumeral
  obtain ⟨hwhole, word, hword, hcongruent⟩ := (numbers_agree 0 tables).1 _ _ hsigned
  refine ⟨hsigned, hwhole, ?_⟩
  have hlow := word.le_toInt
  have hhigh := word.toInt_lt
  have hone : word.toInt = (-1 : Int64).toInt := by
    rw [show (-1 : Int64).toInt = -1 from rfl]
    rw [Int.modEq_iff_dvd] at hcongruent
    omega
  rwa [Int64.toInt_inj.mp hone] at hword

end Shell.Arithmetic
