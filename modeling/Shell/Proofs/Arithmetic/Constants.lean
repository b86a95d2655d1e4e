/-
What number constants are read as.

A constant is a base, written in one of four ways, and digits; its value is what the digits make up in the base, cut
down to a word, and a constant with anything else among its digits is a mistake (`specified`). Constants that have their
base in front, as in `16#ff`, are read so, digit by digit. The digits of all others are handed to a reader of integers
that has rules of its own: it takes single underscores between digits, another `0x` or `0o` in front of them, and no
more than `maxDigits` of them in base ten, which is also how the base of the first kind is read. `Misread` are the
constants for which this makes a difference, and `readConstant_exact_iff` says that there are no others.
-/
import Mathlib.Data.Nat.Digits.Defs
import Shell.Proofs.Arithmetic.SignedConstants
import Shell.Proofs.Arithmetic.WholeNumbers

set_option autoImplicit false

namespace Shell.Arithmetic

open Shell.Text

/-! ## 1. What constants stand for -/

/-- The value of a character as a digit in `base`: the ten digits, the letters, `@` and `_`. Lower case comes before
upper case, but up to base 36 both mean the same. -/
def digitIn? (base : Nat) (c : Char) : Option Nat :=
  let value? :=
    if isAsciiDigit c then some (c.toNat - '0'.toNat)
    else if 'a' ≤ c && c ≤ 'z' then some (c.toNat - 'a'.toNat + 10)
    else if 'A' ≤ c && c ≤ 'Z' then some (c.toNat - 'A'.toNat + if base ≤ 36 then 10 else 36)
    else if c = '@' then some 62
    else if c = '_' then some 63
    else none
  value?.filter (· < base)

/-- The number that digits make up in a base, the first one the most significant. -/
def positional (base : Nat) (digits : List Nat) : Nat := Nat.ofDigits base digits.reverse

/-- The base of a constant and its digits. -/
def baseAndDigits (text : List Char) : Nat × List Char :=
  if '#' ∈ text then (Nat.ofDigitChars 10 (text.takeWhile (· ≠ '#')) 0, (text.dropWhile (· ≠ '#')).drop 1)
  else match text with
    | '0' :: 'x' :: digits | '0' :: 'X' :: digits => (16, digits)
    | '0' :: c :: digits => (8, c :: digits)
    | digits => (10, digits)

/-- There are digits, and nothing else. -/
def AreDigits (base : Nat) (digits : List Char) : Prop :=
  digits ≠ [] ∧ ∀ c ∈ digits, (digitIn? base c).isSome = true

instance (base : Nat) (digits : List Char) : Decidable (AreDigits base digits) :=
  decidable_of_iff (digits ≠ [] ∧ digits.all (fun c => (digitIn? base c).isSome) = true) (by simp [AreDigits])

/-- What a constant is to be read as. -/
def specified (text : List Char) : Except ArithmeticError Int :=
  let (base, digits) := baseAndDigits text
  if base < 2 ∨ 64 < base then .error (.invalidBase text)
  else if AreDigits base digits then .ok (Whole.wrap (positional base (digits.filterMap (digitIn? base))))
  else .error (.valueTooGreat text)

/-- The constant is read as what it stands for; if it stands for nothing, that is the writer's mistake. -/
def ReadsExactly (text : List Char) : Prop :=
  (readConstant text).map Int64.toInt = (specified text).mapError Failure.mistake

/-- Digits in `base`, with single underscores between them. `gap` says that a digit has to come next. -/
inductive Grouped (base : Nat) : (gap : Bool) → List Char → List Nat → Prop where
  | done : Grouped base false [] []
  | underscore {cs : List Char} {ds : List Nat} (h : Grouped base true cs ds) : Grouped base false ('_' :: cs) ds
  | digit {gap : Bool} {c : Char} {d : Nat} {cs : List Char} {ds : List Nat} (hd : digitValue? base c = some d)
      (h : Grouped base false cs ds) : Grouped base gap (c :: cs) (d :: ds)

/-- The character that introduces digits in a base, after a zero. -/
def Introduces (base : Nat) (c : Char) : Prop :=
  (base = 16 ∧ (c = 'x' ∨ c = 'X')) ∨ (base = 8 ∧ (c = 'o' ∨ c = 'O'))

/-- What the reader of integers takes: digits with single underscores between them, which may be introduced, and not
too many in base ten. -/
def ReadsLoosely (base : Nat) (digits : List Char) : Prop :=
  ∃ body ds, Grouped base true body ds ∧ (base = 10 → ds.length ≤ maxDigits) ∧
    (digits = body ∨ ∃ c, Introduces base c ∧ (digits = '0' :: c :: body ∨ digits = '0' :: c :: '_' :: body))

/-- The constants that are not read as what they stand for: in those with a base in front, a base of too many digits;
in all others, too many decimal digits, or what are no digits but is taken for a number. -/
def Misread (text : List Char) : Prop :=
  if '#' ∈ text then maxDigits < (text.takeWhile (· ≠ '#')).length
  else
    let (base, digits) := baseAndDigits text
    (base = 10 ∧ AreDigits base digits ∧ maxDigits < digits.length) ∨
      (¬ AreDigits base digits ∧ ReadsLoosely base digits)

/-! ## 2. Digits -/

/-- The characters of a constant are ASCII characters. -/
theorem toNat_lt_of_isBaseDigit {c : Char} (h : isBaseDigit c = true) : c.toNat < 0x80 := by
  simp only [isBaseDigit, isAsciiDigit, isAsciiLetter, Bool.or_eq_true, between_iff, Char.reduceToNat,
    beq_iff_eq] at h
  rcases h with ((h | h | h) | rfl) | rfl
  · omega
  · omega
  · omega
  · decide
  · decide

theorem isBaseDigit_of_isConstantRest {c : Char} (h : isConstantRest c = true) : isBaseDigit c = true := by
  simp only [isConstantRest, Bool.or_eq_true] at h
  simp only [isBaseDigit, Bool.or_eq_true]
  rcases h with (h | h) | h
  · exact .inl (.inl (.inl h))
  · exact .inl (.inl (.inr h))
  · exact .inr h

/-- After a base, a character has the value that it has as a digit, if that is below the base. -/
theorem constantDigit_eq {c : Char} (h : isBaseDigit c = true) (base : Nat) :
    ∃ value, constantDigit base c = .ok value ∧ digitIn? base c = if value < base then some value else none := by
  have hascii := toNat_lt_of_isBaseDigit h
  have hdigit : isDigit c = isAsciiDigit c := if_pos hascii
  have hdecimal : decimalValue? c = if isAsciiDigit c then some (c.toNat - '0'.toNat) else none := if_pos hascii
  have hfilter : ∀ value : Nat, (some value).filter (· < base) = if value < base then some value else none := by
    intro value
    simp [Option.filter]
  -- Both are a chain of the same five questions, and the last one is answered by the hypothesis.
  unfold constantDigit digitIn?
  rw [hdigit, hdecimal]
  by_cases hd : isAsciiDigit c = true
  · exact ⟨c.toNat - '0'.toNat, by simp only [hd, if_true], by rw [if_pos hd]; exact hfilter _⟩
  rw [if_neg hd, if_neg hd]
  by_cases hlower : ('a' ≤ c && c ≤ 'z') = true
  · exact ⟨_, if_pos hlower, by rw [if_pos hlower]; exact hfilter _⟩
  rw [if_neg hlower, if_neg hlower]
  by_cases hupper : ('A' ≤ c && c ≤ 'Z') = true
  · exact ⟨_, if_pos hupper, by rw [if_pos hupper]; exact hfilter _⟩
  rw [if_neg hupper, if_neg hupper]
  by_cases hat : c = '@'
  · exact ⟨_, if_pos hat, by rw [if_pos hat]; exact hfilter _⟩
  rw [if_neg hat, if_neg hat]
  by_cases hlow : c = '_'
  · exact ⟨_, if_pos hlow, by rw [if_pos hlow]; exact hfilter _⟩
  · simp [isBaseDigit, isAsciiLetter, hd, hat, hlow] at h
    simp only [Bool.and_eq_true, decide_eq_true_eq] at hlower hupper
    exact absurd h (not_or.mpr ⟨hlower, hupper⟩)

/-- **After a base, digits are read one by one**, and any other character is a mistake. -/
theorem constantDigits_eq {cs : List Char} (h : ∀ c ∈ cs, isBaseDigit c = true) (constant : List Char) (base : Nat)
    (done : List Nat) :
    constantDigits constant base done cs =
      if cs.all fun c => (digitIn? base c).isSome then .ok (done.reverse ++ cs.filterMap (digitIn? base))
      else .error (.mistake (.valueTooGreat constant)) := by
  induction cs generalizing done with
  | nil => simp [constantDigits]
  | cons c cs ih =>
    obtain ⟨hc, hcs⟩ := List.forall_mem_cons.mp h
    obtain ⟨value, hvalue, hdigit⟩ := constantDigit_eq hc base
    rw [constantDigits, hvalue]
    dsimp only
    by_cases hlt : value < base
    · rw [if_pos hlt] at hdigit
      rw [if_pos hlt, ih hcs]
      simp [hdigit]
    · rw [if_neg hlt] at hdigit
      rw [if_neg hlt, if_neg (by simp [hdigit])]

theorem ofDigits_eq_positional (base : Nat) (digits : List Nat) : ofDigits base digits = positional base digits := by
  rw [Text.ofDigits_eq, positional, Nat.ofDigits_eq_foldr, List.foldr_reverse]
  congr 1
  funext n d
  rw [Nat.cast_id, Nat.mul_comm, Nat.add_comm]

/-- Up to base 36, the characters of constants are digits for the reader of integers if they are digits. -/
theorem digitValue?_eq {base : Nat} (hbase : base ≤ 36) {c : Char} (h : isConstantRest c = true) :
    digitValue? base c = digitIn? base c := by
  have hascii := toNat_lt_of_isBaseDigit (isBaseDigit_of_isConstantRest h)
  have hdecimal : decimalValue? c = if isAsciiDigit c then some (c.toNat - '0'.toNat) else none := if_pos hascii
  unfold digitValue? digitIn?
  rw [hdecimal]
  by_cases hd : isAsciiDigit c = true
  · simp only [hd, if_true]
  simp only [hd, if_false, Bool.false_eq_true, hbase, if_true]
  split
  · rfl
  · split
    · rfl
    · have hat : c ≠ '@' := by
        rintro rfl
        exact absurd h (by decide)
      rw [if_neg hat]
      split
      · have hlarge : ¬ 63 < base := by omega
        simp [Option.filter, hlarge]
      · rfl

/-! ## 3. The reader of integers -/

section

variable {base : Nat}

/-- Digits are taken to the end of the text just if they are grouped. -/
theorem takeDigits_eq_some_iff {gap : Bool} {cs : List Char} {done ds : List Nat} :
    takeDigits base gap cs done = some (ds, []) ↔ ∃ rest, ds = done.reverse ++ rest ∧ Grouped base gap cs rest := by
  induction cs generalizing gap done with
  | nil =>
    cases gap with
    | true =>
      constructor
      · intro h
        cases h
      · rintro ⟨rest, -, h⟩
        cases h
    | false =>
      constructor
      · intro h
        obtain ⟨hds, -⟩ := Prod.mk.inj (Option.some.inj h)
        exact ⟨[], by rw [List.append_nil]; exact hds.symm, .done⟩
      · rintro ⟨rest, rfl, h⟩
        cases h
        simp [takeDigits]
  | cons c cs ih =>
    rw [takeDigits]
    -- An underscore may follow a digit only, and a digit may follow either.
    by_cases hc : c = '_'
    · subst hc
      rw [if_pos rfl]
      cases gap with
      | true =>
        refine ⟨fun h => (by cases h), ?_⟩
        rintro ⟨rest, -, h⟩
        cases h with
        | digit hd h => cases hd -- An underscore has no value in any base.
      | false =>
        simp only [Bool.false_eq_true, if_false]
        rw [ih]
        refine exists_congr fun rest => and_congr_right fun _ => ⟨.underscore, fun h => ?_⟩
        cases h with
        | underscore h => exact h
        | digit hd h => cases hd
    · rw [if_neg hc]
      cases hd : digitValue? base c with
      | none =>
        have hnot : ¬ ∃ rest, ds = done.reverse ++ rest ∧ Grouped base gap (c :: cs) rest := by
          rintro ⟨rest, -, h⟩
          cases h with
          | underscore h => exact hc rfl
          | digit hd' h => rw [hd] at hd'; cases hd'
        refine ⟨fun h => ?_, fun h => absurd h hnot⟩
        cases gap
        · cases h
        · cases h
      | some d =>
        dsimp only
        rw [ih]
        constructor
        · rintro ⟨rest, rfl, h⟩
          exact ⟨d :: rest, by simp, .digit hd h⟩
        · rintro ⟨rest, rfl, h⟩
          cases h with
          | underscore h => exact absurd rfl hc
          | digit hd' h =>
            rw [hd] at hd'
            obtain rfl := Option.some.inj hd'
            exact ⟨_, by simp, h⟩

theorem takeDigits_of_grouped {cs : List Char} {ds : List Nat} (h : Grouped base true cs ds) :
    takeDigits base true cs [] = some (ds, []) :=
  takeDigits_eq_some_iff.mpr ⟨ds, rfl, h⟩

/-- The digits of a text are grouped in one way only. -/
theorem Grouped.unique {cs : List Char} {ds ds' : List Nat} (h : Grouped base true cs ds)
    (h' : Grouped base true cs ds') : ds = ds' := by
  have hsame := (takeDigits_of_grouped h).symm.trans (takeDigits_of_grouped h')
  exact (Prod.mk.inj (Option.some.inj hsame)).1

theorem takeDigits_suffix {gap : Bool} {cs rest : List Char} {done ds : List Nat}
    (h : takeDigits base gap cs done = some (ds, rest)) : rest <:+ cs := by
  fun_induction takeDigits base gap cs done with
  | case1 => cases h
  | case2 =>
    obtain ⟨-, rfl⟩ := Prod.mk.inj (Option.some.inj h)
    exact List.suffix_rfl
  | case3 => cases h
  | case4 _ _ _ _ ih => exact (ih h).trans (List.suffix_cons _ _)
  | case5 _ _ _ _ _ _ _ ih => exact (ih h).trans (List.suffix_cons _ _)
  | case6 => cases h
  | case7 =>
    obtain ⟨-, rfl⟩ := Prod.mk.inj (Option.some.inj h)
    exact List.suffix_rfl

/-- Behind an introduction, an underscore is dropped. -/
theorem dropIntroduction_of_introduces {c : Char} (h : Introduces base c) (cs : List Char) :
    dropIntroduction base ('0' :: c :: cs) = match cs with
      | '_' :: cs => cs
      | cs => cs := by
  have hintroduces : (base = 16 ∧ (c = 'x' ∨ c = 'X')) ∨ (base = 8 ∧ (c = 'o' ∨ c = 'O')) := h
  simp only [dropIntroduction, if_pos hintroduces]
  cases cs with
  | nil => rfl
  | cons d cs =>
    by_cases hd : d = '_'
    · subst hd
      rfl
    · simp [hd]

/-- Nothing is dropped but introductions. -/
theorem dropIntroduction_cases (base : Nat) (cs : List Char) : dropIntroduction base cs = cs ∨
    ∃ c, Introduces base c ∧
      (cs = '0' :: c :: dropIntroduction base cs ∨ cs = '0' :: c :: '_' :: dropIntroduction base cs) := by
  by_cases h : ∃ c after, cs = '0' :: c :: after ∧ Introduces base c
  · obtain ⟨c, after, rfl, hc⟩ := h
    refine .inr ⟨c, hc, ?_⟩
    rw [dropIntroduction_of_introduces hc]
    split
    · exact .inr rfl
    · exact .inl rfl
  · refine .inl ?_
    match cs with
    | [] => rfl
    | [_] => simp [dropIntroduction]
    | d :: c :: after =>
      by_cases hd : d = '0'
      · subst hd
        have hnot : ¬ ((base = 16 ∧ (c = 'x' ∨ c = 'X')) ∨ (base = 8 ∧ (c = 'o' ∨ c = 'O'))) :=
          fun hc => h ⟨c, after, rfl, hc⟩
        simp only [dropIntroduction, if_neg hnot]
      · simp [dropIntroduction, hd]

theorem dropIntroduction_suffix (base : Nat) (cs : List Char) : dropIntroduction base cs <:+ cs := by
  rcases dropIntroduction_cases base cs with h | ⟨c, -, h | h⟩
  · exact ⟨[], h⟩
  · exact ⟨['0', c], h.symm⟩
  · exact ⟨['0', c, '_'], h.symm⟩

theorem isBlank_of_isConstantRest {c : Char} (h : isConstantRest c = true) : isBlank c = false := by
  rw [isConstantRest_eq_isRest, Name.isRest, Bool.or_eq_true] at h
  rcases h with h | h
  · exact isBlank_of_isStart h
  · exact isBlank_of_isAsciiDigit h

theorem isMargin_of_isConstantRest {c : Char} (h : isConstantRest c = true) : isMargin c = false := by
  rw [isMargin, isBlank_of_isConstantRest h, Bool.false_and]

/-- There is no white space before the characters of a constant, and no sign. -/
theorem takeSign_of_isConstantRest {cs : List Char} (hcs : ∀ c ∈ cs, isConstantRest c = true) :
    takeSign (cs.dropWhile isMargin) = (false, cs) := by
  cases cs with
  | nil => rfl
  | cons c cs =>
    have hc := hcs c List.mem_cons_self
    rw [List.dropWhile_cons_of_neg (by rw [isMargin_of_isConstantRest hc]; exact Bool.false_ne_true)]
    unfold takeSign
    split
    · next heq => rw [(List.cons.inj heq).1] at hc; exact absurd hc (by decide)
    · next heq => rw [(List.cons.inj heq).1] at hc; exact absurd hc (by decide)
    · rfl

/-- **What the reader of integers makes of the characters of a constant.** -/
theorem readInteger_eq_ok_iff {cs : List Char} (hcs : ∀ c ∈ cs, isConstantRest c = true) {n : Int} :
    readInteger base cs = .ok n ↔ ∃ ds, Grouped base true (dropIntroduction base cs) ds ∧
      (isBounded base = true → ds.length ≤ maxDigits) ∧ n = positional base ds := by
  unfold readInteger
  rw [takeSign_of_isConstantRest hcs]
  dsimp only
  cases htake : takeDigits base true (dropIntroduction base cs) [] with
  | none =>
    refine ⟨nofun, ?_⟩
    rintro ⟨ds, h, -⟩
    rw [takeDigits_of_grouped h] at htake
    cases htake
  | some result =>
    obtain ⟨ds, rest⟩ := result
    dsimp only
    cases rest with
    | nil =>
      obtain ⟨rest, hds, hgrouped⟩ := takeDigits_eq_some_iff.mp htake
      obtain rfl : ds = rest := hds
      by_cases hmany : (isBounded base && maxDigits < ds.length) = true
      · rw [if_pos hmany]
        refine ⟨nofun, ?_⟩
        rintro ⟨ds', h, hfew, -⟩
        obtain rfl := h.unique hgrouped
        simp only [Bool.and_eq_true, decide_eq_true_eq] at hmany
        exact absurd (hfew hmany.1) (Nat.not_le_of_lt hmany.2)
      · rw [if_neg hmany]
        have hfew : isBounded base = true → ds.length ≤ maxDigits := by
          simpa using hmany
        rw [ofDigits_eq_positional]
        constructor
        · intro h
          exact ⟨ds, hgrouped, hfew, (Except.ok.inj h).symm⟩
        · rintro ⟨ds', h, -, rfl⟩
          obtain rfl := h.unique hgrouped
          rfl
    | cons c rest =>
      -- What is left behind the digits is no white space.
      have hc : isConstantRest c = true := hcs c
        (((takeDigits_suffix htake).trans (dropIntroduction_suffix base cs)).mem List.mem_cons_self)
      have hall : (c :: rest).all isMargin = false := by
        rw [List.all_cons, isMargin_of_isConstantRest hc, Bool.false_and]
      rw [hall]
      constructor
      · intro h
        split at h <;> cases h
      · rintro ⟨ds', h, -⟩
        rw [takeDigits_of_grouped h] at htake
        cases htake

/-! ## 4. Constants without a base in front -/

theorem grouped_of_areDigits {cs : List Char} (hbase : base ≤ 36) (hcs : ∀ c ∈ cs, isConstantRest c = true)
    (h : ∀ c ∈ cs, (digitIn? base c).isSome = true) (gap : Bool) (hgap : gap = true → cs ≠ []) :
    Grouped base gap cs (cs.filterMap (digitIn? base)) := by
  induction cs generalizing gap with
  | nil =>
    cases gap with
    | true => exact absurd rfl (hgap rfl)
    | false => exact .done
  | cons c cs ih =>
    obtain ⟨hc, hcs⟩ := List.forall_mem_cons.mp hcs
    obtain ⟨hdigit, hdigits⟩ := List.forall_mem_cons.mp h
    obtain ⟨d, hd⟩ := Option.isSome_iff_exists.mp hdigit
    rw [List.filterMap_cons_some hd]
    exact .digit ((digitValue?_eq hbase hc).trans hd) (ih hcs hdigits false nofun)

/-- The character that introduces digits is none. -/
theorem digitIn?_of_introduces {c : Char} (h : Introduces base c) : digitIn? base c = none := by
  rcases h with ⟨rfl, rfl | rfl⟩ | ⟨rfl, rfl | rfl⟩ <;> decide

theorem dropIntroduction_of_areDigits {cs : List Char} (h : ∀ c ∈ cs, (digitIn? base c).isSome = true) :
    dropIntroduction base cs = cs := by
  rcases dropIntroduction_cases base cs with hsame | ⟨c, hc, hcs⟩
  · exact hsame
  · have hmem : c ∈ cs := by
      rcases hcs with hcs | hcs <;> rw [hcs] <;> simp
    have hdigit := h c hmem
    rw [digitIn?_of_introduces hc] at hdigit
    cases hdigit

/-- An introduction is not itself a text of digits. -/
theorem dropIntroduction_of_grouped {cs : List Char} {ds : List Nat} (h : Grouped base true cs ds) :
    dropIntroduction base cs = cs := by
  rcases dropIntroduction_cases base cs with hsame | ⟨c, hc, hcs⟩
  · exact hsame
  · obtain ⟨after, rfl⟩ : ∃ after, cs = '0' :: c :: after := by
      rcases hcs with hcs | hcs
      · exact ⟨_, hcs⟩
      · exact ⟨_, hcs⟩
    have hrest : isConstantRest c = true ∧ base ≤ 36 ∧ c ≠ '_' := by
      rcases hc with ⟨rfl, rfl | rfl⟩ | ⟨rfl, rfl | rfl⟩ <;> decide
    cases h with
    | digit _ h =>
      cases h with
      | underscore _ => exact absurd rfl hrest.2.2
      | digit hd _ =>
        rw [digitValue?_eq hrest.2.1 hrest.1, digitIn?_of_introduces hc] at hd
        cases hd

/-- What is taken for a number is grouped digits, behind an introduction if there is one. -/
theorem readsLoosely_iff {digits : List Char} : ReadsLoosely base digits ↔
    ∃ ds, Grouped base true (dropIntroduction base digits) ds ∧ (base = 10 → ds.length ≤ maxDigits) := by
  constructor
  · rintro ⟨body, ds, hgrouped, hfew, hbody⟩
    have hdrop : dropIntroduction base digits = body := by
      rcases hbody with rfl | ⟨c, hc, rfl | rfl⟩
      · exact dropIntroduction_of_grouped hgrouped
      · rw [dropIntroduction_of_introduces hc]
        split
        · cases hgrouped with
          | digit hd _ => cases hd
        · rfl
      · exact dropIntroduction_of_introduces hc _
    exact ⟨ds, hdrop.symm ▸ hgrouped, hfew⟩
  · rintro ⟨ds, hgrouped, hfew⟩
    refine ⟨_, ds, hgrouped, hfew, ?_⟩
    rcases dropIntroduction_cases base digits with hsame | hintroduced
    · exact .inl hsame.symm
    · exact .inr hintroduced

/-- A constant without a base in front is read in one of three bases. -/
theorem readPlainConstant_eq {text : List Char} (h : '#' ∉ text) :
    readPlainConstant text = readInteger (baseAndDigits text).1 (baseAndDigits text).2 ∧
      ((baseAndDigits text).1 = 16 ∨ (baseAndDigits text).1 = 8 ∨ (baseAndDigits text).1 = 10) ∧
      (baseAndDigits text).2 <:+ text := by
  unfold baseAndDigits readPlainConstant
  rw [if_neg h]
  match text with
  | [] => exact ⟨rfl, .inr (.inr rfl), List.suffix_rfl⟩
  | [_] => simp
  | d :: c :: digits =>
    by_cases hd : d = '0'
    · subst hd
      by_cases hlower : c = 'x'
      · subst hlower
        exact ⟨rfl, .inl rfl, ['0', 'x'], rfl⟩
      · by_cases hupper : c = 'X'
        · subst hupper
          exact ⟨rfl, .inl rfl, ['0', 'X'], rfl⟩
        · simp
    · simp [hd]

/-- Only in base ten does the reader of integers count digits. -/
theorem isBounded_iff (h : base = 16 ∨ base = 8 ∨ base = 10) : isBounded base = true ↔ base = 10 := by
  rcases h with rfl | rfl | rfl <;> decide

/-- Digits are read as the number that they make up, unless they are too many for the base. -/
theorem readInteger_of_areDigits {cs : List Char} (hbase : base ≤ 36) (hcs : ∀ c ∈ cs, isConstantRest c = true)
    (h : AreDigits base cs) (n : Int) : readInteger base cs = .ok n ↔
      (isBounded base = true → cs.length ≤ maxDigits) ∧ n = positional base (cs.filterMap (digitIn? base)) := by
  obtain ⟨hne, hall⟩ := h
  have hgrouped := grouped_of_areDigits hbase hcs hall true fun _ => hne
  have hlength : (cs.filterMap (digitIn? base)).length = cs.length := List.filterMap_length_eq_length.mpr hall
  rw [readInteger_eq_ok_iff hcs, dropIntroduction_of_areDigits hall]
  constructor
  · rintro ⟨ds, hds, hfew, rfl⟩
    obtain rfl := hds.unique hgrouped
    exact ⟨fun hbounded => hlength ▸ hfew hbounded, rfl⟩
  · rintro ⟨hfew, rfl⟩
    exact ⟨_, hgrouped, fun hbounded => hlength.symm ▸ hfew hbounded, rfl⟩

/-- What are no digits is taken for a number just if it is read loosely. -/
theorem readsLoosely_iff_readInteger (hbase : base = 16 ∨ base = 8 ∨ base = 10) {cs : List Char}
    (hcs : ∀ c ∈ cs, isConstantRest c = true) : ReadsLoosely base cs ↔ ∃ n, readInteger base cs = .ok n := by
  rw [readsLoosely_iff]
  constructor
  · rintro ⟨ds, hgrouped, hfew⟩
    exact ⟨_, (readInteger_eq_ok_iff hcs).mpr ⟨ds, hgrouped, fun h => hfew ((isBounded_iff hbase).mp h), rfl⟩⟩
  · rintro ⟨n, h⟩
    obtain ⟨ds, hgrouped, hfew, -⟩ := (readInteger_eq_ok_iff hcs).mp h
    exact ⟨ds, hgrouped, fun hten => hfew ((isBounded_iff hbase).mpr hten)⟩

/-- **A constant without a base in front is read as what it stands for, unless the reader of integers has rules of its
own for it.** -/
theorem readsExactly_iff_of_plain {text : List Char} (hplain : '#' ∉ text)
    (htext : ∀ c ∈ text, isConstantRest c = true) : ReadsExactly text ↔ ¬ Misread text := by
  obtain ⟨hread, hbase, hsuffix⟩ := readPlainConstant_eq hplain
  rcases hparts : baseAndDigits text with ⟨base, digits⟩
  rw [hparts] at hread hbase hsuffix
  dsimp only at hread hbase hsuffix
  have hdigits : ∀ c ∈ digits, isConstantRest c = true := fun c hc => htext c (hsuffix.mem hc)
  have hsmall : base ≤ 36 := by omega
  have hvalue : readConstant text =
      ((readInteger base digits).map Int64.ofInt).mapError fun _ => .mistake (.valueTooGreat text) := by
    unfold readConstant
    rw [if_neg (by simpa using hplain)]
    cases hr : readInteger base digits <;> simp only [hread, hr] <;> rfl
  have hmisread : Misread text ↔ (base = 10 ∧ AreDigits base digits ∧ maxDigits < digits.length) ∨
      (¬ AreDigits base digits ∧ ReadsLoosely base digits) := by
    unfold Misread
    rw [if_neg hplain, hparts]
  have hspecified : specified text = if AreDigits base digits then
      .ok (Whole.wrap (positional base (digits.filterMap (digitIn? base)))) else .error (.valueTooGreat text) := by
    unfold specified
    rw [hparts]
    exact if_neg (by omega)
  rw [hmisread]
  unfold ReadsExactly
  rw [hspecified, hvalue]
  by_cases hare : AreDigits base digits
  · have hinteger := readInteger_of_areDigits hsmall hdigits hare
    rw [if_pos hare]
    by_cases hmany : base = 10 ∧ maxDigits < digits.length
    · -- The reader gives up on so many digits, which is a mistake where there should be a value.
      refine iff_of_false ?_ (not_not_intro (.inl ⟨hmany.1, hare, hmany.2⟩))
      cases hr : readInteger base digits with
      | ok n =>
        have hfew := ((hinteger n).mp hr).1 ((isBounded_iff hbase).mpr hmany.1)
        exact absurd hfew (Nat.not_le_of_lt hmany.2)
      | error failure =>
        intro h
        cases h
    · have hfew : isBounded base = true → digits.length ≤ maxDigits := by
        intro hbounded
        exact Nat.le_of_not_lt fun hlt => hmany ⟨(isBounded_iff hbase).mp hbounded, hlt⟩
      refine iff_of_true ?_ ?_
      · rw [(hinteger _).mpr ⟨hfew, rfl⟩, Whole.wrap_eq]
        rfl
      · rintro (⟨hten, -, hlt⟩ | ⟨hnot, -⟩)
        · exact hmany ⟨hten, hlt⟩
        · exact hnot hare
  · have hloosely := readsLoosely_iff_readInteger hbase hdigits
    rw [if_neg hare]
    cases hr : readInteger base digits with
    | ok n =>
      -- A value is read where there should be a mistake.
      exact iff_of_false (fun h => by cases h) (not_not_intro (.inr ⟨hare, hloosely.mpr ⟨n, hr⟩⟩))
    | error failure =>
      refine iff_of_true rfl ?_
      rintro (⟨-, hnot, -⟩ | ⟨-, hloose⟩)
      · exact hare hnot
      · obtain ⟨n, hn⟩ := hloosely.mp hloose
        rw [hn] at hr
        cases hr

end

/-! ## 5. Constants with a base in front -/

/-- A base is read unless it has too many digits. -/
theorem readDecimal?_eq {cs : List Char} (h : ∀ c ∈ cs, isAsciiDigit c = true) (hne : cs ≠ []) :
    readDecimal? cs = if cs.length ≤ maxDigits then some (Nat.ofDigitChars 10 cs 0 : Int) else none := by
  unfold readDecimal?
  by_cases hfew : cs.length ≤ maxDigits
  · rw [readInteger_of_digits h hne hfew, if_pos hfew]
    rfl
  · rw [if_neg hfew]
    cases hr : readInteger 10 cs with
    | error failure => rfl
    | ok n =>
      have hrest : ∀ c ∈ cs, isConstantRest c = true := fun c hc => by simp [isConstantRest, h c hc]
      have hare : AreDigits 10 cs := by
        refine ⟨hne, fun c hc => ?_⟩
        rw [← digitValue?_eq (by decide) (hrest c hc), digitValue?_of_isAsciiDigit (h c hc)]
        rfl
      obtain ⟨hlength, -⟩ := (readInteger_of_areDigits (by decide) hrest hare n).mp hr
      exact absurd (hlength (by decide)) hfew

/-- The base of a constant is in front of the first `#`, and behind that are its digits. -/
theorem front_and_digits {text front digits : List Char} (htext : text = front ++ '#' :: digits)
    (hfront : ∀ c ∈ front, isAsciiDigit c = true) :
    text.takeWhile (· ≠ '#') = front ∧ (text.dropWhile (· ≠ '#')).drop 1 = digits := by
  have hstop : ∀ c ∈ front, decide (c ≠ '#') = true := by
    intro c hc
    rw [decide_eq_true_eq]
    rintro rfl
    exact absurd (hfront _ hc) (by decide)
  have htake : text.takeWhile (· ≠ '#') = front := by
    rw [htext, takeWhile_append_of_head? hstop (by simp)]
  refine ⟨htake, ?_⟩
  rw [← drop_length_takeWhile, htake, htext, List.drop_left]
  rfl

/-- How a constant with its base in front is read when the base can be read, and when not. -/
theorem readConstant_of_based {text front digits : List Char} (htext : text = front ++ '#' :: digits)
    (hfront : ∀ c ∈ front, isAsciiDigit c = true) :
    (readDecimal? front = none → readConstant text = .error (.fault .unreadableConstant)) ∧
      ∀ base : Int, readDecimal? front = some base → readConstant text =
        if 2 ≤ base ∧ base ≤ 64 then
          (constantDigits text base.toNat [] digits).map fun ds => Int64.ofNat (ofDigits base.toNat ds)
        else .error (.mistake (.invalidBase text)) := by
  have hmem : text.contains '#' = true := by simp [htext]
  obtain ⟨htake, hdrop⟩ := front_and_digits htext hfront
  constructor
  · intro hnone
    simp only [readConstant, if_pos hmem, htake, hnone]
  · intro base hbase
    simp only [readConstant, if_pos hmem, htake, hdrop, hbase]

/-- **A constant with its base in front is read as what it stands for, unless the base has too many digits.** -/
theorem readsExactly_iff_of_based {text front digits : List Char} (htext : text = front ++ '#' :: digits)
    (hfront : ∀ c ∈ front, isAsciiDigit c = true) (hne : front ≠ [])
    (hdigits : ∀ c ∈ digits, isBaseDigit c = true) (hsome : digits ≠ []) : ReadsExactly text ↔ ¬ Misread text := by
  have hmem : '#' ∈ text := by simp [htext]
  obtain ⟨htake, hdrop⟩ := front_and_digits htext hfront
  obtain ⟨hunread, hread⟩ := readConstant_of_based htext hfront
  have hdecimal := readDecimal?_eq hfront hne
  have hparts : baseAndDigits text = (Nat.ofDigitChars 10 front 0, digits) := by
    unfold baseAndDigits
    rw [if_pos hmem, htake, hdrop]
  have hmisread : Misread text ↔ maxDigits < front.length := by
    unfold Misread
    rw [if_pos hmem, htake]
  rw [hmisread]
  unfold ReadsExactly specified
  rw [hparts]
  generalize Nat.ofDigitChars 10 front 0 = base at hdecimal
  by_cases hfew : front.length ≤ maxDigits
  · refine iff_of_true ?_ (Nat.not_lt_of_le hfew)
    rw [hread base (hdecimal.trans (if_pos hfew))]
    dsimp only
    by_cases hbase : base < 2 ∨ 64 < base
    · rw [if_neg (by omega), if_pos hbase]
      rfl
    · rw [if_pos (by omega), if_neg hbase, Int.toNat_natCast, constantDigits_eq hdigits]
      by_cases hall : ∀ c ∈ digits, (digitIn? base c).isSome = true
      · rw [if_pos (List.all_eq_true.mpr hall), if_pos ⟨hsome, hall⟩]
        show Except.ok (Int64.ofNat (ofDigits base (digits.filterMap (digitIn? base)))).toInt = _
        rw [ofDigits_eq_positional, ← Int64.ofInt_eq_ofNat, ← Whole.wrap_eq]
        rfl
      · rw [if_neg fun hdigits => hall (List.all_eq_true.mp hdigits), if_neg fun hare => hall hare.2]
        rfl
  · -- The base cannot be read, which is no mistake of the kind that is asked for.
    refine iff_of_false ?_ (not_not_intro (Nat.lt_of_not_le hfew))
    have hfault : ∀ r : Except ArithmeticError Int,
        (.error (.fault .unreadableConstant) : Except Failure Int) ≠ r.mapError Failure.mistake := by
      intro r h
      cases r <;> cases h
    rw [hunread (hdecimal.trans (if_neg hfew))]
    exact hfault _

/-! ## 6. All constants -/

/-- **Which constants are read exactly**: all those that are not misread. -/
theorem readConstant_exact_iff {text : List Char} (h : isConstant text = true) :
    ReadsExactly text ↔ ¬ Misread text := by
  cases text with
  | nil => cases h
  | cons c cs =>
    obtain ⟨hc, hbased | hplain⟩ := isConstant_cons h
    · obtain ⟨d, after, hcs, hall⟩ := hbased
      have htext : c :: cs = (c :: cs.takeWhile isAsciiDigit) ++ '#' :: d :: after := by
        rw [List.cons_append, ← hcs, List.takeWhile_append_dropWhile]
      have hfront : ∀ x ∈ c :: cs.takeWhile isAsciiDigit, isAsciiDigit x = true :=
        List.forall_mem_cons.mpr ⟨hc, fun x => List.mem_takeWhile_imp⟩
      exact readsExactly_iff_of_based htext hfront (List.cons_ne_nil _ _) hall (List.cons_ne_nil _ _)
    · have hall : ∀ x ∈ c :: cs, isConstantRest x = true :=
        List.forall_mem_cons.mpr ⟨by simp [isConstantRest, hc], hplain⟩
      refine readsExactly_iff_of_plain (fun hmem => ?_) hall
      exact absurd (hall _ hmem) (by decide)

/-- `0x1F` is read as 31. -/
theorem hexadecimal_exact :
    isConstant ['0', 'x', '1', 'F'] = true ∧ ReadsExactly ['0', 'x', '1', 'F'] ∧
      specified ['0', 'x', '1', 'F'] = .ok 31 := by
  have hconstant : isConstant ['0', 'x', '1', 'F'] = true := by decide
  have hspecified : specified ['0', 'x', '1', 'F'] = .ok 31 := by decide +kernel
  have hmisread : ¬ Misread ['0', 'x', '1', 'F'] := by
    rintro (⟨hten, -⟩ | ⟨hnot, -⟩)
    · cases hten
    · exact hnot (by decide)
  exact ⟨hconstant, (readConstant_exact_iff hconstant).mpr hmisread, hspecified⟩

/-- `1_0` is taken for ten, although an underscore is no decimal digit. -/
theorem groupedConstant_misread :
    isConstant ['1', '_', '0'] = true ∧ readConstant ['1', '_', '0'] = .ok 10 ∧
      specified ['1', '_', '0'] = .error (.valueTooGreat ['1', '_', '0']) ∧ ¬ ReadsExactly ['1', '_', '0'] := by
  have hread : readConstant ['1', '_', '0'] = .ok 10 := by decide +kernel
  have hspecified : specified ['1', '_', '0'] = .error (.valueTooGreat ['1', '_', '0']) := by decide +kernel
  refine ⟨by decide, hread, hspecified, ?_⟩
  unfold ReadsExactly
  rw [hread, hspecified]
  nofun

end Shell.Arithmetic
