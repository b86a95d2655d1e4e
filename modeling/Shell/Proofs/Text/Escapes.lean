/-
Escapes that `echo -e` and `%b` read alike.

Both go over a text from the front and take off one escape after the other, and they have rules of their own for that.
What one of them takes off is one decoded escape in either case (`echoed` and `decode`), and the rest of the text is
read in the same way. So the two can only differ at an escape that they read differently. Those are the octal numbers
without a leading zero, the numbers of Unicode characters and the two quotes, which only `%b` knows (`isArgumentOnly`).

A backslash is not always the beginning of an escape. It may be the character that another backslash protects, and
behind `\c` nothing is read any more. `Opens` says where escapes begin.
-/
import Shell.Text.Escape

set_option autoImplicit false

namespace Shell.Text.Escape

/-! ## 1. Where escapes begin -/

/-- An escape begins in a text, and the rest is what stands behind its backslash. -/
inductive Opens : List Char → List Char → Prop where
  | here (rest : List Char) : Opens ('\\' :: rest) rest
  | behindPlain {c : Char} {cs rest : List Char} (hc : c ≠ '\\') (h : Opens cs rest) : Opens (c :: cs) rest
  | behindEscape {c : Char} {cs rest : List Char} (hc : c ≠ 'c') (h : Opens cs rest) :
      Opens ('\\' :: c :: cs) rest

@[simp] theorem not_opens_nil (rest : List Char) : ¬ Opens [] rest := nofun

@[simp] theorem opens_plain {c : Char} (hc : c ≠ '\\') {cs rest : List Char} :
    Opens (c :: cs) rest ↔ Opens cs rest := by
  refine ⟨fun h => ?_, .behindPlain hc⟩
  cases h with
  | here => exact absurd rfl hc
  | behindPlain _ h => exact h
  | behindEscape _ _ => exact absurd rfl hc

@[simp] theorem opens_backslash {rest : List Char} : Opens ['\\'] rest ↔ rest = [] := by
  refine ⟨fun h => ?_, ?_⟩
  · cases h with
    | here => rfl
    | behindPlain hc _ => exact absurd rfl hc
  · rintro rfl
    exact .here []

@[simp] theorem opens_escape {c : Char} {cs rest : List Char} :
    Opens ('\\' :: c :: cs) rest ↔ rest = c :: cs ∨ (c ≠ 'c' ∧ Opens cs rest) := by
  constructor
  · intro h
    cases h with
    | here => exact .inl rfl
    | behindPlain hc _ => exact absurd rfl hc
    | behindEscape hc h => exact .inr ⟨hc, h⟩
  · rintro (rfl | ⟨hc, h⟩)
    · exact .here _
    · exact .behindEscape hc h

/-- Characters that are no backslashes may stand in front. -/
theorem Opens.append {plain cs rest : List Char} (hplain : '\\' ∉ plain) (h : Opens cs rest) :
    Opens (plain ++ cs) rest := by
  induction plain with
  | nil => exact h
  | cons c plain ih =>
    obtain ⟨hc, hplain⟩ := not_or.mp (mt List.mem_cons.mpr hplain)
    exact .behindPlain (Ne.symm hc) (ih hplain)

/-- The characters behind a backslash that mean something to `%b` alone. -/
def isArgumentOnly (c : Char) : Bool :=
  ('1' ≤ c && c ≤ '7') || c == 'u' || c == 'U' || c == '\'' || c == '"'

/-! ## 2. Digits -/

theorem hexValue?_lt {c : Char} {d : Nat} (h : hexValue? c = some d) : d < 16 := by
  unfold hexValue? at h
  simp only [between_iff, Char.reduceToNat] at h
  split at h
  · obtain rfl := Option.some.inj h
    omega
  · split at h
    · obtain rfl := Option.some.inj h
      omega
    · split at h
      · obtain rfl := Option.some.inj h
        omega
      · cases h

theorem length_digits_le (value? : Char → Option Nat) (max : Nat) (cs : List Char) :
    (digits value? max cs).length ≤ max := by
  fun_induction digits value? max cs with
  | case1 max c cs d _ ih => exact Nat.succ_le_succ ih
  | case2 => exact Nat.zero_le _
  | case3 => exact Nat.zero_le _

/-- The digits that have been taken stand in front of the text that is left. -/
theorem exists_digits (value? : Char → Option Nat) (max : Nat) (cs : List Char) :
    ∃ front, cs = front ++ cs.drop (digits value? max cs).length ∧ ∀ c ∈ front, (value? c).isSome = true := by
  fun_induction digits value? max cs with
  | case1 max c cs d hd ih =>
    obtain ⟨front, hcs, hfront⟩ := ih
    refine ⟨c :: front, by rw [List.length_cons, List.drop_succ_cons, List.cons_append, ← hcs], ?_⟩
    exact List.forall_mem_cons.mpr ⟨by rw [hd]; rfl, hfront⟩
  | case2 => exact ⟨[], rfl, nofun⟩
  | case3 => exact ⟨[], rfl, nofun⟩

theorem exists_of_mem_digits {value? : Char → Option Nat} {max : Nat} {cs : List Char} {d : Nat}
    (h : d ∈ digits value? max cs) : ∃ c, value? c = some d := by
  fun_induction digits value? max cs with
  | case1 max c cs e he ih =>
    rcases List.mem_cons.mp h with rfl | h
    · exact ⟨c, he⟩
    · exact ih h
  | case2 => cases h
  | case3 => cases h

/-- No backslash is among the digits that are taken, so an escape behind them is one of the whole text. -/
theorem Opens.behindDigits {value? : Char → Option Nat} (hvalue : value? '\\' = none) {max : Nat}
    {cs rest : List Char} (h : Opens (cs.drop (digits value? max cs).length) rest) : Opens cs rest := by
  obtain ⟨front, hcs, hfront⟩ := exists_digits value? max cs
  rw [hcs]
  refine h.append fun hmem => ?_
  have hdigit := hfront _ hmem
  rw [hvalue] at hdigit
  cases hdigit

/-! ## 3. One escape -/

/-- The escape that a backslash before `cs` starts for `echo -e`. -/
def echoed : List Char → Decoded
  | [] => { text := ['\\'], extent := 0 }
  | c :: cs =>
    match simple? c with
    | some d => { text := [d], extent := 1 }
    | none =>
      if c = 'c' then { text := [], extent := 1, stop := true }
      else if c = '0' then
        let ds := digits octalValue? 3 cs
        { text := [octalChar ds], extent := 1 + ds.length }
      else
        let ds := if c = 'x' then digits hexValue? 2 cs else []
        if ds.isEmpty then { text := ['\\', c], extent := 1 }
        else { text := [Char.ofNat (ofDigits 16 ds)], extent := 1 + ds.length }

/-- No escape of `echo -e` has a number that is no character's. -/
theorem half_echoed (cs : List Char) : (echoed cs).half = false := by
  unfold echoed
  split
  · rfl
  split
  · rfl
  split
  · rfl
  split
  · rfl
  · simp only [apply_ite Decoded.half, ite_self]

theorem echoFrom_plain {c : Char} (hc : c ≠ '\\') (done cs : List Char) :
    echoFrom done (c :: cs) = echoFrom (c :: done) cs := by
  rw [echoFrom]
  rintro _ _ rfl
  exact absurd rfl hc

/-- **`echo -e` takes off one escape** and goes on behind it. -/
theorem echoFrom_backslash (done cs : List Char) :
    echoFrom done ('\\' :: cs) =
      if (echoed cs).stop then (((echoed cs).text.reverse ++ done).reverse, true)
      else echoFrom ((echoed cs).text.reverse ++ done) (cs.drop (echoed cs).extent) := by
  cases cs with
  | nil =>
    rw [echoFrom]
    · rfl
    · intro c cs _ hcs
      cases hcs
  | cons c cs =>
    rw [echoFrom, echoed]
    -- By the character behind the backslash, in the order of the escapes.
    cases simple? c with
    | some d => rfl
    | none =>
      by_cases hstop : c = 'c'
      · subst hstop
        rfl
      by_cases hoctal : c = '0'
      · subst hoctal
        simp [hstop, Nat.add_comm 1]
      by_cases hhex : c = 'x'
      · subst hhex
        by_cases hnone : (digits hexValue? 2 cs).isEmpty = true
        · simp [hstop, hoctal, hnone]
        · simp [hstop, hoctal, hnone, Nat.add_comm 1]
      · simp [hstop, hoctal, hhex]

/-- An escape that begins behind another one is one of the whole text. -/
theorem Opens.behind {cs rest : List Char} (hgoes : (echoed cs).stop = false)
    (h : Opens (cs.drop (echoed cs).extent) rest) : Opens ('\\' :: cs) rest := by
  cases cs with
  | nil => exact absurd h (not_opens_nil rest)
  | cons c cs =>
    rw [echoed] at hgoes h
    by_cases hstop : c = 'c'
    · subst hstop
      cases hgoes
    refine .behindEscape hstop ?_
    -- What is behind an escape is behind its character and the digits it has taken.
    cases hsimple : simple? c with
    | some d =>
      rw [hsimple] at h
      exact h
    | none =>
      rw [hsimple] at h
      simp only [if_neg hstop] at h
      by_cases hoctal : c = '0'
      · rw [if_pos hoctal, Nat.add_comm 1, List.drop_succ_cons] at h
        exact Opens.behindDigits rfl h
      rw [if_neg hoctal] at h
      by_cases hhex : c = 'x'
      · rw [if_pos hhex] at h
        split at h
        · exact h
        · rw [Nat.add_comm 1, List.drop_succ_cons] at h
          exact Opens.behindDigits rfl h
      · rw [if_neg hhex] at h
        exact h

/-- Two hexadecimal digits are the number of a character. -/
theorem pointOf_digits (cs : List Char) :
    pointOf (ofDigits 16 (digits hexValue? 2 cs)) =
      .ok (.char (Char.ofNat (ofDigits 16 (digits hexValue? 2 cs)))) := by
  -- Two digits are less than a byte, and no character below that is half of a pair.
  have hbyte : ofDigits 16 (digits hexValue? 2 cs) < 256 := by
    have hlength := length_digits_le hexValue? 2 cs
    have hsmall : ∀ d ∈ digits hexValue? 2 cs, d < 16 := by
      intro d hd
      obtain ⟨c, hc⟩ := exists_of_mem_digits hd
      exact hexValue?_lt hc
    rw [ofDigits_eq]
    match hds : digits hexValue? 2 cs with
    | [] => simp
    | [d] =>
      have hd := hsmall d (by simp [hds])
      simp only [List.foldl_cons, List.foldl_nil]
      omega
    | [d, e] =>
      have hd := hsmall d (by simp [hds])
      have he := hsmall e (by simp [hds])
      simp only [List.foldl_cons, List.foldl_nil]
      omega
    | d :: e :: f :: ds => simp [hds] at hlength
  generalize ofDigits 16 (digits hexValue? 2 cs) = n at hbyte
  have hvalid : n.isValidChar := .inl (by omega)
  unfold pointOf
  rw [if_neg (by omega), if_neg (by omega), dif_pos hvalid, Char.ofNat, dif_pos hvalid]

/-- The characters that only `%b` knows are those that it looks for, but for the ones that both know. -/
theorem of_isArgumentOnly_eq_false {c : Char} (h : isArgumentOnly c = false) :
    c ≠ '"' ∧ c ≠ '\'' ∧ c ≠ 'u' ∧ c ≠ 'U' ∧ ((octalValue? c).isSome = true → c = '0') := by
  simp only [isArgumentOnly, Bool.or_eq_false_iff, beq_eq_false_iff_ne] at h
  obtain ⟨⟨⟨⟨hrange, hu⟩, hU⟩, hsingle⟩, hdouble⟩ := h
  refine ⟨hdouble, hsingle, hu, hU, fun hoctal => ?_⟩
  unfold octalValue? at hoctal
  split at hoctal
  · next hc =>
    have hnot := mt (between_iff c '1' '7').mpr (ne_true_of_eq_false hrange)
    rw [between_iff] at hc
    simp only [Char.reduceToNat] at hc hnot
    exact Char.toNat_inj.mp (show c.toNat = 48 by omega)
  · cases hoctal

/-- **What `%b` takes off is what `echo -e` takes off**, unless only `%b` knows it. -/
theorem decode_eq_echoed {cs : List Char} (h : ∀ c ∈ cs.head?, isArgumentOnly c = false) :
    decode true cs = .ok (echoed cs) := by
  cases cs with
  | nil => rfl
  | cons c cs =>
    obtain ⟨hdouble, hsingle, hu, hU, hoctal⟩ := of_isArgumentOnly_eq_false (h c rfl)
    rw [decode, echoed, if_neg (not_or.mpr ⟨hdouble, hsingle⟩)]
    cases simple? c with
    | some d => rfl
    | none =>
      by_cases hstop : c = 'c'
      · simp [hstop]
      by_cases hzero : c = '0'
      · subst hzero
        simp [octalValue?]
      have hnotOctal : ¬ (octalValue? c).isSome = true := fun h => hzero (hoctal h)
      by_cases hhex : c = 'x'
      · subst hhex
        by_cases hnone : (digits hexValue? 2 cs).isEmpty = true
        · simp [hstop, hzero, hnotOctal, hexWidth?, hnone]
        · simp [hstop, hzero, hnotOctal, hexWidth?, hnone, pointOf_digits]
      · simp [hstop, hzero, hhex, hnotOctal, hexWidth?]

/-! ## 4. Whole texts -/

/-- The decoders go over a text alike, behind whatever they have decoded. -/
theorem argumentFrom_eq_echoFrom (done : List Char) (half : Bool) (text : List Char)
    (h : ∀ c rest, Opens text (c :: rest) → isArgumentOnly c = false) :
    argumentFrom done half text = .ok ⟨(echoFrom done text).1, (echoFrom done text).2, half⟩ := by
  -- The character behind a backslash that is looked at is behind one that begins an escape.
  have hdecode {cs : List Char} (h : ∀ c rest, Opens ('\\' :: cs) (c :: rest) → isArgumentOnly c = false) :
      decode true cs = .ok (echoed cs) := by
    refine decode_eq_echoed fun c hc => ?_
    obtain ⟨rest, rfl⟩ := List.head?_eq_some_iff.mp hc
    exact h c rest (.here _)
  fun_induction argumentFrom done half text with
  | case1 => rw [echoFrom]
  | case2 done half cs hfails =>
    rw [hdecode h] at hfails
    cases hfails
  | case3 done half cs decoded hdecoded done' half' hstop =>
    obtain rfl := Except.ok.inj ((hdecode h).symm.trans hdecoded)
    have hhalf : half' = half := by simp only [half', half_echoed, Bool.or_false]
    rw [echoFrom_backslash, if_pos hstop, hhalf]
  | case4 done half cs decoded hdecoded done' half' hgoes ih =>
    obtain rfl := Except.ok.inj ((hdecode h).symm.trans hdecoded)
    have hhalf : half' = half := by simp only [half', half_echoed, Bool.or_false]
    rw [echoFrom_backslash, if_neg hgoes, ih fun c rest hc => h c rest (hc.behind (eq_false_of_ne_true hgoes)), hhalf]
  | case5 done half c cs hc ih =>
    rw [echoFrom_plain hc]
    exact ih fun d rest hd => h d rest (.behindPlain hc hd)

/-- **`%b` decodes as `echo -e` does**, to the same text with the same end, if behind no backslash that begins an
escape stands a character that means something to `%b` alone. -/
theorem argument_eq_echo {text : List Char}
    (h : ∀ c rest, Opens text (c :: rest) → isArgumentOnly c = false) :
    argument text = .ok { text := (echo text).1, ended := (echo text).2 } :=
  argumentFrom_eq_echoFrom [] false text h

/-- A backslash that is protected, an octal number with a digit behind it, a hexadecimal one with a single digit, and
an end of all output, behind which it makes no difference what stands. -/
theorem mixedEscapes_decoded :
    (∀ c rest, Opens "\\\\1\\01012\\x4g\\c\\1".toList (c :: rest) → isArgumentOnly c = false) ∧
      argument "\\\\1\\01012\\x4g\\c\\1".toList = .ok { text := "\\1A2\x04g".toList, ended := true } := by
  have hshared : ∀ c rest, Opens "\\\\1\\01012\\x4g\\c\\1".toList (c :: rest) → isArgumentOnly c = false := by
    intro c rest h
    -- Four backslashes begin an escape.
    simp at h
    rcases h with ⟨rfl, -⟩ | ⟨rfl, -⟩ | ⟨rfl, -⟩ | ⟨rfl, -⟩ <;> decide
  refine ⟨hshared, ?_⟩
  rw [argument_eq_echo hshared]
  exact congrArg Except.ok (by decide +kernel)

end Shell.Text.Escape
