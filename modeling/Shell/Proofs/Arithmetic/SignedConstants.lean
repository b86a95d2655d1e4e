/-
Variables whose text is a constant with signs in front.

The text of a variable is an expression that is evaluated in turn, but signs with a constant behind them are read
at once. Evaluating such a text comes to something else in three ways. Each sign is an operator of its own there,
while reading at once looks at the first one only. Two equal signs side by side are one token, which changes a
variable by one and cannot stand before a constant. And a constant may go on behind the piece of it that is cut
off as a token: `0x1_2` is `0x1` and the name `_2`.

These are the only ways. `resolve_agrees_iff` says for every variable with a text that is not blank when its value
is the value of the text.
-/
import Mathlib.Data.List.Chain
import Mathlib.Algebra.Group.Nat.Even
import Shell.Proofs.Arithmetic.Assigning
import Shell.Proofs.Arithmetic.Cutting
import Shell.Proofs.Arithmetic.Levels
import Shell.Table

set_option autoImplicit false

namespace Shell.Arithmetic

open Shell.Text

/-! ## 1. Signs as tokens -/

def isSign (c : Char) : Bool := c == '+' || c == '-'

theorem isSign_iff {c : Char} : isSign c = true ↔ c = '+' ∨ c = '-' := by simp [isSign]

theorem isSign_of_isAsciiDigit {c : Char} (h : isAsciiDigit c = true) : isSign c = false :=
  forall_isAsciiDigit (p := fun c => isSign c = false) (by decide) h

/-- The token of a sign by itself. -/
def signToken (c : Char) : Token := .symbol (.binary (if c = '-' then .sub else .add))

/-- The token of a sign that is written twice. -/
def stepToken (c : Char) : Token := .symbol (.step (if c = '-' then .decrement else .increment))

theorem symbolAt?_sign {c next : Char} (hc : isSign c = true) (hnext : next ≠ c) (heq : next ≠ '=')
    (cs : List Char) :
    symbolAt? (c :: next :: cs) = some (.binary (if c = '-' then .sub else .add)) := by
  rcases isSign_iff.mp hc with rfl | rfl <;>
    simp [symbolAt?, Symbol.all, Symbol.text, BinaryOp.text, Step.text, assignmentText, List.isPrefixOf,
      hnext.symm, heq.symm]

theorem tokensFrom_sign {c next : Char} (hc : isSign c = true) (hnext : next ≠ c) (heq : next ≠ '=')
    (text cs : List Char) :
    tokensFrom text [] (c :: next :: cs) = (tokensFrom text [] (next :: cs)).map (signToken c :: ·) := by
  have hsymbol := symbolAt?_sign hc hnext heq cs
  rcases isSign_iff.mp hc with rfl | rfl
  · exact tokensFrom_symbol (s := .binary .add) hsymbol text
  · exact tokensFrom_symbol (s := .binary .sub) hsymbol text

theorem tokensFrom_twice {c : Char} (hc : isSign c = true) (text cs : List Char) :
    tokensFrom text [] (c :: c :: cs) = (tokensFrom text [] cs).map (stepToken c :: ·) := by
  rcases isSign_iff.mp hc with rfl | rfl
  · exact tokensFrom_symbol (s := .step .increment) rfl text
  · exact tokensFrom_symbol (s := .step .decrement) rfl text

/-! ## 2. The tokens of a constant -/

theorem isConstantRest_eq_isRest (c : Char) : isConstantRest c = Name.isRest c := by
  simp only [isConstantRest, Name.isRest, Name.isStart]
  cases isAsciiDigit c <;> simp

/-- A character of a constant that is no hexadecimal digit can start a name. -/
theorem isStart_of_not_hex {d : Char} (h : isConstantRest d = true) (hhex : (hexValue? d).isSome = false) :
    Name.isStart d = true := by
  have hdigit : isAsciiDigit d = false := by
    by_contra hd
    have hd : ('0' ≤ d && d ≤ '9') = true := eq_true_of_ne_false hd
    simp [hexValue?, hd] at hhex
  rw [isConstantRest_eq_isRest, Name.isRest, hdigit, Bool.or_false] at h
  exact h

theorem isConstant_cons {c : Char} {cs : List Char} (h : isConstant (c :: cs) = true) :
    isAsciiDigit c = true ∧
      ((∃ d after, cs.dropWhile isAsciiDigit = '#' :: d :: after ∧ ∀ x ∈ d :: after, isBaseDigit x = true) ∨
        ∀ x ∈ cs, isConstantRest x = true) := by
  unfold isConstant at h
  simp only [Bool.and_eq_true, Bool.or_eq_true] at h
  obtain ⟨hc, hbased | hplain⟩ := h
  · refine ⟨hc, .inl ?_⟩
    split at hbased
    · next d after heq => exact ⟨d, after, heq, List.all_eq_true.mp hbased⟩
    · cases hbased
  · exact ⟨hc, .inr (List.all_eq_true.mp hplain)⟩

/-- A constant with its base in front is not cut. -/
theorem constantExtent_based {c d : Char} {cs after : List Char}
    (h : cs.dropWhile isAsciiDigit = '#' :: d :: after) (hall : ∀ x ∈ d :: after, isBaseDigit x = true) :
    constantExtent c cs = cs.length := by
  have hrun : (d :: after).takeWhile isBaseDigit = d :: after := List.takeWhile_eq_self_iff.mpr hall
  have hlength := congrArg List.length (List.takeWhile_append_dropWhile (p := isAsciiDigit) (l := cs))
  rw [h, List.length_append] at hlength
  unfold constantExtent
  dsimp only
  rw [drop_length_takeWhile, h]
  simp only [hrun]
  rw [if_pos (by simp), ← hlength, Nat.add_assoc, Nat.add_comm 1]
  rfl

/-- A constant without a base in front is not cut, or it is cut behind hexadecimal digits. -/
theorem constantExtent_plain (c : Char) {cs : List Char} (hall : ∀ x ∈ cs, isConstantRest x = true) :
    constantExtent c cs = cs.length ∨
      ∃ x after, cs = x :: after ∧
        constantExtent c cs = 1 + (after.takeWhile fun d => (hexValue? d).isSome).length := by
  have hrun : cs.takeWhile isConstantRest = cs := List.takeWhile_eq_self_iff.mpr hall
  have hbase : ∀ after, cs.dropWhile isAsciiDigit ≠ '#' :: after := by
    intro after h
    have hmem : '#' ∈ cs := (List.dropWhile_sublist _).subset (h ▸ List.mem_cons_self)
    exact absurd (hall _ hmem) (by decide)
  unfold constantExtent
  dsimp only
  rw [drop_length_takeWhile, hrun]
  split
  · exact absurd ‹_› (hbase _)
  · simp only [Nat.lt_irrefl, if_false]
    split
    · next x after _ =>
      by_cases hx : x = 'x' ∨ x = 'X'
      · simp only [hx, if_true]
        split
        · exact .inr ⟨x, after, rfl, rfl⟩
        · exact .inl rfl
      · simp [hx]
    · simp

/-- What is left of a constant behind hexadecimal digits is a name. -/
theorem tokensFrom_leftover {d : Char} {ds : List Char} (hrest : ∀ e ∈ d :: ds, isConstantRest e = true)
    (hhex : (hexValue? d).isSome = false) (text : List Char) :
    tokensFrom text [] (d :: ds) = .ok [.name (d :: ds)] := by
  have hd : Name.isStart d = true := isStart_of_not_hex (hrest d List.mem_cons_self) hhex
  have hds : ∀ e ∈ ds, Name.isRest e = true := by
    intro e he
    rw [← isConstantRest_eq_isRest]
    exact hrest e (List.mem_cons_of_mem d he)
  have hend : ∀ e ∈ ([] : List Char).head?, Name.isRest e = false := nofun
  have hname := tokensFrom_name hd hds hend text
  rw [List.append_nil, tokensFrom_nil] at hname
  exact hname

/-- **A constant is one token, or a token and a name.** -/
theorem tokensFrom_constant {body : List Char} (h : isConstant body = true) :
    (∀ text, tokensFrom text [] body = .ok [.numeral body]) ∨
      ∃ front back, ∀ text, tokensFrom text [] body = .ok [.numeral front, .name back] := by
  cases body with
  | nil => cases h
  | cons c cs =>
    obtain ⟨hc, hform⟩ := isConstant_cons h
    -- A constant that reaches to the end is the only token.
    have hwhole : constantExtent c cs = cs.length →
        ∀ text, tokensFrom text [] (c :: cs) = .ok [.numeral (c :: cs)] := by
      intro hextent text
      rw [tokensFrom_numeral hc (List.append_nil cs).symm hextent, tokensFrom_nil]
      rfl
    rcases hform with ⟨d, after, hbased, hall⟩ | hall
    · exact .inl (hwhole (constantExtent_based hbased hall))
    · rcases constantExtent_plain c hall with hextent | ⟨x, after, rfl, hextent⟩
      · exact .inl (hwhole hextent)
      · have hsplit := List.takeWhile_append_dropWhile (p := fun d => (hexValue? d).isSome) (l := after)
        cases hback : after.dropWhile fun d => (hexValue? d).isSome with
        | nil =>
          rw [hback, List.append_nil] at hsplit
          exact .inl (hwhole (by rw [hextent, hsplit, List.length_cons, Nat.add_comm]))
        | cons d ds =>
          have hrest : ∀ e ∈ d :: ds, isConstantRest e = true := by
            intro e he
            rw [← hback] at he
            exact hall e (List.mem_cons_of_mem x ((List.dropWhile_sublist _).subset he))
          have hhex : (hexValue? d).isSome = false := by
            simpa [hback] using List.head?_dropWhile_not (fun d => (hexValue? d).isSome) after
          refine .inr ⟨c :: x :: after.takeWhile fun d => (hexValue? d).isSome, d :: ds, fun text => ?_⟩
          have hcut := tokensFrom_numeral hc
            (show x :: after = (x :: after.takeWhile fun d => (hexValue? d).isSome) ++
              after.dropWhile fun d => (hexValue? d).isSome by rw [List.cons_append, hsplit])
            (by rw [hextent, List.length_cons, Nat.add_comm]) text
          rw [hcut, hback, tokensFrom_leftover hrest hhex]
          rfl

/-! ## 3. The tokens of signs and a constant -/

section

variable {signs body : List Char} (hsigns : ∀ c ∈ signs, isSign c = true) (hbody : isConstant body = true)

include hsigns hbody

/-- The first character is a sign or a digit. -/
theorem exists_cons_signed : ∃ next cs, signs ++ body = next :: cs ∧ next ≠ '=' := by
  cases signs with
  | nil =>
    cases body with
    | nil => cases hbody
    | cons c cs =>
      refine ⟨c, cs, rfl, ?_⟩
      rintro rfl
      exact absurd (isConstant_cons hbody).1 (by decide)
  | cons c signs =>
    refine ⟨c, signs ++ body, rfl, ?_⟩
    rintro rfl
    exact absurd (hsigns '=' List.mem_cons_self) (by decide)

/-- Signs that alternate are tokens by themselves. -/
theorem tokensFrom_alternating (halternate : signs.IsChain (· ≠ ·)) (text : List Char) :
    tokensFrom text [] (signs ++ body) = (tokensFrom text [] body).map (signs.map signToken ++ ·) := by
  induction signs with
  | nil =>
    rw [List.nil_append]
    cases tokensFrom text [] body <;> rfl
  | cons c signs ih =>
    obtain ⟨hc, hsigns⟩ := List.forall_mem_cons.mp hsigns
    obtain ⟨next, cs, hcs, heq⟩ := exists_cons_signed hsigns hbody
    have hnext : next ≠ c := by
      cases signs with
      | nil =>
        rintro rfl
        have hdigit : isAsciiDigit next = true := by
          rw [List.nil_append] at hcs
          rw [hcs] at hbody
          exact (isConstant_cons hbody).1
        rw [isSign_of_isAsciiDigit hdigit] at hc
        cases hc
      | cons d signs =>
        obtain ⟨rfl, -⟩ := List.cons.inj hcs
        exact (List.isChain_cons_cons.mp halternate).1.symm
    rw [List.cons_append, hcs, tokensFrom_sign hc hnext heq, ← hcs, ih hsigns halternate.tail]
    cases tokensFrom text [] body <;> rfl

end

/-! ## 4. Reading signs and a constant -/

/-- The operator that a sign is. -/
def signOp (c : Char) : UnaryOp := if c = '-' then .minus else .plus

/-- The tree of signs in front of an operand. -/
def signedTree (signs : List Char) (operand : Expr) : Expr :=
  signs.foldr (fun c e => .unary (signOp c) e) operand

section

variable {text : List Char} {nested : Construct → Reader}

theorem readUnary_signToken (c : Char) (ts : List Token) :
    readUnary text nested (signToken c :: ts) =
      (readUnary text nested ts).map fun result => (.unary (signOp c) result.1, result.2) := by
  by_cases hc : c = '-' <;> simp only [signToken, signOp, hc, if_true, if_false, readUnary] <;>
    cases readUnary text nested ts <;> rfl

theorem readUnary_signs (signs : List Char) (ts : List Token) :
    readUnary text nested (signs.map signToken ++ ts) =
      (readUnary text nested ts).map fun result => (signedTree signs result.1, result.2) := by
  induction signs with
  | nil =>
    rw [List.map_nil, List.nil_append]
    cases readUnary text nested ts <;> rfl
  | cons c signs ih =>
    rw [List.map_cons, List.cons_append, readUnary_signToken, ih]
    cases readUnary text nested ts <;> rfl

theorem readUnary_numeral (constant : List Char) {ts : List Token} (hts : Stops 14 ts) :
    readUnary text nested (.numeral constant :: ts) =
      (readConstant constant).map fun value => (.number value, ts) := by
  have hprimary : readPrimary text nested (.numeral constant :: ts) =
      (readConstant constant).map fun value => (.number value, ts) := readPrimary_numeral constant ts
  cases hvalue : readConstant constant with
  | error failure =>
    rw [hvalue] at hprimary
    show readPostfix text nested (.numeral constant :: ts) = _
    rw [readPostfix, hprimary]
    rfl
  | ok value =>
    rw [hvalue] at hprimary
    have hlevel : readLevel text nested 0 16 (.numeral constant :: ts) = .ok (.number value, ts) := hprimary
    exact readLevel_of_tighter (show 14 ≤ 16 by decide) (by decide) hlevel hts

theorem readUnary_signed (signs constant : List Char) {ts : List Token} (hts : Stops 14 ts) :
    readUnary text nested (signs.map signToken ++ .numeral constant :: ts) =
      (readConstant constant).map fun value => (signedTree signs (.number value), ts) := by
  rw [readUnary_signs, readUnary_numeral constant hts]
  cases readConstant constant <;> rfl

/-- A change by one cannot stand before anything but a name. -/
theorem readUnary_stepToken (c : Char) {ts : List Token} (hts : ∀ x after, ts ≠ .name x :: after) :
    ∃ failure, readUnary text nested (stepToken c :: ts) = .error failure := by
  unfold stepToken readUnary
  split
  · exact ⟨_, rfl⟩
  · exact absurd rfl (hts _ _)
  · exact ⟨_, rfl⟩

end

section

variable {signs body : List Char} (hsigns : ∀ c ∈ signs, isSign c = true) (hbody : isConstant body = true)

include hsigns hbody

/-- A signed constant starts with a symbol or a numeral. -/
theorem tokensFrom_signed_head {text : List Char} {ts : List Token}
    (h : tokensFrom text [] (signs ++ body) = .ok ts) : ∃ t after, ts = t :: after ∧ ∀ x, t ≠ .name x := by
  cases signs with
  | nil =>
    rcases tokensFrom_constant hbody with hone | ⟨front, back, htwo⟩
    · rw [List.nil_append, hone] at h
      exact ⟨_, _, (Except.ok.inj h).symm, nofun⟩
    · rw [List.nil_append, htwo] at h
      exact ⟨_, _, (Except.ok.inj h).symm, nofun⟩
  | cons c signs =>
    obtain ⟨hc, hsigns⟩ := List.forall_mem_cons.mp hsigns
    obtain ⟨next, cs, hcs, heq⟩ := exists_cons_signed hsigns hbody
    rw [List.cons_append, hcs] at h
    by_cases hnext : next = c
    · subst hnext
      rw [tokensFrom_twice hc] at h
      cases hrest : tokensFrom text [] cs with
      | error failure => rw [hrest] at h; cases h
      | ok after => rw [hrest] at h; exact ⟨_, _, (Except.ok.inj h).symm, nofun⟩
    · rw [tokensFrom_sign hc hnext heq] at h
      cases hrest : tokensFrom text [] (next :: cs) with
      | error failure => rw [hrest] at h; cases h
      | ok after => rw [hrest] at h; exact ⟨_, _, (Except.ok.inj h).symm, nofun⟩

/-- Signs that do not alternate cannot be read. -/
theorem readUnary_of_not_alternating (halternate : ¬ signs.IsChain (· ≠ ·)) {text : List Char}
    (nested : Construct → Reader) {ts : List Token} (h : tokensFrom text [] (signs ++ body) = .ok ts) :
    ∃ failure, readUnary text nested ts = .error failure := by
  induction signs generalizing ts with
  | nil => exact absurd .nil halternate
  | cons c signs ih =>
    obtain ⟨hc, hrest⟩ := List.forall_mem_cons.mp hsigns
    cases signs with
    | nil => exact absurd (.singleton c) halternate
    | cons d signs =>
      -- The first pair of equal signs is here or further on.
      by_cases hd : d = c
      · -- Here is a pair of equal signs.
        subst hd
        rw [List.cons_append, List.cons_append, tokensFrom_twice hc] at h
        cases hafter : tokensFrom text [] (signs ++ body) with
        | error failure =>
          rw [hafter] at h
          cases h
        | ok after =>
          rw [hafter] at h
          obtain rfl := Except.ok.inj h
          obtain ⟨t, ts, rfl, ht⟩ := tokensFrom_signed_head (List.forall_mem_cons.mp hrest).2 hbody hafter
          exact readUnary_stepToken d fun x after heq => ht x (List.cons.inj heq).1
      · have heq : d ≠ '=' := by
          rintro rfl
          exact absurd (hrest '=' List.mem_cons_self) (by decide)
        have htail : ¬ (d :: signs).IsChain (· ≠ ·) := fun hchain =>
          halternate (List.isChain_cons_cons.mpr ⟨fun heq => hd heq.symm, hchain⟩)
        rw [List.cons_append, List.cons_append, tokensFrom_sign hc hd heq] at h
        cases hafter : tokensFrom text [] (d :: (signs ++ body)) with
        | error failure =>
          rw [hafter] at h
          cases h
        | ok after =>
          rw [hafter] at h
          obtain rfl := Except.ok.inj h
          obtain ⟨failure, hfailure⟩ := ih hrest htail hafter
          exact ⟨failure, by rw [readUnary_signToken, hfailure]; rfl⟩

end

/-! ## 5. The value of signs and a constant -/

section

variable {signs body : List Char} (hsigns : ∀ c ∈ signs, isSign c = true) (hbody : isConstant body = true)

include hsigns hbody

/-- What is no unary expression is no expression. -/
theorem parse_error_of_readUnary {ts : List Token} (hts : tokens (signs ++ body) = .ok ts)
    (h : ∃ failure, readUnary (signs ++ body) (readAt (signs ++ body) ts.length) ts = .error failure) :
    ∃ failure, parse (signs ++ body) = .error failure := by
  obtain ⟨failure, hfailure⟩ := h
  obtain ⟨t, after, rfl, ht⟩ := tokensFrom_signed_head hsigns hbody hts
  rw [parse_eq_of_tokens hts (List.cons_ne_nil _ _),
    readLevel_error_of_readUnary (by decide) (fun x op after heq => ht x (List.cons.inj heq).1) hfailure]
  exact ⟨failure, rfl⟩

/-- A unary expression is read as an expression, if at most a name is left behind it. -/
theorem parse_of_readUnary {ts rest : List Token} {e : Expr} (hts : tokens (signs ++ body) = .ok ts)
    (h : readUnary (signs ++ body) (readAt (signs ++ body) ts.length) ts = .ok (e, rest)) (hrest : Stops 0 rest) :
    parse (signs ++ body) = if rest.isEmpty then .ok (some e)
      else .error (.mistake (.invalidOperator (signs ++ body) (tokensText rest))) := by
  obtain ⟨t, after, rfl, -⟩ := tokensFrom_signed_head hsigns hbody hts
  rw [parse_eq_of_tokens hts (List.cons_ne_nil _ _),
    readLevel_of_tighter (Nat.zero_le 14) (by decide) h hrest]
  rfl

theorem tokens_signed (halternate : signs.IsChain (· ≠ ·)) {ts : List Token}
    (hts : ∀ text, tokensFrom text [] body = .ok ts) : tokens (signs ++ body) = .ok (signs.map signToken ++ ts) := by
  rw [tokens, tokensFrom_alternating hsigns hbody halternate, hts]
  rfl

/-- Signs that alternate and a constant that is one token are read as they are written. -/
theorem parse_signed (halternate : signs.IsChain (· ≠ ·)) (hone : tokens body = .ok [.numeral body])
    {value : Int64} (hvalue : readConstant body = .ok value) :
    parse (signs ++ body) = .ok (some (signedTree signs (.number value))) := by
  have hts : ∀ text, tokensFrom text [] body = .ok [.numeral body] := by
    rcases tokensFrom_constant hbody with h | ⟨front, back, h⟩
    · exact h
    · rw [tokens, h] at hone
      cases hone
  have hread := @readUnary_signed (signs ++ body)
    (readAt (signs ++ body) (signs.map signToken ++ [Token.numeral body]).length) signs body [] (stops_nil 14)
  rw [hvalue] at hread
  exact parse_of_readUnary hsigns hbody (tokens_signed hsigns hbody halternate hts) hread (stops_nil 0)

/-- All others are not read. -/
theorem parse_signed_error
    (h : ¬ (signs.IsChain (· ≠ ·) ∧ tokens body = .ok [.numeral body] ∧ ∃ value, readConstant body = .ok value)) :
    ∃ failure, parse (signs ++ body) = .error failure := by
  cases hts : tokens (signs ++ body) with
  | error failure => exact ⟨failure, by rw [parse, hts]; rfl⟩
  | ok ts =>
    by_cases halternate : signs.IsChain (· ≠ ·)
    · rcases tokensFrom_constant hbody with hone | ⟨front, back, htwo⟩
      · obtain rfl := Except.ok.inj (hts.symm.trans (tokens_signed hsigns hbody halternate hone))
        refine parse_error_of_readUnary hsigns hbody hts ?_
        rw [readUnary_signed signs body (stops_nil 14)]
        cases hvalue : readConstant body with
        | error failure => exact ⟨failure, rfl⟩
        | ok value => exact absurd ⟨halternate, hone body, value, hvalue⟩ h
      · obtain rfl := Except.ok.inj (hts.symm.trans (tokens_signed hsigns hbody halternate htwo))
        have hname : ∀ level, Stops level [.name back] := nofun
        have hread := @readUnary_signed (signs ++ body)
          (readAt (signs ++ body) (signs.map signToken ++ [Token.numeral front, Token.name back]).length)
          signs front [.name back] (hname 14)
        -- The piece may be read, but then the name is left.
        cases hvalue : readConstant front with
        | error failure =>
          rw [hvalue] at hread
          exact parse_error_of_readUnary hsigns hbody hts ⟨failure, hread⟩
        | ok value =>
          rw [hvalue] at hread
          exact ⟨_, parse_of_readUnary hsigns hbody hts hread (hname 0)⟩
    · exact parse_error_of_readUnary hsigns hbody hts (readUnary_of_not_alternating hsigns hbody halternate _ hts)

end

/-- A word with signs in front of it: each minus sign negates. -/
theorem eval_signedTree {σ : Type} (store : Store σ) (resolve : String → Eval σ Int64) (text signs : List Char)
    (value : Int64) :
    (signedTree signs (.number value)).eval store resolve text =
      pure (if Odd (signs.count '-') then -value else value) := by
  induction signs with
  | nil => rfl
  | cons c signs ih =>
    have hop : (signOp c).apply (if Odd (signs.count '-') then -value else value) =
        if Odd ((c :: signs).count '-') then -value else value := by
      -- A minus changes the parity and the sign, and a plus neither of them.
      by_cases hc : c = '-'
      · subst hc
        by_cases hodd : Odd (signs.count '-')
        · have hnext : ¬ Odd (('-' :: signs).count '-') := by
            rw [List.count_cons_self, Nat.not_odd_iff_even]
            exact hodd.add_one
          simp only [hodd, hnext, if_true, if_false]
          exact Int64.neg_neg
        · have hnext : Odd (('-' :: signs).count '-') := by
            rw [List.count_cons_self]
            exact (Nat.not_odd_iff_even.mp hodd).add_one
          simp only [hodd, hnext, if_true, if_false]
          rfl
      · rw [List.count_cons_of_ne hc, signOp, if_neg hc]
        rfl
    show (do return (signOp c).apply (← (signedTree signs (.number value)).eval store resolve text)) = _
    rw [ih, pure_bind, hop]

/-! ## 6. Reading at once and evaluating -/

section

variable {σ : Type} {store : Store σ}

/-- Two evaluations come to the same from a store: to one value or both to a failure, and to one store. -/
def Eval.AgreesFrom (s : σ) (x y : Eval σ Int64) : Prop :=
  (x.run s).1.toOption = (y.run s).1.toOption ∧ (x.run s).2 = (y.run s).2

theorem evaluateWith_run (resolve : String → Eval σ Int64) (text : List Char) (s : σ) :
    (evaluateWith store resolve text).run s = match parse text with
      | .error failure => (.error failure, s)
      | .ok none => (.ok 0, s)
      | .ok (some e) => (e.eval store resolve text).run s := by
  unfold evaluateWith
  rw [Eval.run_bind]
  cases parse text with
  | error failure => rfl
  | ok result => cases result <;> rfl

/-- A text that is not blank is read at once if it is a constant with signs in front, and is evaluated if not. -/
theorem resolve_run {s : σ} {name : String} {value : List Char}
    (hvalue : trim ((store.lookup s name).getD "").toList = value) (hne : value ≠ []) (depth : Nat) :
    (resolve store (depth + 1) name).run s =
      if isConstant (value.dropWhile isSign) then
        ((readConstant (value.dropWhile isSign)).map fun n => if value.head? = some '-' then -n else n, s)
      else (evaluateWith store (resolve store depth) value).run s := by
  unfold resolve
  rw [Eval.run_bind]
  show (if (trim ((store.lookup s name).getD "").toList).isEmpty = true then _ else _ : Eval σ Int64).run s = _
  rw [hvalue, if_neg (by simpa using hne)]
  show (if isConstant (value.dropWhile isSign) = true then _ else _ : Eval σ Int64).run s = _
  by_cases hconstant : isConstant (value.dropWhile isSign) = true
  · rw [if_pos hconstant, if_pos hconstant, Eval.run_bind]
    have hbody : (value.dropWhile fun c => c == '+' || c == '-') = value.dropWhile isSign := rfl
    rw [hbody]
    cases readConstant (value.dropWhile isSign) <;> rfl
  · rw [if_neg hconstant, if_neg hconstant]

/-- A word is its own negative only if it is zero or the least one. -/
theorem eq_neg_iff (n : Int64) : n = -n ↔ n = 0 ∨ n = Int64.minValue := by
  constructor
  · intro h
    have hneg := congrArg Int64.toInt h
    have hlow := n.le_toInt
    have hhigh := n.toInt_lt
    rw [Int64.toInt_neg] at hneg
    rw [← Int64.toInt_inj, ← Int64.toInt_inj]
    by_cases hleast : n.toInt = -2 ^ 63
    · exact .inr hleast
    · rw [Int.bmod_eq_of_le (by omega) (by omega)] at hneg
      exact .inl (show n.toInt = 0 by omega)
  · rintro (rfl | rfl) <;> decide

/-- The first sign has the same say as all of them together, or no sign has any. -/
theorem signed_eq_iff (negative odd : Prop) [Decidable negative] [Decidable odd] (n : Int64) :
    (if negative then -n else n) = (if odd then -n else n) ↔
      ((odd ↔ negative) ∨ n = 0 ∨ n = Int64.minValue) := by
  rw [← eq_neg_iff]
  by_cases hnegative : negative <;> by_cases hodd : odd <;> simp [hnegative, hodd, eq_comm]

/-- A constant does not start with a sign. -/
theorem head?_not_isSign {body : List Char} (hbody : isConstant body = true) :
    ∀ c ∈ body.head?, isSign c = false := by
  intro c hc
  cases body with
  | nil => cases hc
  | cons d body =>
    obtain rfl := Option.some.inj hc
    exact isSign_of_isAsciiDigit (isConstant_cons hbody).1

/-- A text is divided into signs and a constant in one way. -/
theorem takeWhile_dropWhile_signed {signs body : List Char} (hsigns : ∀ c ∈ signs, isSign c = true)
    (hbody : isConstant body = true) :
    (signs ++ body).takeWhile isSign = signs ∧ (signs ++ body).dropWhile isSign = body := by
  have htake := takeWhile_append_of_head? hsigns (head?_not_isSign hbody)
  have hsplit := List.takeWhile_append_dropWhile (p := isSign) (l := signs ++ body)
  rw [htake] at hsplit
  exact ⟨htake, List.append_cancel_left hsplit⟩

/-- When a constant with signs in front is the value of its text. -/
theorem resolve_agrees_signed_iff {signs body : List Char} (hsigns : ∀ c ∈ signs, isSign c = true)
    (hbody : isConstant body = true) {s : σ} {name : String}
    (hvalue : trim ((store.lookup s name).getD "").toList = signs ++ body) (depth : Nat) :
    Eval.AgreesFrom s (resolve store (depth + 1) name) (evaluateWith store (resolve store depth) (signs ++ body)) ↔
      ∀ n, readConstant body = .ok n → signs.IsChain (· ≠ ·) ∧ tokens body = .ok [.numeral body] ∧
        ((Odd (signs.count '-') ↔ signs.head? = some '-') ∨ n = 0 ∨ n = Int64.minValue) := by
  obtain ⟨next, cs, hcs, -⟩ := exists_cons_signed hsigns hbody
  have hne : signs ++ body ≠ [] := hcs ▸ List.cons_ne_nil next cs
  have hresolve := resolve_run hvalue hne depth
  rw [(takeWhile_dropWhile_signed hsigns hbody).2, if_pos hbody] at hresolve
  unfold Eval.AgreesFrom
  rw [hresolve, evaluateWith_run]
  -- The evaluator has a value exactly if the signs alternate and the constant is one token that can be read.
  by_cases hread : signs.IsChain (· ≠ ·) ∧ tokens body = .ok [.numeral body] ∧ ∃ n, readConstant body = .ok n
  · obtain ⟨halternate, hone, n, hn⟩ := hread
    have hhead : (signs ++ body).head? = some '-' ↔ signs.head? = some '-' := by
      cases signs with
      | cons c signs => rfl
      | nil =>
        rw [List.nil_append]
        refine ⟨fun h => ?_, nofun⟩
        have hminus := head?_not_isSign hbody '-' h
        cases hminus
    have hvalues := signed_eq_iff ((signs ++ body).head? = some '-') (Odd (signs.count '-')) n
    rw [parse_signed hsigns hbody halternate hone hn, hn]
    simp only [eval_signedTree]
    show (some (if (signs ++ body).head? = some '-' then -n else n) =
      some (if Odd (signs.count '-') then -n else n) ∧ s = s) ↔ _
    rw [Option.some_inj, hvalues, hhead]
    constructor
    · rintro ⟨h, -⟩ n' hn'
      obtain rfl := Except.ok.inj hn'
      exact ⟨halternate, hone, h⟩
    · exact fun h => ⟨(h n rfl).2.2, rfl⟩
  · obtain ⟨failure, hfailure⟩ := parse_signed_error hsigns hbody hread
    rw [hfailure]
    cases hn : readConstant body with
    | error failure' => simp [Except.map, Except.toOption]
    | ok n =>
      constructor
      · intro h
        cases h.1
      · intro h
        obtain ⟨halternate, hone, -⟩ := h n rfl
        exact absurd ⟨halternate, hone, n, hn⟩ hread

/-- **When the value of a variable is the value of its text.** They are the same but for a constant with signs in
front that is read at once, and evaluated to something else: its signs do not alternate, or it is cut into several
tokens, or its signs together do not say what the first one says of a number for which it makes a difference. -/
theorem resolve_agrees_iff {s : σ} {name : String} {value : List Char}
    (hvalue : trim ((store.lookup s name).getD "").toList = value) (hne : value ≠ []) (depth : Nat) :
    Eval.AgreesFrom s (resolve store (depth + 1) name) (evaluateWith store (resolve store depth) value) ↔
      ∀ signs body n, value = signs ++ body → (∀ c ∈ signs, isSign c = true) → isConstant body = true →
        readConstant body = .ok n →
        signs.IsChain (· ≠ ·) ∧ tokens body = .ok [.numeral body] ∧
          ((Odd (signs.count '-') ↔ signs.head? = some '-') ∨ n = 0 ∨ n = Int64.minValue) := by
  by_cases hsigned : ∃ signs body, value = signs ++ body ∧ (∀ c ∈ signs, isSign c = true) ∧ isConstant body = true
  · obtain ⟨signs, body, rfl, hsigns, hbody⟩ := hsigned
    rw [resolve_agrees_signed_iff hsigns hbody hvalue depth]
    constructor
    · intro h signs' body' n heq hsigns' hbody' hn
      -- There is one way only to divide the text into signs and a constant.
      obtain ⟨htake, hdrop⟩ := takeWhile_dropWhile_signed hsigns hbody
      obtain ⟨htake', hdrop'⟩ := takeWhile_dropWhile_signed hsigns' hbody'
      rw [heq] at htake hdrop
      obtain rfl := htake.symm.trans htake'
      obtain rfl := hdrop.symm.trans hdrop'
      exact h n hn
    · exact fun h n hn => h signs body n rfl hsigns hbody hn
  · have hsame := resolve_run hvalue hne depth
    rw [if_neg fun hconstant => hsigned ⟨_, _, List.takeWhile_append_dropWhile.symm,
      fun c => List.mem_takeWhile_imp, hconstant⟩] at hsame
    constructor
    · exact fun _ signs body n heq hsigns hbody => absurd ⟨signs, body, heq, hsigns, hbody⟩ hsigned
    · intro _
      exact ⟨by rw [hsame], by rw [hsame]⟩

end

/-- A table of variables. -/
def tables : Store (Table String) := ⟨Table.get?, Table.insert⟩

/-- `x` is `+-5`. -/
def plusMinusFive : Table String := (∅ : Table String).insert "x" "+-5"

theorem trim_plusMinusFive : trim ((tables.lookup plusMinusFive "x").getD "").toList = ['+', '-', '5'] := by
  decide

theorem tokens_five : tokens ['5'] = .ok [.numeral ['5']] := by
  have hcut := tokensFrom_numeral (c := '5') (by decide) (List.append_nil []).symm (by decide) ['5']
  rw [tokensFrom_nil] at hcut
  exact hcut

theorem readConstant_five : readConstant ['5'] = .ok 5 := by
  have hsmall : 5 < 10 ^ maxDigits := by
    refine Nat.lt_of_lt_of_le (by decide : 5 < 10 ^ 1) ?_
    exact Nat.pow_le_pow_right (by decide) (by decide)
  exact readConstant_toDigits hsmall

/-- `+-5` is five if it is read at once, and minus five if it is evaluated. -/
theorem plusMinusFive_values :
    (resolve tables 32 "x").run plusMinusFive = (.ok 5, plusMinusFive) ∧
      (evaluateWith tables (resolve tables 31) ['+', '-', '5']).run plusMinusFive = (.ok (-5), plusMinusFive) := by
  have hsigns : ∀ c ∈ ['+', '-'], isSign c = true := by simp [isSign]
  have hparse : parse (['+', '-'] ++ ['5']) = .ok (some (signedTree ['+', '-'] (.number 5))) :=
    parse_signed hsigns (by decide) (by decide) tokens_five readConstant_five
  constructor
  · rw [resolve_run trim_plusMinusFive (by decide)]
    show ((readConstant ['5']).map fun n => if '+' = '-' then -n else n, plusMinusFive) = _
    rw [readConstant_five]
    rfl
  · show (evaluateWith tables (resolve tables 31) (['+', '-'] ++ ['5'])).run plusMinusFive = _
    rw [evaluateWith_run, hparse]
    rfl

theorem plusMinusFive_disagrees :
    trim ((tables.lookup plusMinusFive "x").getD "").toList = ['+', '-', '5'] ∧
      ¬ Eval.AgreesFrom plusMinusFive (resolve tables 32 "x")
        (evaluateWith tables (resolve tables 31) ['+', '-', '5']) := by
  refine ⟨trim_plusMinusFive, fun h => ?_⟩
  obtain ⟨-, -, hsigns⟩ := (resolve_agrees_iff trim_plusMinusFive (by decide) 31).mp h ['+', '-'] ['5'] 5 rfl
    (by simp [isSign]) (by decide) readConstant_five
  revert hsigns
  decide

end Shell.Arithmetic
