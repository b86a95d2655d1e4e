/-
The levels of the grammar of expressions.

The readers form a ladder: each takes what the next tighter one takes, and more if a symbol of its own level comes
behind it. `readLevel` gives them numbers, from 0 for comma lists to 16 for primary expressions. What comes behind
decides how far up a construct is handed on: as long as the symbol behind it belongs to a looser level, or there is
none, a reader comes to what the tighter reader comes to (`readLevel_eq_next`). Eleven levels group from the left;
they have one form (`readLevel_chain`).
-/
import Shell.Arithmetic.Parser

set_option autoImplicit false

namespace Shell.Arithmetic

/-! ## 1. Levels of operators and symbols -/

/-- The level of a binary operator: 3 for the loosest, 13 for `**`. -/
def BinaryOp.level (op : BinaryOp) : Nat := 3 + binaryLevels.findIdx (op ∈ ·)

/-- The level of the construct that goes on with a symbol behind its first operand. An assignment goes on behind a
name only, as a change by one does, and never behind a looser construct. -/
def Symbol.level? : Symbol → Option Nat
  | .comma => some 0
  | .question => some 2
  | .binary op => some op.level
  | .assign _ | .step _ => some 15
  | .bang | .tilde | .leftParen | .rightParen | .colon => none

/-- No symbol is next that goes on with a construct of a level or a tighter one. -/
def Stops (level : Nat) (rest : List Token) : Prop :=
  ∀ s, rest.head? = some (.symbol s) → ∀ k, s.level? = some k → k < level

theorem Stops.mono {level level' : Nat} {rest : List Token} (h : Stops level rest) (hle : level ≤ level') :
    Stops level' rest :=
  fun s hs k hk => Nat.lt_of_lt_of_le (h s hs k hk) hle

theorem stops_nil (level : Nat) : Stops level [] := nofun

theorem stops_symbol {level : Nat} {s : Symbol} {rest : List Token}
    (h : ∀ k, s.level? = some k → k < level) : Stops level (.symbol s :: rest) := by
  intro s' hs'
  obtain rfl := Token.symbol.inj (Option.some.inj hs')
  exact h

theorem Stops.ne_symbol {level : Nat} {rest : List Token} (h : Stops level rest) {s : Symbol} {k : Nat}
    (hs : s.level? = some k) (hk : level ≤ k) (ts : List Token) : rest ≠ .symbol s :: ts := by
  rintro rfl
  exact Nat.not_lt_of_le hk (h s rfl k hs)

theorem BinaryOp.level_bounds (op : BinaryOp) : 3 ≤ op.level ∧ op.level ≤ 13 := by
  cases op <;> decide

/-- The operators of a level stand in one row of the table. -/
theorem mem_binaryLevels_iff {k : Nat} (hk : k < 10) (op : BinaryOp) :
    op ∈ binaryLevels.getD k [] ↔ op.level = k + 3 := by
  have hall : ∀ k : Fin 10, ∀ op ∈ [BinaryOp.or, .and, .bitOr, .bitXor, .bitAnd, .eq, .ne, .lt, .gt, .le, .ge, .shl,
      .shr, .add, .sub, .mul, .div, .rem, .pow], op ∈ binaryLevels.getD k [] ↔ op.level = k + 3 := by
    decide
  exact hall ⟨k, hk⟩ op (by cases op <;> decide)

/-! ## 2. The readers by level -/

section

variable (text : List Char) (nested : Construct → Reader) (n : Nat)

/-- The reader of the constructs of a level and tighter ones. -/
def readLevel : Nat → Reader
  | 0 => readComma text nested n
  | 1 => readAssignment text nested n
  | 2 => readConditional text nested n
  | k + 3 =>
    if k ≤ 10 then readBinary text nested n (binaryLevels.drop k)
    else if k = 11 then readUnary text nested
    else if k = 12 then readPostfix text nested
    else readPrimary text nested

/-- The tree that a symbol makes of the operands at its sides, if it groups from the left and is of the level. -/
def leftNode? (level : Nat) : Symbol → Option (Expr → Expr → Expr)
  | .comma => if level = 0 then some .comma else none
  | .binary op => if op.level = level then some (.binary op) else none
  | _ => none

/-- More operands after `left`, at most `n` of them, with symbols between them that group from the left. -/
def readChain (level : Nat) (operand : Reader) : Nat → Expr → Reader
  | 0, left, ts => .ok (left, ts)
  | n + 1, left, ts =>
    match ts with
    | .symbol s :: rest =>
      match leftNode? level s with
      | some node => do
        let (right, rest) ← operand rest
        readChain level operand n (node left right) rest
      | none => .ok (left, ts)
    | _ => .ok (left, ts)

/-- The levels that group from the left. -/
def GroupsLeft (level : Nat) : Prop := level = 0 ∨ 3 ≤ level ∧ level ≤ 12

instance (level : Nat) : Decidable (GroupsLeft level) :=
  inferInstanceAs (Decidable (level = 0 ∨ 3 ≤ level ∧ level ≤ 12))

theorem GroupsLeft.lt {level : Nat} (h : GroupsLeft level) : level < 16 := by
  unfold GroupsLeft at h
  omega

/-- The operators other than `**` group from the left. -/
theorem BinaryOp.groupsLeft {op : BinaryOp} (h : op ≠ .pow) : GroupsLeft op.level := by
  cases op <;> first | exact absurd rfl h | decide

variable {text nested n}

theorem leftNode?_eq_none {level : Nat} {s : Symbol} (h : s.level? ≠ some level) : leftNode? level s = none := by
  cases s with
  | comma => exact if_neg fun hlevel => h (congrArg some hlevel.symm)
  | binary op => exact if_neg fun hlevel => h (congrArg some hlevel)
  | _ => rfl

theorem readChain_of_stops {level : Nat} {rest : List Token} (h : Stops level rest) (operand : Reader) (n : Nat)
    (left : Expr) : readChain level operand n left rest = .ok (left, rest) := by
  cases n with
  | zero => rfl
  | succ n =>
    unfold readChain
    split
    · next s rest =>
      rw [leftNode?_eq_none fun hs => Nat.lt_irrefl level (h s rfl level hs)]
    · rfl

theorem readOperands_eq_readChain {k : Nat} (hk : k < 10) (operand : Reader) (n : Nat) (left : Expr)
    (ts : List Token) :
    readOperands (binaryLevels.getD k []) operand n left ts = readChain (k + 3) operand n left ts := by
  induction n generalizing left ts with
  | zero => rfl
  | succ n ih =>
    match ts with
    | [] | .numeral _ :: _ | .name _ :: _ => rfl
    | .symbol s :: rest =>
      -- The symbol is an operator of this level, or both readers stop in front of it.
      by_cases hs : ∃ op, s = .binary op ∧ op.level = k + 3
      · obtain ⟨op, rfl, hop⟩ := hs
        rw [readOperands, if_pos ((mem_binaryLevels_iff hk op).mpr hop), readChain]
        simp only [leftNode?, hop, if_true]
        cases operand rest with
        | error failure => rfl
        | ok result => exact ih _ _
      · have hnone : leftNode? (k + 3) s = none := by
          cases s with
          | binary op => exact if_neg fun hop => hs ⟨op, rfl, hop⟩
          | _ => rfl
        rw [readChain]
        simp only [hnone]
        cases s with
        | binary op => rw [readOperands, if_neg fun hmem => hs ⟨op, rfl, (mem_binaryLevels_iff hk op).mp hmem⟩]
        | _ => rfl

theorem readMembers_eq_readChain (k : Nat) (left : Expr) (ts : List Token) :
    readMembers text nested n k left ts = readChain 0 (readAssignment text nested n) k left ts := by
  induction k generalizing left ts with
  | zero => rfl
  | succ k ih =>
    match ts with
    | [] | .numeral _ :: _ | .name _ :: _ => rfl
    | .symbol s :: rest =>
      -- A comma is the only symbol that makes a node at this level.
      by_cases hs : s = .comma
      · subst hs
        rw [readMembers, readChain]
        simp only [leftNode?, if_true]
        cases readAssignment text nested n rest with
        | error failure => rfl
        | ok result => exact ih _ _
      · have hnone : leftNode? 0 s = none := by
          cases s with
          | comma => exact absurd rfl hs
          | binary op => exact if_neg fun hop => by have := op.level_bounds; omega
          | _ => rfl
        rw [readChain]
        simp only [hnone]
        cases s with
        | comma => exact absurd rfl hs
        | _ => rfl

theorem readLevel_binary {k : Nat} (hk : k ≤ 10) :
    readLevel text nested n (k + 3) = readBinary text nested n (binaryLevels.drop k) := if_pos hk

/-- **The levels that group from the left read one operand and then a chain of further ones.** -/
theorem readLevel_chain {level : Nat} (h : GroupsLeft level) (ts : List Token) :
    readLevel text nested n level ts = (readLevel text nested n (level + 1) ts >>= fun result =>
      readChain level (readLevel text nested n (level + 1)) n result.1 result.2) := by
  rcases h with rfl | ⟨hlow, hhigh⟩
  · show (readAssignment text nested n ts >>= fun result => readMembers text nested n n result.1 result.2) = _
    simp only [readMembers_eq_readChain]
    rfl
  · obtain ⟨k, rfl⟩ := Nat.exists_eq_add_of_le' hlow
    have hk : k < 10 := by omega
    have hdrop : binaryLevels.drop k = binaryLevels.getD k [] :: binaryLevels.drop (k + 1) := by
      have hlength : k < binaryLevels.length := hk
      rw [List.drop_eq_getElem_cons hlength, List.getD_eq_getElem?_getD, List.getElem?_eq_getElem hlength,
        Option.getD_some]
    rw [Nat.add_right_comm, readLevel_binary (by omega), readLevel_binary (by omega), hdrop]
    show (readBinary text nested n (binaryLevels.drop (k + 1)) ts >>= fun result =>
      readOperands (binaryLevels.getD k []) _ n result.1 result.2) = _
    simp only [readOperands_eq_readChain hk]

/-! ## 3. Up the ladder -/

theorem readPrimary_numeral (constant : List Char) (ts : List Token) :
    readPrimary text nested (.numeral constant :: ts) =
      (readConstant constant).map fun value => (.number value, ts) := by
  rw [readPrimary]
  cases readConstant constant <;> rfl

/-- A primary expression does not start with a symbol, but for a parenthesis. -/
theorem readPrimary_symbol {s : Symbol} (h : s ≠ .leftParen) (ts : List Token) :
    readPrimary text nested (.symbol s :: ts) = .error (.mistake (.invalidOperator text s.text.toList)) := by
  cases s <;> first | rfl | exact absurd rfl h

theorem readPostfix_symbol {s : Symbol} (h : s ≠ .leftParen) (ts : List Token) :
    readPostfix text nested (.symbol s :: ts) = .error (.mistake (.invalidOperator text s.text.toList)) := by
  unfold readPostfix
  rw [readPrimary_symbol h]
  rfl

/-- What a postfix expression is, a unary expression is as well. -/
theorem readUnary_of_readPostfix {ts rest : List Token} {e : Expr}
    (h : readPostfix text nested ts = .ok (e, rest)) : readUnary text nested ts = .ok (e, rest) := by
  match ts with
  | [] | .numeral _ :: _ | .name _ :: _ => exact h
  | .symbol s :: ts =>
    by_cases hs : s = .leftParen
    · subst hs
      exact h
    · rw [readPostfix_symbol hs] at h
      cases h

/-- A variable that is assigned to is no conditional. -/
theorem readConditional_assigned (x : List Char) (op : Option BinaryOp) (ts : List Token) :
    readConditional text nested n (.name x :: .symbol (.assign op) :: ts) =
      .ok (.variable (String.ofList x), .symbol (.assign op) :: ts) := by
  cases n <;> rfl

/-- **A reader hands on what the next tighter one reads**, if no symbol of its own level comes behind. -/
theorem readLevel_of_next {level : Nat} (hlevel : level < 16) {ts rest : List Token} {e : Expr}
    (h : readLevel text nested n (level + 1) ts = .ok (e, rest)) (hstops : Stops level rest) :
    readLevel text nested n level ts = .ok (e, rest) := by
  -- Levels that group to the left are chains, and the other ones are five readers with an ending each.
  by_cases hgroups : GroupsLeft level
  · rw [readLevel_chain hgroups, h]
    exact readChain_of_stops hstops _ n e
  · unfold GroupsLeft at hgroups
    obtain rfl | rfl | rfl | rfl | rfl : level = 1 ∨ level = 2 ∨ level = 13 ∨ level = 14 ∨ level = 15 := by omega
    · change readConditional text nested n ts = .ok (e, rest) at h
      show readAssignment text nested n ts = _
      unfold readAssignment
      split
      · -- A name with an assignment behind it is read up to the symbol, where the reader does not stop.
        rw [readConditional_assigned] at h
        obtain ⟨-, rfl⟩ := Prod.mk.inj (Except.ok.inj h)
        exact absurd rfl (hstops.ne_symbol rfl (by decide : 1 ≤ 15) _)
      · rw [h]
        dsimp only [bind, Except.bind]
        split
        · exact absurd rfl (hstops.ne_symbol rfl (by decide : 1 ≤ 15) _)
        · rfl
    · change readBinary text nested n binaryLevels ts = .ok (e, rest) at h
      show readConditional text nested n ts = _
      rw [readConditional, h]
      dsimp only [bind, Except.bind]
      split
      · exact absurd rfl (hstops.ne_symbol rfl (Nat.le_refl 2) _)
      · rfl
    · change readUnary text nested ts = .ok (e, rest) at h
      show readPower text nested ts = _
      rw [readPower, h]
      dsimp only [bind, Except.bind]
      split
      · exact absurd rfl (hstops.ne_symbol rfl (Nat.le_refl 13) _)
      · rfl
    · exact readUnary_of_readPostfix h
    · change readPrimary text nested ts = .ok (e, rest) at h
      show readPostfix text nested ts = _
      rw [readPostfix, h]
      dsimp only [bind, Except.bind]
      split
      · exact absurd rfl (hstops.ne_symbol rfl (Nat.le_refl 15) _)
      · rfl

/-- A construct is read at each looser level that does not go on behind it. -/
theorem readLevel_of_tighter {level tighter : Nat} (hle : level ≤ tighter) (hhigh : tighter ≤ 16)
    {ts rest : List Token} {e : Expr} (h : readLevel text nested n tighter ts = .ok (e, rest))
    (hstops : Stops level rest) : readLevel text nested n level ts = .ok (e, rest) := by
  obtain ⟨d, rfl⟩ := Nat.exists_eq_add_of_le hle
  clear hle
  induction d generalizing level with
  | zero => exact h
  | succ d ih =>
    rw [← Nat.add_assoc, Nat.add_right_comm] at h hhigh
    exact readLevel_of_next (by omega) (ih (hstops.mono (Nat.le_succ level)) hhigh h) hstops

/-- **A reader fails where the next tighter one does**, down to the unary expressions, which may start with a symbol
of their own. Assignments look at two tokens before anything else is read. -/
theorem readLevel_error_of_next {level : Nat} (hlevel : level < 14) {ts : List Token}
    (hts : ∀ x op after, ts ≠ .name x :: .symbol (.assign op) :: after) {failure : Failure}
    (h : readLevel text nested n (level + 1) ts = .error failure) :
    readLevel text nested n level ts = .error failure := by
  by_cases hgroups : GroupsLeft level
  · rw [readLevel_chain hgroups, h]
    rfl
  · unfold GroupsLeft at hgroups
    obtain rfl | rfl | rfl : level = 1 ∨ level = 2 ∨ level = 13 := by omega
    · change readConditional text nested n ts = .error failure at h
      show readAssignment text nested n ts = _
      unfold readAssignment
      split
      · exact absurd rfl (hts _ _ _)
      · rw [h]
        rfl
    · change readBinary text nested n binaryLevels ts = .error failure at h
      show readConditional text nested n ts = _
      rw [readConditional, h]
      rfl
    · change readUnary text nested ts = .error failure at h
      show readPower text nested ts = _
      rw [readPower, h]
      rfl

theorem readLevel_error_of_readUnary {level : Nat} (hlevel : level ≤ 14) {ts : List Token}
    (hts : ∀ x op after, ts ≠ .name x :: .symbol (.assign op) :: after) {failure : Failure}
    (h : readUnary text nested ts = .error failure) : readLevel text nested n level ts = .error failure := by
  obtain ⟨d, hd⟩ := Nat.exists_eq_add_of_le hlevel
  induction d generalizing level with
  | zero =>
    obtain rfl : level = 14 := by omega
    exact h
  | succ d ih => exact readLevel_error_of_next (by omega) hts (ih (by omega) (by omega))

end

/-! ## 4. The whole expression -/

/-- An expression is read from the bottom of the ladder. -/
theorem parse_eq_of_tokens {text : List Char} {ts : List Token} (h : tokens text = .ok ts) (hne : ts ≠ []) :
    parse text = (readLevel text (readAt text ts.length) ts.length 0 ts >>= fun result =>
      if result.2.isEmpty then .ok (some result.1)
      else .error (.mistake (.invalidOperator text (tokensText result.2)))) := by
  unfold parse
  rw [h]
  show (if ts.isEmpty then _ else _) = _
  rw [if_neg (by simpa using hne)]
  rfl

end Shell.Arithmetic
