/-
The names in an expression.

A name token is the longest piece of text that is an identifier, and the readers take the names of a tree from
the tokens. So all names in a tree are identifiers (`parse_names`), and an evaluation assigns nothing else.
-/
import Shell.Proofs.Arithmetic.Assigning

set_option autoImplicit false

namespace Shell.Arithmetic

/-- The name that a token is, if it is one, is of a kind. -/
def Token.Names (P : String → Prop) : Token → Prop
  | .name x => P (String.ofList x)
  | .numeral _ | .symbol _ => True

/-! ## 1. Tokens -/

/-- The longest run of characters of a name, after a first one, is an identifier. -/
theorem isIdentifier_take {c : Char} (h : Name.isStart c = true) (cs : List Char) :
    Name.isIdentifier (c :: cs.take (cs.takeWhile Name.isRest).length) = true := by
  have htake : cs.take (cs.takeWhile Name.isRest).length = cs.takeWhile Name.isRest :=
    (List.prefix_iff_eq_take.mp (List.takeWhile_prefix _)).symm
  rw [htake]
  show (Name.isStart c && (cs.takeWhile Name.isRest).all Name.isRest) = true
  rw [h, List.all_takeWhile]
  rfl

/-- The name tokens of a text are identifiers. -/
theorem tokensFrom_names {text cs : List Char} {done ts : List Token} (h : tokensFrom text done cs = .ok ts)
    (hdone : ∀ t ∈ done, t.Names fun name => Name.isIdentifier name.toList = true) :
    ∀ t ∈ ts, t.Names fun name => Name.isIdentifier name.toList = true := by
  fun_induction tokensFrom text done cs with
  | case1 done =>
    obtain rfl := Except.ok.inj h
    exact fun t ht => hdone t (List.mem_reverse.mp ht)
  | case2 done c cs _ ih => exact ih h hdone
  | case3 done c cs _ _ n ih => exact ih h (List.forall_mem_cons.mpr ⟨trivial, hdone⟩)
  | case4 done c cs _ _ hstart n ih =>
    refine ih h (List.forall_mem_cons.mpr ⟨?_, hdone⟩)
    show Name.isIdentifier (String.ofList (c :: cs.take n)).toList = true
    rw [String.toList_ofList]
    exact isIdentifier_take hstart cs
  | case5 => cases h
  | case6 done c cs _ _ _ _ s _ ih => exact ih h (List.forall_mem_cons.mpr ⟨trivial, hdone⟩)
  | case7 => cases h

/-! ## 2. Readers

A reader keeps the names if the tree it reads has names of the tokens only. There is one lemma for each level of the
grammar, in its order. -/

section

variable {P : String → Prop} {text : List Char}

/-- What a reader comes to has only names of the kind, in its tree and in the tokens that are left. -/
def Reads (P : String → Prop) (x : Except Failure (Expr × List Token)) : Prop :=
  ∀ e rest, x = .ok (e, rest) → e.Names P ∧ ∀ t ∈ rest, t.Names P

/-- A reader takes names from nowhere but the tokens. -/
def Reader.Keeps (P : String → Prop) (read : Reader) : Prop :=
  ∀ ts : List Token, (∀ t ∈ ts, t.Names P) → Reads P (read ts)

/-- A tree with good names, and good tokens after it. -/
theorem reads_ok {e : Expr} {rest : List Token} (he : e.Names P) (hrest : ∀ t ∈ rest, t.Names P) :
    Reads P (.ok (e, rest)) := by
  rintro e' rest' h
  obtain ⟨rfl, rfl⟩ := Prod.mk.inj (Except.ok.inj h)
  exact ⟨he, hrest⟩

/-- An error reads no names. -/
theorem reads_error {failure : Failure} : Reads P (.error failure) := nofun

/-- One reader after the other. -/
theorem Reads.bind {x : Except Failure (Expr × List Token)}
    {f : Expr × List Token → Except Failure (Expr × List Token)} (hx : Reads P x)
    (hf : ∀ e rest, e.Names P → (∀ t ∈ rest, t.Names P) → Reads P (f (e, rest))) : Reads P (x >>= f) := by
  cases x with
  | error failure => exact reads_error
  | ok result =>
    obtain ⟨he, hrest⟩ := hx result.1 result.2 rfl
    exact hf result.1 result.2 he hrest

/-- The tokens after the first have good names. -/
theorem names_tail {t : Token} {ts : List Token} (h : ∀ t' ∈ t :: ts, t'.Names P) : ∀ t' ∈ ts, t'.Names P :=
  (List.forall_mem_cons.mp h).2

variable {nested : Construct → Reader} (hnested : ∀ construct, (nested construct).Keeps P)

include hnested

/-- A name, a number or an expression in parentheses. -/
theorem keeps_readPrimary : Reader.Keeps P (readPrimary text nested) := by
  intro ts hts
  unfold readPrimary
  split
  · exact reads_error
  · refine (hnested .comma _ (names_tail hts)).bind fun e rest he hrest => ?_
    dsimp only
    split
    · exact reads_ok he (names_tail hrest)
    · exact reads_error
  · next constant ts =>
    cases readConstant constant with
    | error failure => exact reads_error
    | ok value => exact reads_ok trivial (names_tail hts)
  · exact reads_ok (List.forall_mem_cons.mp hts).1 (names_tail hts)
  · exact reads_error

theorem keeps_readPostfix : Reader.Keeps P (readPostfix text nested) := by
  intro ts hts
  refine (keeps_readPrimary hnested ts hts).bind fun e rest he hrest => ?_
  dsimp only
  split
  · split
    · exact reads_ok he (names_tail hrest)
    · exact reads_error
  · exact reads_ok he hrest

theorem keeps_readUnary : Reader.Keeps P (readUnary text nested) := by
  intro ts hts
  fun_induction readUnary text nested ts with
  | case1 => exact reads_error
  | case2 step name rest =>
    have hname := List.forall_mem_cons.mp (names_tail hts)
    exact reads_ok hname.1 hname.2
  | case3 => exact reads_error
  | case4 ts ih | case5 ts ih | case6 ts ih | case7 ts ih =>
    exact (ih (names_tail hts)).bind fun e rest he hrest => reads_ok he hrest
  | case8 => exact keeps_readPostfix hnested _ hts

theorem keeps_readPower : Reader.Keeps P (readPower text nested) := by
  intro ts hts
  refine (keeps_readUnary hnested ts hts).bind fun base rest hbase hrest => ?_
  dsimp only
  split
  · exact (hnested .power _ (names_tail hrest)).bind fun exponent rest he hrest =>
      reads_ok ⟨hbase, he⟩ hrest
  · exact reads_ok hbase hrest

omit hnested in
/-- Operands of one level, one after the other. -/
theorem keeps_readOperands {operand : Reader} (ho : operand.Keeps P) (ops : List BinaryOp) (n : Nat)
    {left : Expr} (hleft : left.Names P) : Reader.Keeps P (readOperands ops operand n left) := by
  intro ts hts
  induction n generalizing left ts with
  | zero => exact reads_ok hleft hts
  | succ n ih =>
    unfold readOperands
    split
    · split
      · exact (ho _ (names_tail hts)).bind fun right rest hright hrest =>
          @ih (.binary _ left right) ⟨hleft, hright⟩ rest hrest
      · exact reads_ok hleft hts
    · exact reads_ok hleft hts

theorem keeps_readBinary (n : Nat) (levels : List (List BinaryOp)) :
    Reader.Keeps P (readBinary text nested n levels) := by
  induction levels with
  | nil => exact keeps_readPower hnested
  | cons ops levels ih =>
    intro ts hts
    exact (ih ts hts).bind fun left rest hleft hrest => keeps_readOperands ih ops n hleft rest hrest

theorem keeps_readConditional (n : Nat) : Reader.Keeps P (readConditional text nested n) := by
  intro ts hts
  refine (keeps_readBinary hnested n binaryLevels ts hts).bind fun condition rest hcondition hrest => ?_
  dsimp only
  split
  · refine (hnested .comma _ (names_tail hrest)).bind fun ifTrue rest htrue hrest => ?_
    dsimp only
    split
    · exact (hnested .assignment _ (names_tail hrest)).bind fun ifFalse rest hfalse hrest =>
        reads_ok ⟨hcondition, htrue, hfalse⟩ hrest
    · exact reads_error
  · exact reads_ok hcondition hrest

theorem keeps_readAssignment (n : Nat) : Reader.Keeps P (readAssignment text nested n) := by
  intro ts hts
  unfold readAssignment
  split
  · have hname := (List.forall_mem_cons.mp hts).1
    exact (hnested .assignment _ (names_tail (names_tail hts))).bind fun value rest hvalue hrest =>
      reads_ok ⟨hname, hvalue⟩ hrest
  · refine (keeps_readConditional hnested n _ hts).bind fun e rest he hrest => ?_
    dsimp only
    split
    · exact reads_error
    · exact reads_ok he hrest

/-- The members of a comma expression. -/
theorem keeps_readMembers (n k : Nat) {left : Expr} (hleft : left.Names P) :
    Reader.Keeps P (readMembers text nested n k left) := by
  intro ts hts
  induction k generalizing left ts with
  | zero => exact reads_ok hleft hts
  | succ k ih =>
    unfold readMembers
    split
    · exact (keeps_readAssignment hnested n _ (names_tail hts)).bind fun right rest hright hrest =>
        @ih (.comma left right) ⟨hleft, hright⟩ rest hrest
    · exact reads_ok hleft hts

theorem keeps_readComma (n : Nat) : Reader.Keeps P (readComma text nested n) := by
  intro ts hts
  exact (keeps_readAssignment hnested n ts hts).bind fun left rest hleft hrest =>
    keeps_readMembers hnested n n hleft rest hrest

end

/-- **Every reader** keeps the names, by induction on how deep expressions may be nested. -/
theorem keeps_readAt {P : String → Prop} (text : List Char) (n : Nat) (construct : Construct) :
    Reader.Keeps P (readAt text n construct) := by
  induction n generalizing construct with
  | zero => exact fun _ _ => reads_error
  | succ n ih =>
    cases construct with
    | comma => exact keeps_readComma ih n
    | assignment => exact keeps_readAssignment ih n
    | power => exact keeps_readPower ih

/-- **All names in an expression are identifiers.** -/
theorem parse_names {text : List Char} {e : Expr} (h : parse text = .ok (some e)) :
    e.Names fun name => Name.isIdentifier name.toList = true := by
  unfold parse at h
  cases ht : tokens text with
  | error failure =>
    rw [ht] at h
    cases h
  | ok ts =>
    rw [ht] at h
    have hts := tokensFrom_names ht nofun
    change (if ts.isEmpty then _ else _) = _ at h
    split at h
    · cases h
    · cases hr : readAt text (ts.length + 1) .comma ts with
      | error failure =>
        rw [hr] at h
        cases h
      | ok result =>
        rw [hr] at h
        change (if result.2.isEmpty then Except.ok (some result.1) else _) = _ at h
        split at h
        · obtain rfl := Option.some.inj (Except.ok.inj h)
          exact (keeps_readAt text _ .comma ts hts result.1 result.2 hr).1
        · cases h

end Shell.Arithmetic
