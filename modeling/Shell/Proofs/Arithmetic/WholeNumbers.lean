/-
Words and whole numbers.

Expressions are evaluated with signed words of 64 bits. There is another way to the same values: to calculate with
whole numbers, which have no bounds, and to cut down to a word what an operator gives and what a variable is
assigned (`Whole.eval`). Here the operators are those of arithmetic, bits go on to the left for ever, and nothing
is cut down in between, not the old value of an update and not what a compound assignment combines.

Both ways lead to the same values, the same store and the same failures, for every tree and every store
(`evaluation_of_whole_numbers`). For a single operator this is a fact about residues: an operator on words is the
operator on whole numbers, cut down (`Whole.binary_eq`). The rest is by induction on the tree, and for the
values of variables on the depth that they may have. The induction takes along what is assigned: numerals of words,
so that a variable is read as the word it was given.
-/
import Mathlib.Data.Int.Bitwise
import Mathlib.Logic.Relation
import Shell.Table
import Shell.Proofs.Arithmetic.Assigning
import Shell.Proofs.Arithmetic.Numerals

set_option autoImplicit false

namespace Shell.Arithmetic

open Shell.Text

/-! ## 1. Evaluation with whole numbers -/

namespace Whole

/-- A number cut down to 64 bits, the first of which is the sign. -/
def wrap (n : Int) : Int := (n + 2 ^ 63) % 2 ^ 64 - 2 ^ 63

/-- 1 for true and 0 for false. -/
def truth (b : Bool) : Int := if b then 1 else 0

/-- The quotient, rounded toward zero. -/
def quotient (left right : Int) : Int :=
  if left < 0 ↔ right < 0 then left.natAbs / right.natAbs else -(left.natAbs / right.natAbs : Nat)

/-- The low six bits of a number, which say how far to shift. -/
def shift (n : Int) : Nat := (n % 2 ^ 6).toNat

/-- The value of a binary operator on two numbers, which may be too large for a word. -/
def binary (text : List Char) (op : BinaryOp) (left right : Int) : Except Failure Int :=
  match op with
  | .or => .ok (truth (left != 0 || right != 0))
  | .and => .ok (truth (left != 0 && right != 0))
  | .bitOr => .ok (left.lor right)
  | .bitXor => .ok (left.xor right)
  | .bitAnd => .ok (left.land right)
  | .eq => .ok (truth (left == right))
  | .ne => .ok (truth (left != right))
  | .lt => .ok (truth (left < right))
  | .gt => .ok (truth (left > right))
  | .le => .ok (truth (left ≤ right))
  | .ge => .ok (truth (left ≥ right))
  | .shl => .ok (left * 2 ^ shift right)
  | .shr => .ok (left / 2 ^ shift right)
  | .add => .ok (left + right)
  | .sub => .ok (left - right)
  | .mul => .ok (left * right)
  | .div =>
    if right = 0 then .error (.mistake (.divisionByZero text)) else .ok (quotient left right)
  | .rem =>
    if right = 0 then .error (.mistake (.divisionByZero text))
    else .ok (left - right * quotient left right)
  | .pow =>
    if right < 0 then .error (.mistake (.negativeExponent text))
    else .ok (left ^ right.toNat % 2 ^ 64)

/-- The value of a unary operator. Only a change of sign can be too large for a word. -/
def unary (op : UnaryOp) (operand : Int) : Int :=
  match op with
  | .plus => operand
  | .minus => wrap (-operand)
  | .not => truth (operand == 0)
  | .complement => -operand - 1

/-- The value of a variable after a step. -/
def next (step : Step) (old : Int) : Int :=
  match step with
  | .increment => old + 1
  | .decrement => old - 1

section
variable {σ : Type} (store : Store σ)

/-- Gives a variable a value, cut down to a word, and returns it. -/
def put (name : String) (value : Int) : Eval σ Int := do
  modify fun s => store.assign s name (toString (wrap value))
  return wrap value

/-- The value of a tree, where `resolve` gives the values of variables. -/
def eval (resolve : String → Eval σ Int) (text : List Char) : Expr → Eval σ Int
  | .number value => return value.toInt
  | .variable name => resolve name
  | .unary op operand => return unary op (← eval resolve text operand)
  | .binary .and left right => do
    if (← eval resolve text left) == 0 then return 0
    return truth ((← eval resolve text right) != 0)
  | .binary .or left right => do
    if (← eval resolve text left) != 0 then return 1
    return truth ((← eval resolve text right) != 0)
  | .binary op left right => do
    let l ← eval resolve text left
    let r ← eval resolve text right
    return wrap (← liftM (binary text op l r))
  | .conditional condition ifTrue ifFalse => do
    if (← eval resolve text condition) != 0 then eval resolve text ifTrue
    else eval resolve text ifFalse
  | .assign none name value => do
    put store name (← eval resolve text value)
  | .assign (some op) name value => do
    let r ← eval resolve text value
    let l ← resolve name
    put store name (← liftM (binary text op l r))
  | .update step name before => do
    let old ← resolve name
    let new ← put store name (next step old)
    return if before then new else old
  | .comma left right => do
    let _ ← eval resolve text left
    eval resolve text right

/-- The value of the expression in a text; 0 for a text without tokens. -/
def evaluateWith (resolve : String → Eval σ Int) (text : List Char) : Eval σ Int := do
  match ← liftM (parse text) with
  | none => return 0
  | some e => eval store resolve text e

/-- The value of a variable, whose text may lead through `depth` further expressions. -/
def resolve : (depth : Nat) → String → Eval σ Int
  | depth, name => do
    let value := trim ((store.lookup (← get) name).getD "").toList
    if value.isEmpty then return 0
    let body := value.dropWhile fun c => c == '+' || c == '-'
    if isConstant body then
      let n ← liftM (readConstant body)
      return if value.head? = some '-' then wrap (-n.toInt) else n.toInt
    match depth with
    | 0 => throw (.mistake (.tooDeep name))
    | depth + 1 => evaluateWith store (resolve depth) value

/-- The value of the expression in a text. -/
def evaluate (text : List Char) : Eval σ Int := evaluateWith store (resolve store maxDepth) text

end

/-! ## 2. Residues -/

theorem wrap_eq (n : Int) : wrap n = (Int64.ofInt n).toInt := by
  rw [Int64.toInt_ofInt, Int.bmod_def, wrap, Int64.size]
  split <;> omega

theorem truth_eq (b : Bool) : truth b = (Arithmetic.truth b).toInt := by
  cases b <;> rfl

theorem ofInt_truth (b : Bool) : Int64.ofInt (truth b) = Arithmetic.truth b := by
  rw [truth_eq, Int64.ofInt_toInt]

/-- Multiples of the number of words do not count. -/
theorem ofInt_emod (n : Int) : Int64.ofInt (n % 2 ^ 64) = Int64.ofInt n := by
  rw [← Int64.toInt_inj, ← wrap_eq, ← wrap_eq, wrap, wrap, Int.emod_add_emod]

theorem quotient_eq_tdiv (left right : Int) : quotient left right = left.tdiv right := by
  cases left with
  | ofNat l =>
    cases right with
    | ofNat r =>
      rw [quotient, if_pos (by simp [Int.not_lt.mpr (Int.natCast_nonneg _)])]
      rfl
    | negSucc r =>
      rw [quotient, if_neg (by simp [Int.negSucc_lt_zero])]
      rfl
  | negSucc l =>
    cases right with
    | ofNat r =>
      rw [quotient, if_neg (by simp [Int.negSucc_lt_zero])]
      rfl
    | negSucc r =>
      rw [quotient, if_pos (by simp [Int.negSucc_lt_zero])]
      rfl

/-- The bits of a word are those of the number. -/
theorem getLsbD_ofInt (n : Int) (i : Nat) :
    (BitVec.ofInt 64 n).getLsbD i = (decide (i < 64) && n.testBit i) := by
  cases n with
  | ofNat n =>
    show (BitVec.ofInt 64 (n : Int)).getLsbD i = _
    rw [BitVec.ofInt_natCast, BitVec.getLsbD_ofNat]
    rfl
  | negSucc n =>
    rw [BitVec.ofInt_negSucc_eq_not_ofNat, BitVec.getLsbD_not, BitVec.getLsbD_ofNat]
    show _ = (decide (i < 64) && !n.testBit i)
    by_cases hi : i < 64 <;> simp [hi]

/-- An operator that works bit by bit. -/
theorem ofInt_bitwise {whole : Int → Int → Int} {word : BitVec 64 → BitVec 64 → BitVec 64}
    {bit : Bool → Bool → Bool} (hwhole : ∀ m n i, (whole m n).testBit i = bit (m.testBit i) (n.testBit i))
    (hword : ∀ x y i, i < 64 → (word x y).getLsbD i = bit (x.getLsbD i) (y.getLsbD i)) (left right : Int64) :
    BitVec.ofInt 64 (whole left.toInt right.toInt) = word left.toBitVec right.toBitVec := by
  have hbits (x : Int64) {i : Nat} (hi : i < 64) : x.toInt.testBit i = x.toBitVec.getLsbD i := by
    have h := getLsbD_ofInt x.toInt i
    rw [← Int64.toInt_toBitVec, BitVec.ofInt_toInt] at h
    simpa [hi] using h.symm
  refine BitVec.eq_of_getLsbD_eq fun i hi => ?_
  rw [getLsbD_ofInt, hwhole, hword _ _ i hi, hbits left hi, hbits right hi]
  simp [hi]

/-- The low six bits of a word. -/
theorem shift_toInt (right : Int64) : (right.toBitVec.smod 64).toNat = shift right.toInt := by
  have h := BitVec.toInt_smod (x := right.toBitVec) (y := 64)
  rw [Int64.toInt_toBitVec, show (64 : BitVec 64).toInt = 64 by decide,
    Int.fmod_eq_emod_of_nonneg _ (by decide)] at h
  have hword : right.toBitVec.smod 64 = BitVec.ofInt 64 (right.toInt % 64) := by
    rw [← h, BitVec.ofInt_toInt]
  rw [hword, BitVec.toNat_ofInt, shift]
  omega

theorem ofInt_shiftLeft (left right : Int64) :
    Int64.ofInt (left.toInt * 2 ^ shift right.toInt) = left <<< right := by
  rw [← Int64.toBitVec_inj, Int64.toBitVec_ofInt, Int64.toBitVec_shiftLeft, BitVec.ofInt_mul,
    ← Int64.toInt_toBitVec, BitVec.ofInt_toInt, BitVec.shiftLeft_eq', shift_toInt,
    BitVec.shiftLeft_eq_mul_twoPow]
  congr 1
  rw [show (2 : Int) ^ shift right.toInt = ((2 ^ shift right.toInt : Nat) : Int) by simp,
    BitVec.ofInt_natCast]
  exact BitVec.eq_of_toNat_eq (by simp [BitVec.toNat_twoPow])

theorem ofInt_shiftRight (left right : Int64) :
    Int64.ofInt (left.toInt / 2 ^ shift right.toInt) = left >>> right := by
  have h : (left >>> right).toInt = left.toInt / 2 ^ shift right.toInt := by
    rw [← Int64.toInt_toBitVec, Int64.toBitVec_shiftRight, BitVec.sshiftRight', BitVec.toInt_sshiftRight,
      Int64.toInt_toBitVec, shift_toInt, Int.shiftRight_eq_div_pow]
    simp
  rw [← h, Int64.ofInt_toInt]

/-- Repeated squaring. -/
theorem ofInt_pow (base : Int) (n : Nat) : Int64.ofInt (base ^ n) = power (Int64.ofInt base) n := by
  induction n using Nat.strongRecOn generalizing base with
  | _ n ih =>
    unfold power
    split
    · next hn =>
      rw [hn, pow_zero]
      rfl
    · next hn =>
      have hhalf := ih (n / 2) (by omega) (base * base)
      rw [Int64.ofInt_mul, ← pow_two, ← pow_mul] at hhalf
      simp only
      rw [← hhalf]
      split
      · next heven => rw [Nat.mul_div_cancel' (Nat.dvd_of_mod_eq_zero heven)]
      · next hodd =>
        rw [← Int64.ofInt_mul, ← pow_succ', show 2 * (n / 2) + 1 = n by omega]

/-- **An operator on words is the operator on whole numbers, cut down.** It fails on the same operands. -/
theorem binary_eq (text : List Char) (op : BinaryOp) (left right : Int64) :
    (binary text op left.toInt right.toInt).map Int64.ofInt = op.apply text left right := by
  have hzero (x : Int64) : x.toInt = 0 ↔ x = 0 := by rw [← Int64.toInt_zero, Int64.toInt_inj]
  have hbeq (x y : Int64) : (x.toInt == y.toInt) = (x == y) := by
    rw [Bool.eq_iff_iff, beq_iff_eq, beq_iff_eq, Int64.toInt_inj]
  have hbne (x y : Int64) : (x.toInt != y.toInt) = (x != y) := by rw [bne, bne, hbeq]
  have hbne' (x : Int64) : (x.toInt != 0) = (x != 0) := hbne x 0
  have hbitwise {n : Int} {x : Int64} (h : BitVec.ofInt 64 n = x.toBitVec) : Int64.ofInt n = x := by
    rw [← Int64.toBitVec_inj, Int64.toBitVec_ofInt, h]
  -- Bitwise operators are compared bit by bit, the ring operators as they are, and division and powers through the
  -- values of words.
  cases op with
  | or | and => simp only [binary, BinaryOp.apply, Except.map, ofInt_truth, hbne']
  | bitOr =>
    exact congrArg Except.ok (hbitwise (ofInt_bitwise Int.testBit_lor (fun _ _ _ _ => BitVec.getLsbD_or) ..))
  | bitXor =>
    exact congrArg Except.ok (hbitwise (ofInt_bitwise Int.testBit_lxor (fun _ _ _ _ => BitVec.getLsbD_xor) ..))
  | bitAnd =>
    exact congrArg Except.ok (hbitwise (ofInt_bitwise Int.testBit_land (fun _ _ _ _ => BitVec.getLsbD_and) ..))
  | eq => simp only [binary, BinaryOp.apply, Except.map, ofInt_truth, hbeq]
  | ne => simp only [binary, BinaryOp.apply, Except.map, ofInt_truth, hbne]
  | lt | gt | le | ge =>
    simp only [binary, BinaryOp.apply, Except.map, ofInt_truth, gt_iff_lt, ge_iff_le,
      Int64.lt_iff_toInt_lt, Int64.le_iff_toInt_le]
  | shl => exact congrArg Except.ok (ofInt_shiftLeft left right)
  | shr => exact congrArg Except.ok (ofInt_shiftRight left right)
  | add => exact congrArg Except.ok (by rw [Int64.ofInt_add, Int64.ofInt_toInt, Int64.ofInt_toInt])
  | sub => exact congrArg Except.ok (by rw [Int64.ofInt_sub, Int64.ofInt_toInt, Int64.ofInt_toInt])
  | mul => exact congrArg Except.ok (by rw [Int64.ofInt_mul, Int64.ofInt_toInt, Int64.ofInt_toInt])
  | div =>
    simp only [binary, BinaryOp.apply, hzero]
    split
    · rfl
    · refine congrArg Except.ok ?_
      rw [quotient_eq_tdiv, ← Int64.toInt_inj, Int64.toInt_div, Int64.toInt_ofInt, Int64.size]
  | rem =>
    simp only [binary, BinaryOp.apply, hzero]
    split
    · rfl
    · refine congrArg Except.ok ?_
      rw [quotient_eq_tdiv, ← Int.tmod_def, ← Int64.toInt_mod, Int64.ofInt_toInt]
  | pow =>
    have hneg : right.toInt < 0 ↔ right < 0 := by rw [Int64.lt_iff_toInt_lt, Int64.toInt_zero]
    simp only [binary, BinaryOp.apply, hneg]
    split
    · rfl
    · refine congrArg Except.ok ?_
      rw [ofInt_emod, ofInt_pow, Int64.ofInt_toInt]

theorem unary_eq (op : UnaryOp) (operand : Int64) :
    unary op operand.toInt = (op.apply operand).toInt := by
  cases op with
  | plus => rfl
  | minus =>
    show wrap (-operand.toInt) = (-operand).toInt
    rw [wrap_eq, Int64.ofInt_neg, Int64.ofInt_toInt]
  | not =>
    show truth (operand.toInt == 0) = (Arithmetic.truth (operand == 0)).toInt
    rw [truth_eq, Bool.eq_iff_iff.mpr (?_ : (operand.toInt == 0) = true ↔ (operand == 0) = true)]
    rw [beq_iff_eq, beq_iff_eq, ← Int64.toInt_zero, Int64.toInt_inj]
  | complement =>
    show -operand.toInt - 1 = (~~~operand).toInt
    have hlow := operand.le_toInt
    have hhigh := operand.toInt_lt
    rw [Int64.toInt_not, Int.bmod_def]
    split <;> omega

theorem ofInt_next (step : Step) (old : Int64) : Int64.ofInt (next step old.toInt) = step.apply old := by
  cases step with
  | increment =>
    show Int64.ofInt (old.toInt + 1) = old + 1
    rw [Int64.ofInt_add, Int64.ofInt_toInt]
    rfl
  | decrement =>
    show Int64.ofInt (old.toInt - 1) = old - 1
    rw [Int64.ofInt_sub, Int64.ofInt_toInt]
    rfl

end Whole

/-! ## 3. Evaluations that agree -/

variable {σ α α' β β' : Type} {store : Store σ}

/-- From one store to another, nothing is assigned but numerals of words. -/
def Store.Writes (store : Store σ) : σ → σ → Prop :=
  Relation.ReflTransGen fun s s' =>
    ∃ (name : String) (n : Int), -2 ^ 63 ≤ n ∧ n ≤ 2 ^ 63 - 1 ∧ s' = store.assign s name (toString n)

theorem Store.writes_assign (s : σ) (name : String) (word : Int64) :
    store.Writes s (store.assign s name (toString word.toInt)) :=
  .single ⟨name, word.toInt, word.le_toInt, Int.le_sub_one_of_lt word.toInt_lt, rfl⟩

namespace Eval

/-- Two evaluations end with related values or with the same failure, and in the same store, which comes from `s`
by assignments of words. -/
inductive Ends (store : Store σ) (R : α → β → Prop) (s : σ) :
    Except Failure α × σ → Except Failure β × σ → Prop where
  | ok {a : α} {b : β} {s' : σ} (related : R a b) (writes : store.Writes s s') :
      Ends store R s (.ok a, s') (.ok b, s')
  | error {e : Failure} {s' : σ} (writes : store.Writes s s') :
      Ends store R s (.error e, s') (.error e, s')

/-- Two evaluations agree, whatever the store is at first. -/
def Agrees (store : Store σ) (R : α → β → Prop) (x : Eval σ α) (y : Eval σ β) : Prop :=
  ∀ s, Ends store R s (x.run s) (y.run s)

variable {R : α → β → Prop} {R' : α' → β' → Prop} {x x' : Eval σ α} {y y' : Eval σ β}

theorem agrees_pure {a : α} {b : β} (h : R a b) :
    Agrees store R (pure a : Eval σ α) (pure b) := fun _ => .ok h .refl

theorem agrees_throw (e : Failure) : Agrees store R (throw e : Eval σ α) (throw e) :=
  fun _ => .error .refl

/-- The same reading of a text is used in the same way. -/
theorem agrees_read {γ : Type} (r : Except Failure γ) {f : γ → Eval σ α} {g : γ → Eval σ β}
    (hf : ∀ c, Agrees store R (f c) (g c)) :
    Agrees store R (liftM r >>= f : Eval σ α) (liftM r >>= g) := by
  intro s
  cases r with
  | ok c => exact hf c s
  | error e => exact .error .refl

theorem agrees_get {f : σ → Eval σ α} {g : σ → Eval σ β} (h : ∀ s, Agrees store R (f s) (g s)) :
    Agrees store R ((get : Eval σ σ) >>= f) ((get : Eval σ σ) >>= g) := fun s => h s s

theorem Agrees.bind (h : Agrees store R x y) {f : α → Eval σ α'} {g : β → Eval σ β'}
    (hf : ∀ a b, R a b → Agrees store R' (f a) (g b)) : Agrees store R' (x >>= f) (y >>= g) := by
  intro s
  have hs := h s
  rw [run_bind, run_bind]
  generalize x.run s = p at hs ⊢
  generalize y.run s = q at hs ⊢
  cases hs with
  | error writes => exact .error writes
  | @ok a b s' related writes =>
    have hs' := hf a b related s'
    simp only
    generalize (f a).run s' = p at hs' ⊢
    generalize (g b).run s' = q at hs' ⊢
    cases hs' with
    | error writes' => exact .error (writes.trans writes')
    | ok related' writes' => exact .ok related' (writes.trans writes')

theorem Agrees.ite {p q : Prop} [Decidable p] [Decidable q] (hpq : p ↔ q) (h : Agrees store R x y)
    (h' : Agrees store R x' y') : Agrees store R (if p then x else x') (if q then y else y') := by
  by_cases hp : p
  · rwa [if_pos hp, if_pos (hpq.mp hp)]
  · rwa [if_neg hp, if_neg fun hq => hp (hpq.mpr hq)]

end Eval

/-! ## 4. Both ways lead to the same values -/

namespace Whole

open Eval

/-- A number that is the value of a word. -/
def IsValue (n : Int) (word : Int64) : Prop := n = word.toInt

/-- A number that is cut down to a word. -/
def CutsTo (n : Int) (word : Int64) : Prop := Int64.ofInt n = word

theorem IsValue.beq_zero {n : Int} {word : Int64} (h : IsValue n word) :
    (n == 0) = true ↔ (word == 0) = true := by
  rw [h, beq_iff_eq, beq_iff_eq, ← Int64.toInt_zero, Int64.toInt_inj]

theorem IsValue.bne_zero {n : Int} {word : Int64} (h : IsValue n word) : (n != 0) = (word != 0) := by
  rw [bne, bne, Bool.eq_iff_iff.mpr h.beq_zero]

theorem IsValue.wrap {n : Int} {word : Int64} (h : CutsTo n word) : IsValue (wrap n) word := by
  rw [IsValue, wrap_eq, h]

theorem agrees_put {n : Int} {word : Int64} (h : CutsTo n word) (name : String) :
    Agrees store IsValue (put store name n) (store.put name word) := by
  intro s
  have hwrap := IsValue.wrap h
  show Ends store IsValue s (.ok (wrap n), store.assign s name (toString (wrap n)))
    (.ok word, store.assign s name (toString word.toInt))
  rw [hwrap]
  exact .ok rfl (store.writes_assign s name word)

theorem agrees_binary (text : List Char) (op : BinaryOp) (left right : Int64) :
    Agrees store CutsTo (liftM (binary text op left.toInt right.toInt))
      (liftM (op.apply text left right)) := by
  intro s
  rw [← binary_eq]
  cases binary text op left.toInt right.toInt with
  | ok n => exact .ok rfl .refl
  | error e => exact .error .refl

variable {resolve : String → Eval σ Int} {resolve' : String → Eval σ Int64}

/-- **A tree has the same value both ways**, if variables have. -/
theorem agrees_eval (hr : ∀ name, Agrees store IsValue (resolve name) (resolve' name)) (text : List Char)
    (e : Expr) : Agrees store IsValue (eval store resolve text e) (e.eval store resolve' text) := by
  have htruth {n : Int} {word : Int64} (h : IsValue n word) :
      IsValue (truth (n != 0)) (Arithmetic.truth (word != 0)) := by
    rw [IsValue, h.bne_zero, truth_eq]
  induction e with
  | number value => exact agrees_pure rfl
  | «variable» name => exact hr name
  | unary op operand ih =>
    refine ih.bind fun n word h => agrees_pure ?_
    rw [h]
    exact unary_eq op word
  | binary op left right ihl ihr =>
    cases op with
    -- The two logical operators may do without their right operand.
    | and =>
      refine ihl.bind fun l l' hl => .ite hl.beq_zero (agrees_pure rfl) ?_
      exact ihr.bind fun r r' hr' => agrees_pure (htruth hr')
    | or =>
      refine ihl.bind fun l l' hl => .ite (by rw [hl.bne_zero]) (agrees_pure rfl) ?_
      exact ihr.bind fun r r' hr' => agrees_pure (htruth hr')
    | _ =>
      refine ihl.bind fun l l' hl => ihr.bind fun r r' hr' => ?_
      rw [hl, hr', ← bind_pure (liftM _ : Eval σ Int64)]
      exact (agrees_binary text _ l' r').bind fun n word h => agrees_pure (.wrap h)
  | conditional condition ifTrue ifFalse ihc iht ihf =>
    exact ihc.bind fun n word h => .ite (by rw [h.bne_zero]) iht ihf
  | assign op name value ih =>
    cases op with
    | none =>
      refine ih.bind fun n word h => agrees_put ?_ name
      rw [CutsTo, h, Int64.ofInt_toInt]
    | some op =>
      refine ih.bind fun r r' hr' => (hr name).bind fun l l' hl => ?_
      rw [hl, hr']
      exact (agrees_binary text op l' r').bind fun n word h => agrees_put h name
  | update step name before =>
    refine (hr name).bind fun old old' hold => ?_
    have hnext : CutsTo (next step old) (step.apply old') := by
      rw [CutsTo, hold, ofInt_next]
    refine (agrees_put hnext name).bind fun new new' hnew => agrees_pure ?_
    cases before with
    | true => exact hnew
    | false => exact hold
  | comma left right ihl ihr => exact ihl.bind fun _ _ _ => ihr

theorem agrees_evaluateWith (hr : ∀ name, Agrees store IsValue (resolve name) (resolve' name))
    (text : List Char) :
    Agrees store IsValue (evaluateWith store resolve text)
      (Arithmetic.evaluateWith store resolve' text) := by
  refine agrees_read (parse text) fun tree => ?_
  cases tree with
  | none => exact agrees_pure rfl
  | some e => exact agrees_eval hr text e

/-- The value of a text that a variable has, if one that is no constant is left to what comes last. -/
theorem agrees_value (value : List Char) {deeper : Eval σ Int} {deeper' : Eval σ Int64}
    (hd : Agrees store IsValue deeper deeper') :
    Agrees store IsValue
      (if value.isEmpty then pure 0
        else if isConstant (value.dropWhile fun c => c == '+' || c == '-') then do
          let n ← liftM (readConstant (value.dropWhile fun c => c == '+' || c == '-'))
          return if value.head? = some '-' then wrap (-n.toInt) else n.toInt
        else deeper)
      (if value.isEmpty then pure 0
        else if isConstant (value.dropWhile fun c => c == '+' || c == '-') then do
          let n ← liftM (readConstant (value.dropWhile fun c => c == '+' || c == '-'))
          return if value.head? = some '-' then -n else n
        else deeper') := by
  refine .ite Iff.rfl (agrees_pure rfl) (.ite Iff.rfl ?_ hd)
  refine agrees_read _ fun n => agrees_pure ?_
  split
  · exact unary_eq .minus n
  · rfl

/-- **A variable has the same value both ways.** -/
theorem agrees_resolve (depth : Nat) (name : String) :
    Agrees store IsValue (Whole.resolve store depth name) (Arithmetic.resolve store depth name) := by
  induction depth generalizing name with
  | zero =>
    unfold Whole.resolve Arithmetic.resolve
    exact agrees_get fun s => agrees_value _ (agrees_throw _)
  -- The text is an expression, which has one level less to go.
  | succ depth ih =>
    unfold Whole.resolve Arithmetic.resolve
    exact agrees_get fun s => agrees_value _ (agrees_evaluateWith ih _)

end Whole

/-- What agreement comes to: the same value, store and failure. -/
theorem Eval.Ends.eq {s : σ} {p : Except Failure Int × σ} {q : Except Failure Int64 × σ}
    (h : Ends store Whole.IsValue s p q) :
    p = (q.1.map Int64.toInt, q.2) ∧ store.Writes s q.2 ∧
      ∀ n, p.1 = .ok n → -2 ^ 63 ≤ n ∧ n ≤ 2 ^ 63 - 1 := by
  cases h with
  | error writes => exact ⟨rfl, writes, nofun⟩
  | @ok n word s' related writes =>
    obtain rfl : n = word.toInt := related
    refine ⟨rfl, writes, fun m hm => ?_⟩
    obtain rfl := Except.ok.inj hm
    exact ⟨word.le_toInt, Int.le_sub_one_of_lt word.toInt_lt⟩

/-- **Arithmetic is that of signed words.** To calculate with whole numbers, and to cut down to 64 bits what comes
out, gives every tree and every text the value that words give it, leaves the same store, and fails with the
same failure. The values are those of words, and so is all that is assigned. A variable that has been assigned
is read as the word that it was given, also as the least of all. -/
theorem evaluation_of_whole_numbers (store : Store σ)
    (keeps : ∀ s name value, store.lookup (store.assign s name value) name = some value) :
    (∀ (depth : Nat) (text : List Char) (e : Expr) (s : σ),
      let whole := (Whole.eval store (Whole.resolve store depth) text e).run s
      let words := (e.eval store (resolve store depth) text).run s
      whole = (words.1.map Int64.toInt, words.2) ∧ store.Writes s words.2 ∧
        ∀ n, whole.1 = .ok n → -2 ^ 63 ≤ n ∧ n ≤ 2 ^ 63 - 1) ∧
    (∀ (text : List Char) (s : σ),
      let whole := (Whole.evaluate store text).run s
      let words := (evaluate store text).run s
      whole = (words.1.map Int64.toInt, words.2) ∧ store.Writes s words.2 ∧
        ∀ n, whole.1 = .ok n → -2 ^ 63 ≤ n ∧ n ≤ 2 ^ 63 - 1) ∧
    (∀ (depth : Nat) (name : String) (word : Int64) (s : σ),
      (store.put name word >>= fun _ => resolve store depth name).run s =
        (.ok word, store.assign s name (toString word.toInt))) := by
  refine ⟨?_, ?_, ?_⟩
  · intro depth text e s
    exact (Whole.agrees_eval (Whole.agrees_resolve depth) text e s).eq
  · intro text s
    exact (Whole.agrees_evaluateWith (Whole.agrees_resolve maxDepth) text s).eq
  · intro depth name word s
    rw [Eval.run_bind]
    exact resolve_of_stored (keeps s name (toString word.toInt)) depth

/-- The least word in a table, divided by minus one: the quotient is too large by one, and cut down it is the least
word again. -/
theorem evaluation_of_least_word :
    let tables : Store (Table String) := ⟨Table.get?, Table.insert⟩
    let s := (∅ : Table String).insert "x" (toString (-2 ^ 63))
    let e := Expr.assign (some .div) "x" (.unary .minus (.number 1))
    (∀ (s : Table String) name value, (s.insert name value).get? name = some value) ∧
      (e.eval tables (resolve tables 0) []).run s = (.ok Int64.minValue, s) ∧
      (Whole.eval tables (Whole.resolve tables 0) [] e).run s = (.ok (-2 ^ 63), s) := by
  intro tables s e
  have keeps : ∀ (s : Table String) name value, (s.insert name value).get? name = some value := by
    intro s name value
    rw [Table.get?_insert, if_pos rfl]
  have hwords : (e.eval tables (resolve tables 0) []).run s = (.ok Int64.minValue, s) := by
    have hx : (resolve tables 0 "x").run s = (.ok Int64.minValue, s) := resolve_of_stored (by rfl) 0
    have hvalue : ((Expr.unary .minus (.number 1)).eval tables (resolve tables 0) []).run s =
        (.ok (-1), s) := rfl
    show (Expr.eval tables (resolve tables 0) [] (.assign (some .div) "x" (.unary .minus (.number 1)))).run s = _
    unfold Expr.eval
    rw [Eval.run_bind, hvalue]
    simp only
    rw [Eval.run_bind, hx]
    rfl
  refine ⟨keeps, hwords, ?_⟩
  -- What whole numbers come to follows from what words come to.
  have h := ((evaluation_of_whole_numbers tables keeps).1 0 [] e s).1
  rw [h, hwords]
  rfl

end Shell.Arithmetic
