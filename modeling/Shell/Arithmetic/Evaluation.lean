/-
Evaluation of expressions over a store of text variables.

Values are signed 64-bit words: sums, differences, products, powers and left
shifts wrap, shifts use the low six bits of the count, division and remainder
round toward zero. A variable holds a text. The text of an unset or blank
variable counts as 0, a signed number constant as its value, and any other text
is an expression that is evaluated in turn, at most `maxDepth` levels deep.

What an evaluation has assigned before it fails stays assigned, so a run returns
the store in either case.
-/
import Shell.Arithmetic.Parser

set_option autoImplicit false

namespace Shell.Arithmetic

open Shell.Text

/-- How variables are read and written. -/
structure Store (σ : Type) where
  lookup : σ → String → Option String
  assign : σ → String → String → σ

/-- An evaluation that reads and writes a store. -/
abbrev Eval (σ α : Type) := ExceptT Failure (StateM σ) α

/-- How deep the values of variables may lead from expression to expression. -/
def maxDepth : Nat := 32

/-! ## Operations on words -/

/-- `base` to the power of `n`, by repeated squaring. -/
def power (base : Int64) (n : Nat) : Int64 :=
  if n = 0 then 1
  else
    let half := power (base * base) (n / 2)
    if n % 2 = 0 then half else base * half
termination_by n
decreasing_by omega

/-- 1 for true and 0 for false. -/
def truth (b : Bool) : Int64 := if b then 1 else 0

/-- The value of a binary operator on two values. `text` is the expression, for
the diagnostic. The two logical operators do not always need their right operand
and are decided before; here they have both. -/
def BinaryOp.apply (text : List Char) (op : BinaryOp) (left right : Int64) :
    Except Failure Int64 :=
  match op with
  | .or => .ok (truth (left != 0 || right != 0))
  | .and => .ok (truth (left != 0 && right != 0))
  | .bitOr => .ok (left ||| right)
  | .bitXor => .ok (left ^^^ right)
  | .bitAnd => .ok (left &&& right)
  | .eq => .ok (truth (left == right))
  | .ne => .ok (truth (left != right))
  | .lt => .ok (truth (left < right))
  | .gt => .ok (truth (left > right))
  | .le => .ok (truth (left ≤ right))
  | .ge => .ok (truth (left ≥ right))
  | .shl => .ok (left <<< right)
  | .shr => .ok (left >>> right)
  | .add => .ok (left + right)
  | .sub => .ok (left - right)
  | .mul => .ok (left * right)
  | .div =>
    if right = 0 then .error (.mistake (.divisionByZero text)) else .ok (left / right)
  | .rem =>
    if right = 0 then .error (.mistake (.divisionByZero text)) else .ok (left % right)
  | .pow =>
    if right < 0 then .error (.mistake (.negativeExponent text))
    else .ok (power left right.toInt.toNat)

/-- The value of a unary operator. -/
def UnaryOp.apply (op : UnaryOp) (operand : Int64) : Int64 :=
  match op with
  | .plus => operand
  | .minus => -operand
  | .not => truth (operand == 0)
  | .complement => ~~~operand

/-- The value of a variable after a step. -/
def Step.apply (step : Step) (old : Int64) : Int64 :=
  match step with
  | .increment => old + 1
  | .decrement => old - 1

/-! ## Expressions -/

section
variable {σ : Type} (store : Store σ)

/-- Gives a variable a value, as decimal text, and returns the value. -/
def Store.put (name : String) (value : Int64) : Eval σ Int64 := do
  modify fun s => store.assign s name (toString value.toInt)
  return value

/-- The value of a tree, where `resolve` gives the values of variables and `text`
is the expression the tree was read from. -/
def Expr.eval (resolve : String → Eval σ Int64) (text : List Char) : Expr → Eval σ Int64
  | .number value => return value
  | .variable name => resolve name
  | .unary op operand => return op.apply (← operand.eval resolve text)
  | .binary .and left right => do
    if (← left.eval resolve text) == 0 then return 0
    return truth ((← right.eval resolve text) != 0)
  | .binary .or left right => do
    if (← left.eval resolve text) != 0 then return 1
    return truth ((← right.eval resolve text) != 0)
  | .binary op left right => do
    let l ← left.eval resolve text
    let r ← right.eval resolve text
    liftM (op.apply text l r)
  | .conditional condition ifTrue ifFalse => do
    if (← condition.eval resolve text) != 0 then ifTrue.eval resolve text
    else ifFalse.eval resolve text
  | .assign none name value => do
    store.put name (← value.eval resolve text)
  | .assign (some op) name value => do
    let r ← value.eval resolve text
    let l ← resolve name
    store.put name (← liftM (op.apply text l r))
  | .update step name before => do
    let old ← resolve name
    let new ← store.put name (step.apply old)
    return if before then new else old
  | .comma left right => do
    let _ ← left.eval resolve text
    right.eval resolve text

/-- The value of the expression in a text; 0 for a text without tokens. -/
def evaluateWith (resolve : String → Eval σ Int64) (text : List Char) : Eval σ Int64 := do
  match ← liftM (parse text) with
  | none => return 0
  | some e => e.eval store resolve text

/-- The value of a variable, whose text may lead through `depth` further
expressions. A text of signs and one constant is read at once: it is negative when
its first sign is. -/
def resolve : (depth : Nat) → String → Eval σ Int64
  | depth, name => do
    let value := trim ((store.lookup (← get) name).getD "").toList
    if value.isEmpty then return 0
    let body := value.dropWhile fun c => c == '+' || c == '-'
    if isConstant body then
      let n ← liftM (readConstant body)
      return if value.head? = some '-' then -n else n
    match depth with
    | 0 => throw (.mistake (.tooDeep name))
    | depth + 1 => evaluateWith store (resolve depth) value

/-- The value of the expression in a text. -/
def evaluate (text : List Char) : Eval σ Int64 :=
  evaluateWith store (resolve store maxDepth) text

end

end Shell.Arithmetic
