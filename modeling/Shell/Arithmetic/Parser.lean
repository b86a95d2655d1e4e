/-
From the text of an expression to its tree.

The grammar, loosest first: comma lists; assignments, which associate to the
right; conditionals with a comma list in the middle and an assignment at the end;
the levels of left associative binary operators; `**`, which associates to the
right; prefix operators; updates after a variable; and at last constants,
variables and comma lists in parentheses.

Each reader takes the tokens that are left and returns a tree and the tokens
after it. A reader that needs a looser construct inside its own gets it as the
parameter `nested`, and `readAt` ties the knot: `readAt n` reads constructs that
are nested in each other less than `n` deep and follow each other less than `n`
times. Every step inwards or onwards consumes a token, so the number of tokens
bounds both.
-/
import Shell.Arithmetic.Tokens

set_option autoImplicit false

namespace Shell.Arithmetic

open Shell.Text

/-- Reads a tree from the start of a token list. -/
abbrev Reader := List Token → Except Failure (Expr × List Token)

/-- The constructs that occur inside tighter ones. -/
inductive Construct where
  | comma | assignment | power
  deriving DecidableEq, Repr

/-! ## Failures -/

/-- An operand or closing token is missing before `rest`. The whole text is shown
when nothing is left. -/
def operandExpected (text : List Char) (rest : List Token) : Failure :=
  .mistake (.operandExpected text (if rest.isEmpty then text else tokensText rest))

def notAVariable (text : List Char) : Failure := .mistake (.notAVariable text)

/-! ## Readers from tight to loose -/

/-- A constant, a variable, or a comma list in parentheses. -/
def readPrimary (text : List Char) (nested : Construct → Reader) : Reader
  | [] => .error (operandExpected text [])
  | .symbol .leftParen :: ts => do
    let (e, rest) ← nested .comma ts
    match rest with
    | .symbol .rightParen :: rest => .ok (e, rest)
    | rest => .error (operandExpected text rest)
  | .numeral constant :: ts => do
    let value ← readConstant constant
    .ok (.number value, ts)
  | .name x :: ts => .ok (.variable (String.ofList x), ts)
  | .symbol s :: _ => .error (.mistake (.invalidOperator text s.text.toList))

/-- A primary expression, with a step after it if it is a variable. -/
def readPostfix (text : List Char) (nested : Construct → Reader) : Reader := fun ts => do
  let (e, rest) ← readPrimary text nested ts
  match rest with
  | .symbol (.step s) :: after =>
    match e with
    | .variable x => .ok (.update s x false, after)
    | _ => .error (notAVariable text)
  | _ => .ok (e, rest)

/-- Prefix operators before a postfix expression, or a step before a variable. -/
def readUnary (text : List Char) (nested : Construct → Reader) : Reader
  | .symbol (.step s) :: ts =>
    match ts with
    | [] => .error (operandExpected text [])
    | .name x :: rest => .ok (.update s (String.ofList x) true, rest)
    | _ => .error (notAVariable text)
  | .symbol (.binary .add) :: ts => do
    let (e, rest) ← readUnary text nested ts
    .ok (.unary .plus e, rest)
  | .symbol (.binary .sub) :: ts => do
    let (e, rest) ← readUnary text nested ts
    .ok (.unary .minus e, rest)
  | .symbol .bang :: ts => do
    let (e, rest) ← readUnary text nested ts
    .ok (.unary .not e, rest)
  | .symbol .tilde :: ts => do
    let (e, rest) ← readUnary text nested ts
    .ok (.unary .complement e, rest)
  | ts => readPostfix text nested ts

/-- Unary expressions with `**` between them, grouped from the right. -/
def readPower (text : List Char) (nested : Construct → Reader) : Reader := fun ts => do
  let (base, rest) ← readUnary text nested ts
  match rest with
  | .symbol (.binary .pow) :: rest =>
    let (exponent, rest) ← nested .power rest
    .ok (.binary .pow base exponent, rest)
  | _ => .ok (base, rest)

/-- More operands of one level after `left`, at most `n` of them. -/
def readOperands (ops : List BinaryOp) (operand : Reader) : Nat → Expr → Reader
  | 0, left, ts => .ok (left, ts)
  | n + 1, left, ts =>
    match ts with
    | .symbol (.binary op) :: rest =>
      if op ∈ ops then do
        let (right, rest) ← operand rest
        readOperands ops operand n (.binary op left right) rest
      else .ok (left, ts)
    | _ => .ok (left, ts)

/-- Binary operators of the given levels, the loosest first, with at most `n` operands of one level
after the first. -/
def readBinary (text : List Char) (nested : Construct → Reader) (n : Nat) :
    List (List BinaryOp) → Reader
  | [] => readPower text nested
  | ops :: levels => fun ts => do
    let operand := readBinary text nested n levels
    let (left, rest) ← operand ts
    readOperands ops operand n left rest

/-- A condition, with its two branches if there are any. -/
def readConditional (text : List Char) (nested : Construct → Reader) (n : Nat) : Reader := fun ts => do
  let (condition, rest) ← readBinary text nested n binaryLevels ts
  match rest with
  | .symbol .question :: rest =>
    let (ifTrue, rest) ← nested .comma rest
    match rest with
    | .symbol .colon :: rest =>
      let (ifFalse, rest) ← nested .assignment rest
      .ok (.conditional condition ifTrue ifFalse, rest)
    | rest => .error (operandExpected text (rest.drop 1))
  | _ => .ok (condition, rest)

/-- An assignment to a variable, or an expression that is not assigned to. -/
def readAssignment (text : List Char) (nested : Construct → Reader) (n : Nat) : Reader
  | .name x :: .symbol (.assign op) :: ts => do
    let (value, rest) ← nested .assignment ts
    .ok (.assign op (String.ofList x) value, rest)
  | ts => do
    let (e, rest) ← readConditional text nested n ts
    match rest with
    | .symbol (.assign _) :: _ => .error (notAVariable text)
    | _ => .ok (e, rest)

/-- More members of a comma list after `left`, at most `k` of them. -/
def readMembers (text : List Char) (nested : Construct → Reader) (n : Nat) : (k : Nat) → Expr → Reader
  | 0, left, ts => .ok (left, ts)
  | k + 1, left, ts =>
    match ts with
    | .symbol .comma :: rest => do
      let (right, rest) ← readAssignment text nested n rest
      readMembers text nested n k (.comma left right) rest
    | _ => .ok (left, ts)

/-- Assignments with commas between them, grouped from the left. -/
def readComma (text : List Char) (nested : Construct → Reader) (n : Nat) : Reader := fun ts => do
  let (left, rest) ← readAssignment text nested n ts
  readMembers text nested n n left rest

/-! ## The whole expression -/

/-- A construct in which constructs are nested less than `n` deep and follow each other less than
`n` times. -/
def readAt (text : List Char) : Nat → Construct → Reader
  | 0, _ => fun ts => .error (operandExpected text ts)
  | n + 1, .comma => readComma text (readAt text n) n
  | n + 1, .assignment => readAssignment text (readAt text n) n
  | n + 1, .power => readPower text (readAt text n)

/-- The tree of an expression; none for a text without tokens. -/
def parse (text : List Char) : Except Failure (Option Expr) := do
  let ts ← tokens text
  if ts.isEmpty then .ok none
  else
    let (e, rest) ← readAt text (ts.length + 1) .comma ts
    if rest.isEmpty then .ok (some e)
    else .error (.mistake (.invalidOperator text (tokensText rest)))

end Shell.Arithmetic
