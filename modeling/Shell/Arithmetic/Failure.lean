/-
What can go wrong in arithmetic.

An `ArithmeticError` is the writer's mistake: it becomes a diagnostic, and the
command that holds the expression fails. A `ArithmeticFault` is a text that the
reader has no answer for; it ends the whole run and has no wording.
-/
import Shell.Text.Numeral

set_option autoImplicit false

namespace Shell.Arithmetic

/-- A mistake in an expression, or in its evaluation. `text` is the expression
as written. -/
inductive ArithmeticError where
  /-- A digit of the number constant is not below its base. -/
  | valueTooGreat (constant : List Char)
  /-- The base of the number constant is not in 2..64. -/
  | invalidBase (constant : List Char)
  /-- An operand or a closing token should stand before `rest`. -/
  | operandExpected (text rest : List Char)
  /-- No operator or operand starts with `token`. -/
  | invalidOperator (text token : List Char)
  /-- The target of an assignment or update is not a variable. -/
  | notAVariable (text : List Char)
  | divisionByZero (text : List Char)
  | negativeExponent (text : List Char)
  /-- The values of variables lead from one expression to another too often. -/
  | tooDeep (name : String)
  deriving DecidableEq, Repr

/-- The wording of a mistake. Expressions are shown without white space at their
ends. -/
def ArithmeticError.message : ArithmeticError → String
  | .valueTooGreat constant => about constant "value too great for base" constant
  | .invalidBase constant => about constant "invalid arithmetic base" constant
  | .operandExpected text rest => about (Text.trim text) "syntax error: operand expected" rest
  | .invalidOperator text token =>
    about (Text.trim text) "syntax error: invalid arithmetic operator" token
  | .notAVariable text =>
    String.ofList (Text.trim text) ++ ": attempted assignment to non-variable"
  | .divisionByZero text => about (Text.trim text) "division by 0" ['0']
  | .negativeExponent text => String.ofList (Text.trim text) ++ ": exponent less than 0"
  | .tooDeep name => name ++ ": expression recursion level exceeded"
where
  /-- A complaint about a text, with the token it was noticed at. -/
  about (text : List Char) (complaint : String) (token : List Char) : String :=
    String.ofList text ++ ": " ++ complaint ++ " (error token is \"" ++ String.ofList token ++ "\")"

/-- Whether the mistake is in the evaluation of a well-formed expression. -/
def ArithmeticError.isEvaluation : ArithmeticError → Bool
  | .divisionByZero _ | .negativeExponent _ => true
  | _ => false

/-- A text that the reader has no answer for. -/
inductive ArithmeticFault where
  /-- A digit or letter outside ASCII where a token starts. -/
  | foreignCharacter
  /-- The base of a number constant, or one of its digits, is no readable number. -/
  | unreadableConstant
  deriving DecidableEq, Repr

/-- Why an expression has no value. -/
inductive Failure where
  | mistake (error : ArithmeticError)
  | fault (fault : ArithmeticFault)
  deriving DecidableEq, Repr

end Shell.Arithmetic
