/-
The expansion of words.

A word becomes a list of segments, which are joined into one text or cut into fields. Text
that is written in the script is never cut, and neither is what stands in double quotes; the
values of unquoted expansions are.

Expansion can change the state: `${NAME=WORD}` and arithmetic assign, and a command
substitution runs a script in a fork of the environment.
-/
import Shell.Arithmetic.Evaluation
import Shell.Field
import Shell.Outcome

set_option autoImplicit false

namespace Shell.Expansion

open Shell.Text
open Shell.Field (Segment)

/-- The field separators where IFS is not set. -/
def defaultSeparators : String := " \t\n"

/-- The field separators. -/
def separators (env : Environment) : String := (env.get? "IFS").getD defaultSeparators

/-! ## Parameters -/

/-- The positional parameter with the number that the digits of `name` write. The one before
the first is the last. -/
def positional? (env : Environment) (name : String) : Except Fault (Option String) :=
  match readDecimal? name.toList with
  | none => .error .unreadableParameter
  | some n =>
    if n = 0 then
      match env.args.getLast? with
      | some arg => .ok (some arg)
      | none => .error .missingParameter
    else .ok env.args[(n - 1).toNat]?

/-- The value of a variable or special parameter. -/
def value? (env : Environment) (name : String) : Except Fault (Option String) :=
  if name = "?" then .ok (some (toString env.status))
  else if name = "#" then .ok (some (toString env.args.length))
  else if name = "@" ∨ name = "*" then
    .ok (if env.args.isEmpty then none else some (" ".intercalate env.args))
  else if name = "$" then .ok (some (toString env.process))
  else if name = "0" then .ok (some env.scriptName)
  else if !name.isEmpty && name.toList.all isDigit then positional? env name
  else .ok (env.get? name)

/-- The value of a parameter in the current environment. -/
def parameter (name : String) : Exec (Option String) := do
  match value? (← Exec.env) name with
  | .ok value => return value
  | .error f => Exec.fault f

/-- A value as a segment. -/
def segment (quoted : Bool) (text : String) : Segment :=
  if quoted then .quoted text else .plain text

/-- The positional parameters as segments: one each, or all in one for `"$*"`, joined by the
first separator. -/
def allPositional (env : Environment) (name : String) (quoted : Bool) : List Segment :=
  if name = "*" ∧ quoted then
    if env.args.isEmpty then []
    else [.quoted (String.ofList (separators env |>.toList.take 1) |>.intercalate env.args)]
  else (env.args.map (segment quoted)).intersperse .boundary

/-- The value of a parameter as segments. -/
def parameterSegments (name : String) (quoted : Bool) : Exec (List Segment) := do
  if name = "@" ∨ name = "*" then
    return allPositional (← Exec.env) name quoted
  return [segment quoted ((← parameter name).getD "")]

/-- The length of the value of a parameter, or the number of the positional parameters. -/
def lengthSegments (name : String) (quoted : Bool) : Exec (List Segment) := do
  let length ←
    if name = "@" ∨ name = "*" then pure (← Exec.env).args.length
    else pure ((← parameter name).getD "").length
  return [segment quoted (toString length)]

/-! ## Arithmetic -/

/-- The variables of a state for arithmetic. Assignments reach the environments around. -/
def store : Arithmetic.Store State where
  lookup s name := s.env.get? name
  assign s name value :=
    { s with env := s.env.set name value, outer := s.outer.map fun env => env.set name value }

/-- The value of the arithmetic expression in a text. -/
def evaluate (text : String) : Exec Int64 := fun _ s next =>
  match (Arithmetic.evaluate store text.toList).run s with
  | (.ok value, s) => next (.ok value) s
  | (.error (.mistake error), s) => next (.error (.expansion (.arithmetic error))) s
  | (.error (.fault f), s) => next (.error (.fault (.arithmetic f))) s

/-! ## Command substitution -/

/-- Runs a script in a fork that writes to a sink of its own, and returns the text without
the newlines at its end. -/
def substitute (run : Runner) (body : Sequence) : Exec String := do
  let sink ← Exec.lift (Action.node .openSink)
  let status ← Exec.isolate true (·.capturing sink) (run body)
  Exec.modify fun s => { s with env := { s.env with status := status }, substitution := some status }
  let text ← Exec.lift (Action.node (.sinkText sink))
  return String.ofList (trimEnd (· == '\n') text.toList)

/-! ## Words -/

/-- Whether a part is `"$@"` inside its quotes. -/
def isAllPositional : WordPart → Bool
  | .parameter name => name == "@"
  | .length name => name == "@"
  | _ => false

/-- Whether a parameter can be given a value by `${NAME=WORD}`. -/
def isAssignable (name : String) : Bool :=
  match name.toList with
  | c :: _ => isLetter c || c == '_'
  | [] => false

mutual

/-- The segments of a part; `quoted` says whether it stands in double quotes. -/
def partSegments (run : Runner) (quoted : Bool) : WordPart → Exec (List Segment)
  | .literal text => return [.quoted text]
  | .singleQuoted text => return [.quoted text]
  | .escaped c => return [.quoted (String.singleton c)]
  | .doubleQuoted parts => do
    let segments ← partsSegments run true parts
    return if segments.isEmpty && !parts.any isAllPositional then [.quoted ""] else segments
  | .parameter name => parameterSegments name quoted
  | .length name => lengthSegments name quoted
  | .conditional name op argument => do
    let value ← parameter name
    let present := match value with
      | some text => !(op.colon && text.isEmpty)
      | none => false
    let own := [segment quoted (value.getD "")]
    match op.action with
    | .substitute => if present then return own else wordSegments run quoted argument
    | .alternative => if present then wordSegments run quoted argument else return []
    | .assign =>
      if present then return own
      if !isAssignable name then Exec.abort (.expansion (.notAssignable name))
      let text := Field.join (← wordSegments run false argument)
      Exec.modifyEnv fun env => env.set name text
      return [segment quoted text]
    | .require =>
      if present then return own
      let text := Field.join (← wordSegments run false argument)
      let message :=
        if !text.isEmpty then text
        else if op.colon then "parameter null or not set" else "parameter not set"
      Exec.abort (.expansion (.missing name message))
  | .substitution _ _ body => do
    return [segment quoted (← substitute run (body.getD ⟨[]⟩))]
  | .arithmetic expression => do
    let text := Field.join (← wordSegments run false expression)
    return [segment quoted (toString (← evaluate text).toInt)]

/-- The segments of parts, in order. -/
def partsSegments (run : Runner) (quoted : Bool) : List WordPart → Exec (List Segment)
  | [] => return []
  | part :: parts => do
    let segments ← partSegments run quoted part
    return segments ++ (← partsSegments run quoted parts)

/-- The segments of a word. -/
def wordSegments (run : Runner) (quoted : Bool) : Word → Exec (List Segment)
  | ⟨_, parts⟩ => partsSegments run quoted parts

end

/-- The text of a word, which is not cut. -/
def wordText (run : Runner) (word : Word) : Exec String := do
  return Field.join (← wordSegments run false word)

/-- The fields of a word. -/
def wordFields (run : Runner) (word : Word) : Exec (List String) := do
  let segments ← wordSegments run false word
  return Field.split segments (separators (← Exec.env))

/-- The fields of words, in order. -/
def fields (run : Runner) : List Word → Exec (List String)
  | [] => return []
  | word :: words => do
    let first ← wordFields run word
    return first ++ (← fields run words)

/-- The value of the arithmetic expression that a word expands to. -/
def evaluateWord (run : Runner) (word : Word) : Exec Int64 := do
  evaluate (← wordText run word)

end Shell.Expansion
