/-
`exit`, `return`, `break` and `continue`: the builtins that leave something.

`return`, `break` and `continue` are signals, which the code around passes on to the call or the
loop they are meant for. Where there is no such call or loop they are mistakes. `exit` leaves the
script, or the fork it is in.
-/
import Shell.Builtin
import Shell.Text.Numeral

set_option autoImplicit false

namespace Shell.Control

open Shell.Text

/-- The status that `exit` or `return` is given, which is `last` without an argument. Only eight
bits of a number count. -/
def readStatus (name : String) (last : Nat) : List String → Except Answer Nat
  | [] => .ok last
  | [code] =>
    match readDecimal? code.toList with
    | some n => .ok (byte n)
    | none => .error (.refusal (name ++ ": " ++ code ++ ": numeric argument required") 2)
  | _ => .error (.refusal (name ++ ": too many arguments") 1)

/-- `exit [N]`. -/
def exit (args : List String) : Exec Outcome := do
  match readStatus "exit" (← Exec.env).status args with
  | .error refusal => refusal.give
  | .ok status => Exec.abort (.exit (byte status))

/-- `return [N]`. Outside a function it fails, with the status it was given unless that is
zero. -/
def leaveFunction (args : List String) : Exec Outcome := do
  let env ← Exec.env
  match readStatus "return" env.status args with
  | .error refusal => refusal.give
  | .ok status =>
    if env.callDepth = 0 then
      (Answer.refusal "return: can only `return' from a function" (if status = 0 then 1 else status)).give
    else return .returned status

/-- How many loops `break` or `continue` is to leave. -/
def readLevels (name : String) : List String → Except Answer Nat
  | [] => .ok 1
  | [count] =>
    match readDecimal? count.toList with
    | some n =>
      if n < 1 then .error (.refusal (name ++ ": " ++ count ++ ": loop count out of range") 1)
      else .ok n.toNat
    | none => .error (.refusal (name ++ ": " ++ count ++ ": numeric argument required") 1)
  | _ => .error (.refusal (name ++ ": too many arguments") 1)

/-- A signal for so many loops, but no more than there are. -/
def signalLoops (name : String) (signal : Nat → Outcome) (args : List String) : Exec Outcome := do
  match readLevels name args with
  | .error refusal => refusal.give
  | .ok levels =>
    let depth := (← Exec.get).loopDepth
    if depth = 0 then
      (Answer.refusal (name ++ ": only meaningful in a `for', `while', or `until' loop") 0).give
    else return signal (min levels depth)

/-- `break [N]`. -/
def breakLoops (args : List String) : Exec Outcome := signalLoops "break" .broken args

/-- `continue [N]`. -/
def continueLoop (args : List String) : Exec Outcome := signalLoops "continue" .continued args

end Shell.Control
