/-
Calls on one pipe and on the streams at its ends, each of them a task of its own.

A call that cannot be met at once waits, and later calls are made meanwhile. So any
interleaving of reads, writes and closes can be tried on a pipe.
-/
import Shell.Scheduler

set_option autoImplicit false

namespace Shell

/-- A call on a pipe, on the input stream at its read end, or on the output stream at its write
end. -/
inductive PipeCall where
  | write (bytes : List UInt8)
  /-- Reads at most `size` bytes, or all that there are. -/
  | read (size : Option Nat)
  | closeWrite
  | closeRead
  /-- Reads text from the input stream. -/
  | request (request : Request)
  | closeInput
  | writeText (text : String)
  | flush
  | closeOutput
  deriving DecidableEq, Repr

/-- The result of a call. -/
inductive PipeResult where
  | none
  | bytes (bytes : List UInt8)
  | text (text : String)
  deriving DecidableEq, Repr

namespace PipeCall

/-- A result, or the abort that kept a call from having one. -/
def finished (abort? : Option Abort) : Job PipeResult :=
  match abort? with
  | some abort => .fail abort
  | .none => .finish .none

/-- What the task of a call has to do. The pipe and the input stream have the number 0. -/
def job : PipeCall → Job PipeResult
  | write bytes => .send 0 bytes finished
  | read size => .receive 0 size fun bytes => .finish (.bytes bytes)
  | closeWrite => .closeWrite 0 (.finish .none)
  | closeRead => .closeRead 0 (.finish .none)
  | request wanted => .read 0 ⟨wanted, false, []⟩ fun text => .finish (.text text)
  | closeInput => .closeRead 0 (.finish .none)
  | writeText text => .write (.pipe 0) text finished
  | flush => .finish .none
  | closeOutput => .closeWrite 0 (.finish .none)

/-- A machine with one pipe and an input stream on it. -/
def machine (capacity : Nat) : Machine PipeResult :=
  { world := { inputs := #[.ofPipe 0], channels := #[{ pipe := { capacity := capacity } }] } }

/-- Makes a call and runs until all tasks have ended or wait. -/
def make (call : PipeCall) (m : Machine PipeResult) : Machine PipeResult :=
  (m.addTask { phase := .active call.job }).run Machine.maxTurns

end PipeCall

end Shell
