/-
A bounded byte channel between two stages of a pipeline.

The operations here are the steps that happen without waiting. A write that finds the
pipe full, and a read that finds it empty while both ends are open, have to wait until
the pipe changes; `accept` and `deliver` say so, and the caller tries again then.
-/
import Shell.Abort

set_option autoImplicit false

namespace Shell

/-- A pipe. -/
structure Pipe where
  capacity : Nat
  /-- The bytes written and not read yet. -/
  buffer : Array UInt8 := #[]
  writeClosed : Bool := false
  readClosed : Bool := false
  deriving Repr, DecidableEq, Inhabited

namespace Pipe

/-- The room that is left. -/
def room (pipe : Pipe) : Nat := pipe.capacity - pipe.buffer.size

/-- Why a pipe takes no bytes: nobody reads any more, or the write end is closed. -/
def refusal? (pipe : Pipe) : Option Abort :=
  if pipe.readClosed then some .brokenPipe
  else if pipe.writeClosed then some (.fault .writeEndClosed)
  else none

/-- Takes as many of the bytes as there is room for; returns the pipe and the bytes
that are left. -/
def accept (pipe : Pipe) (bytes : List UInt8) : Pipe × List UInt8 :=
  let n := pipe.room
  ({ pipe with buffer := (bytes.take n).foldl Array.push pipe.buffer }, bytes.drop n)

/-- Whether a read has to wait. -/
def isWaiting (pipe : Pipe) : Bool :=
  pipe.buffer.isEmpty && !pipe.writeClosed && !pipe.readClosed

/-- Gives up to `size` bytes, or all that there are; nothing at the end of the input. -/
def deliver (pipe : Pipe) (size : Option Nat) : List UInt8 × Pipe :=
  match size with
  | some n =>
    if n < pipe.buffer.size then
      (pipe.buffer.toList.take n, { pipe with buffer := pipe.buffer.extract n pipe.buffer.size })
    else (pipe.buffer.toList, { pipe with buffer := #[] })
  | none => (pipe.buffer.toList, { pipe with buffer := #[] })

/-- Says that no more will be written. -/
def closeWrite (pipe : Pipe) : Pipe := { pipe with writeClosed := true }

/-- Says that no more will be read, and drops what has not been. -/
def closeRead (pipe : Pipe) : Pipe := { pipe with readClosed := true, buffer := #[] }

end Pipe

end Shell
