/-
Jobs: what a task has still to do.

A job is a tree. Its leaves say how the task ends, and every other node is one operation
with the jobs that follow its possible results. All paths are finite, so a task ends after
finitely many operations of its own; the one loop that no tree can unfold, copying an
input to an output, is a single operation.

The stages of a pipeline are jobs inside the tree of the task that starts them. They are
given their streams when they are started.

An `Action` is a job with a hole: it takes what to do with its result. Sequencing actions
puts one tree into the holes of another.
-/
import Shell.Stream
import Shell.Abort

set_option autoImplicit false

namespace Shell

/-- What a task has to do before it ends with a result in `ρ`. -/
inductive Job (ρ : Type) where
  | finish (result : ρ)
  | fail (abort : Abort)
  /-- Reads from an input. -/
  | read (input : Nat) (wanted : Wanted) (next : String → Job ρ)
  /-- Writes to an output; an abort says why it could not. -/
  | write (output : Output) (text : String) (next : Option Abort → Job ρ)
  /-- Writes bytes to a pipe. -/
  | send (pipe : Nat) (bytes : List UInt8) (next : Option Abort → Job ρ)
  /-- Reads bytes from a pipe, at most `size` if it is given. -/
  | receive (pipe : Nat) (size : Option Nat) (next : List UInt8 → Job ρ)
  | closeWrite (pipe : Nat) (next : Job ρ)
  | closeRead (pipe : Nat) (next : Job ρ)
  /-- Copies an input to an output, with lines numbered on from `number` if it is given. -/
  | copy (input : Nat) (output : Output) (wanted : Wanted) (number : Option Nat)
      (next : Except Abort (Option Nat) → Job ρ)
  /-- Counts one more and-or list in the whole run, and tells how many there are now. -/
  | count (next : Nat → Job ρ)
  /-- Makes a new sink and tells its number. -/
  | openSink (next : Nat → Job ρ)
  /-- Tells the text written to a sink. -/
  | sinkText (index : Nat) (next : String → Job ρ)
  /-- Runs `stages` stages at the same time, with pipes of the given capacity from each to
  the next. The first reads from `input` and the last writes to `output`. The result is that
  of the last stage, or the abort of the first one that failed. -/
  | pipeline (stages capacity input : Nat) (output : Output)
      (stage : (index : Nat) → (input : Nat) → (output : Output) → Job ρ)
      (next : Except Abort ρ → Job ρ)

/-- A job up to its result, of which the rest of the job is a function. -/
def Action (ρ α : Type) := (Except Abort α → Job ρ) → Job ρ

namespace Action

variable {ρ α β : Type}

instance : Monad (Action ρ) where
  pure a := fun next => next (.ok a)
  bind x f := fun next =>
    x fun
      | .ok a => f a next
      | .error abort => next (.error abort)

def abort (a : Abort) : Action ρ α := fun next => next (.error a)

/-- An action whose result is that of a node without failures. -/
def node (f : (α → Job ρ) → Job ρ) : Action ρ α := fun next => f fun a => next (.ok a)

/-- An action of a node that may fail. -/
def fallible (f : (Option Abort → Job ρ) → Job ρ) : Action ρ Unit := fun next =>
  f fun
    | none => next (.ok ())
    | some a => next (.error a)

def read (input : Nat) (request : Request) : Action ρ String :=
  node (.read input ⟨request, false, []⟩)

def write (output : Output) (text : String) : Action ρ Unit := fallible (.write output text)

/-- Copies an input to an output, piece by piece. -/
def copy (input : Nat) (output : Output) : Action ρ Unit := fun next =>
  .copy input output ⟨.piece, false, []⟩ none fun
    | .ok _ => next (.ok ())
    | .error a => next (.error a)

/-- Copies the lines of an input to an output behind their numbers, which follow `number`;
returns the last number. -/
def copyNumbered (input : Nat) (output : Output) (number : Nat) : Action ρ Nat := fun next =>
  .copy input output ⟨.line, false, []⟩ (some number) fun
    | .ok last => next (.ok (last.getD number))
    | .error a => next (.error a)

end Action

end Shell
