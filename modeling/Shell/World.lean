/-
What tasks share: pipes, inputs, sinks, and the number of commands run.

The functions here carry out one operation of one task as far as it goes without
waiting. A task that has to wait for a pipe is put at the end of the pipe's list of
waiting tasks. Whenever a pipe changes, all tasks that wait for it are moved to the end
of the queue in the order they began to wait; each of them then tries its operation
again.

A task that reads a file of the host always waits, because the host reads it beside the
tasks. The first reading of a run is done when the task has begun to wait; a later one is
done when no task can go on. Either way its end is noticed through the queue, and only
then is the task put there.
-/
import Shell.Pipe
import Shell.Queue
import Shell.Stream
import Shell.Text.Lines

set_option autoImplicit false

namespace Shell

open Shell.Text

/-- What happens next: a task goes on, a piece that the host has read for a task is noticed,
or the end of a task is noticed by the task that started it. -/
inductive Event where
  | resume (task : Nat)
  | arrival (task : Nat)
  /-- `late` is set when the starter already knows that a stage has failed and waits
  for all of them to end. -/
  | report (task : Nat) (late : Bool)
  deriving DecidableEq, Repr

/-- A pipe and the tasks that wait for it to change, in the order they began to. -/
structure Channel where
  pipe : Pipe
  waiting : List Nat := []
  deriving Inhabited

structure World where
  /-- How many and-or lists have been started. -/
  count : Nat := 0
  inputs : Array Input := #[]
  channels : Array Channel := #[]
  /-- Whether the host has read for a task in this run. -/
  hostAwake : Bool := false
  /-- The tasks that the host is to read for when no task can go on, and their inputs. -/
  asked : List (Nat × Nat) := []
  /-- The texts written to each sink, the last one first. -/
  sinks : Array (List String) := #[]
  /-- The events to come. -/
  queue : Queue Event := {}
  deriving Inhabited

namespace World

/-! ## Pipes -/

def push (w : World) (event : Event) : World := { w with queue := w.queue.push event }

def channel (w : World) (index : Nat) : Channel := w.channels.getD index default

/-- Adds a pipe, and an input that reads from it. -/
def addPipe (w : World) (capacity : Nat) : World :=
  let index := w.channels.size
  { w with
    channels := w.channels.push { pipe := { capacity := capacity } }
    inputs := w.inputs.push (.ofPipe index) }

/-- Lets a task wait for a pipe to change. -/
def wait (w : World) (index task : Nat) : World :=
  { w with channels := w.channels.modify index fun c => { c with waiting := c.waiting ++ [task] } }

/-- Moves the tasks that wait for a pipe to the queue. -/
def wake (w : World) (index : Nat) : World :=
  match w.channels[index]? with
  | none => w
  | some c =>
    { w with
      queue := w.queue.pushAll (c.waiting.map .resume)
      channels := w.channels.setIfInBounds index { c with waiting := [] } }

/-- Changes a pipe. -/
def modifyPipe (w : World) (index : Nat) (f : Pipe → Pipe) : World :=
  { w with channels := w.channels.modify index fun c => { c with pipe := f c.pipe } }

/-- How far a write has come. -/
inductive Sent where
  | all
  | refused (abort : Abort)
  /-- These bytes are left, and there is no room for them now. -/
  | waiting (rest : List UInt8)

/-- Writes bytes to a pipe. Nothing is no write at all. -/
def send (w : World) (task index : Nat) (bytes : List UInt8) : World × Sent :=
  if bytes.isEmpty then (w, .all)
  else
    let pipe := (w.channel index).pipe
    match pipe.refusal? with
    | some abort => (w, .refused abort)
    | none =>
      if pipe.room = 0 then (w.wait index task, .waiting bytes)
      else
        let rest := bytes.drop pipe.room
        let w := (w.modifyPipe index fun p => (p.accept bytes).1).wake index
        if rest.isEmpty then (w, .all) else (w.wait index task, .waiting rest)

/-- Takes up to `size` bytes out of a pipe, or all that there are; none if the task has
to wait. A read after the read end was closed changes nothing. -/
def receive (w : World) (task index : Nat) (size : Option Nat) : World × Option (List UInt8) :=
  let pipe := (w.channel index).pipe
  if pipe.isWaiting then (w.wait index task, none)
  else if pipe.readClosed then (w, some [])
  else
    let bytes := (pipe.deliver size).1
    ((w.modifyPipe index fun p => (p.deliver size).2).wake index, some bytes)

def closeWrite (w : World) (index : Nat) : World := (w.modifyPipe index Pipe.closeWrite).wake index

def closeRead (w : World) (index : Nat) : World := (w.modifyPipe index Pipe.closeRead).wake index

/-! ## Sinks -/

/-- The text written to a sink. -/
def sinkText (w : World) (index : Nat) : String := String.join (w.sinks.getD index []).reverse

def writeSink (w : World) (index : Nat) (text : String) : World :=
  { w with sinks := w.sinks.modify index fun texts => text :: texts }

/-- Adds an empty sink and returns its number. -/
def addSink (w : World) : Nat × World := (w.sinks.size, { w with sinks := w.sinks.push [] })

/-- Writes text to an output. -/
def write (w : World) (task : Nat) (output : Output) (text : String) : World × Sent :=
  match output with
  | .sink index => (w.writeSink index text, .all)
  | .pipe index => w.send task index (Utf8.encode text.toList)

/-! ## Inputs -/

def input (w : World) (index : Nat) : Input := w.inputs.getD index default

def setInput (w : World) (index : Nat) (input : Input) : World :=
  { w with inputs := w.inputs.setIfInBounds index input }

/-! ### Files of the host -/

/-- The host reads the next piece of an input for a task. At the end of the file the piece is
empty. -/
def hostReads (w : World) (task index : Nat) : World :=
  let input := w.input index
  match input.source with
  | .host rest _ =>
    let source := .host rest.tail (some (rest.headD []))
    (w.setInput index { input with source := source }).push (.arrival task)
  | _ => w

/-- A task asks the host for a piece of an input, and waits. -/
def askHost (w : World) (task index : Nat) : World :=
  if w.hostAwake then { w with asked := w.asked ++ [(task, index)] }
  else { w.hostReads task index with hostAwake := true }

/-- What the host does when no task can go on: it reads for the first task that has asked. -/
def hostTurn (w : World) : World :=
  match w.asked with
  | [] => w
  | (task, index) :: rest => { w with asked := rest }.hostReads task index

/-! ### Waiting -/

/-- Whether a task waits for a pipe or for the host. -/
def isWaiting (w : World) (task : Nat) : Bool :=
  w.channels.any (fun c => c.waiting.contains task) || w.asked.any (fun a => a.1 = task) ||
    w.queue.any (· = .arrival task)

/-- Lets a task wait no longer. -/
def unwait (w : World) (task : Nat) : World :=
  { w with
    channels := w.channels.map fun c => { c with waiting := c.waiting.filter (· ≠ task) }
    asked := w.asked.filter fun a => a.1 ≠ task
    queue := w.queue.filter (· ≠ .arrival task) }

/-! ### Pieces and lines -/

/-- How many characters and bytes of an input are at hand, and a little more: a bound for the
number of pieces or lines that can be read without waiting. -/
def stock (w : World) (index : Nat) : Nat :=
  let input := w.input index
  let pending := input.pending.foldl (fun n piece => n + piece.length) 0
  match input.source with
  | .text rest => pending + rest.length + 4
  | .host _ ready => pending + (ready.getD []).length + 4
  | .pipe pipe _ _ => pending + (w.channel pipe).pipe.buffer.size + 4

/-- The next text out of a pipe, in at most `tries` reads: a read may give no more than a
part of a character. Nothing is the end of the input; none means that the task has to
wait. -/
def pull (w : World) (task index pipe : Nat) : (tries : Nat) → Utf8.Decoder →
    World × Option (List Char)
  | 0, _ => (w, some [])
  | tries + 1, decoder =>
    match w.receive task pipe none with
    | (w, none) => (w, none)
    | (w, some []) =>
      let pending := (w.input index).pending
      (w.setInput index ⟨pending, .pipe pipe .between true⟩, some (Utf8.finish decoder))
    | (w, some bytes) =>
      let (text, decoder) := Utf8.pushAll decoder bytes []
      let pending := (w.input index).pending
      let w := w.setInput index ⟨pending, .pipe pipe decoder false⟩
      if text.isEmpty then pull w task index pipe tries decoder else (w, some text)

/-- The next text out of the source of an input. `inside` says that the task has waited for it
and does not look for the end of the input first. -/
def nextPiece (w : World) (task index : Nat) (inside : Bool) : World × Option (List Char) :=
  let input := w.input index
  match input.source with
  | .text rest => (w.setInput index { input with source := .text [] }, some rest)
  | .host rest ready =>
    if inside then (w.setInput index { input with source := .host rest none }, ready)
    else (w.askHost task index, none)
  | .pipe pipe decoder ended =>
    if ended && !inside then (w, some []) else w.pull task index pipe 2 decoder

/-- The next text of an input: what is pending, or else a piece of the source. -/
def readPiece (w : World) (task index : Nat) (inside : Bool) : World × Option (List Char) :=
  let input := w.input index
  if inside || input.pending.isEmpty then w.nextPiece task index inside
  else (w.setInput index (input.withPending []), some input.pendingText)

/-- How many pieces can be read without waiting, at most: what is pending, a piece of the source
and an empty one, which is the end. -/
def maxPieces : Nat := 4

/-- The next line of an input with its newline, after at most `tries` pieces of the
source. The end of the input ends a line too. -/
def readLine (w : World) (task index : Nat) : (tries : Nat) → (inside : Bool) →
    World × Option (List Char)
  | 0, _ => (w, some [])
  | tries + 1, inside =>
    match if inside then none else (w.input index).takeLine? with
    | some (line, input) => (w.setInput index input, some line)
    | none =>
      match w.nextPiece task index inside with
      | (w, none) => (w, none)
      | (w, some []) =>
        let input := w.input index
        (w.setInput index (input.withPending []), some input.pendingText)
      | (w, some piece) =>
        readLine (w.setInput index ((w.input index).addPending piece)) task index tries false

/-- What a request came to: the text, or what is still wanted after waiting. -/
inductive Got where
  | text (text : List Char)
  | waiting (wanted : Wanted)

/-- Everything to the end of an input, in at most `tries` pieces. -/
def readAll (w : World) (task index : Nat) : (tries : Nat) → Bool → List (List Char) → World × Got
  | 0, _, done => (w, .text done.reverse.flatten)
  | tries + 1, inside, done =>
    match w.readPiece task index inside with
    | (w, none) => (w, .waiting ⟨.all, true, done⟩)
    | (w, some []) => (w, .text done.reverse.flatten)
    | (w, some piece) => readAll w task index tries false (piece :: done)

/-- Whether a line with its newline is continued by the next line: it ends with a
backslash that no backslash stands before. -/
def isContinued (line : List Char) : Bool :=
  match line.reverse with
  | '\n' :: '\\' :: '\\' :: _ => false
  | '\n' :: '\\' :: _ => true
  | _ => false

/-- The lines that continue the lines `done`, at most `lines` of them. -/
def readContinued (w : World) (task index : Nat) : (lines : Nat) → Bool → List (List Char) →
    World × Got
  | 0, _, done => (w, .text done.reverse.flatten)
  | lines + 1, inside, done =>
    match w.readLine task index maxPieces inside with
    | (w, none) => (w, .waiting ⟨.continued, true, done⟩)
    | (w, some line) =>
      if isContinued line then readContinued w task index lines false (line :: done)
      else (w, .text (line :: done).reverse.flatten)

/-- Meets a request as far as it goes without waiting. -/
def read (w : World) (task index : Nat) (wanted : Wanted) : World × Got :=
  match wanted.request with
  | .piece =>
    match w.readPiece task index wanted.inside with
    | (w, some text) => (w, .text text)
    | (w, none) => (w, .waiting ⟨.piece, true, []⟩)
  | .line =>
    match w.readLine task index maxPieces wanted.inside with
    | (w, some text) => (w, .text text)
    | (w, none) => (w, .waiting ⟨.line, true, []⟩)
  | .continued =>
    match w.readLine task index maxPieces wanted.inside with
    | (w, none) => (w, .waiting ⟨.continued, true, wanted.done⟩)
    | (w, some line) =>
      if isContinued line then
        w.readContinued task index (w.stock index) false (line :: wanted.done)
      else (w, .text (line :: wanted.done).reverse.flatten)
  | .all => w.readAll task index maxPieces wanted.inside wanted.done

/-! ## Copying -/

/-- How far a copy has come. -/
inductive Copied where
  /-- The input has ended; the number of the last line. -/
  | all (number : Option Nat)
  | refused (abort : Abort)
  /-- Nothing to read now. -/
  | reading (wanted : Wanted) (number : Option Nat)
  /-- No room now for these bytes. -/
  | writing (pipe : Nat) (rest : List UInt8) (number : Option Nat)

/-- Copies an input to an output: piece by piece, or line by line behind the numbers after
`number`. At most `turns` pieces or lines. -/
def copy (w : World) (task index : Nat) (output : Output) : (turns : Nat) → Wanted → Option Nat →
    World × Copied
  | 0, wanted, number => (w, .reading wanted number)
  | turns + 1, wanted, number =>
    match w.read task index wanted with
    | (w, .waiting wanted) => (w, .reading wanted number)
    | (w, .text []) => (w, .all number)
    | (w, .text text) =>
      let text := String.ofList text
      let (number, text) := match number with
        | some n => (some (n + 1), numberedLine (n + 1) text)
        | none => (none, text)
      match w.write task output text with
      | (w, .all) => copy w task index output turns ⟨wanted.request, false, []⟩ number
      | (w, .refused abort) => (w, .refused abort)
      | (w, .waiting rest) =>
        match output with
        | .pipe pipe => (w, .writing pipe rest number)
        | .sink _ => (w, .all number)

end World

end Shell
