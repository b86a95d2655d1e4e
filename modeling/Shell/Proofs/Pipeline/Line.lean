/-
The pipes of a running pipeline, and why they cannot hold each other up.

The stages of a pipeline stand in a line, with a pipe from each to the next. `Line` says where
they are and `Pipes` what is true of the pipes at any time: the write end of a pipe is closed
exactly if the stage on its left has ended, and the read end exactly if the stage on its right
has.

A stage can be held up from two sides. One that waits for bytes looks at an empty pipe that is
still written to, so the stage on its left has not ended; and that one cannot wait for room in
the same pipe. So it waits for bytes too, and so on to the left, where the first stage reads what
never makes it wait. One that waits for room is held up in the same way from the right. The two
halves are `Pipes.not_dry` and `Pipes.not_clogged`; the second needs the first.
-/
import Shell.Proofs.Machine.Start
import Shell.Proofs.World.Later
import Shell.Proofs.Pipeline.Stage

set_option autoImplicit false

namespace Shell

/-- Where the tasks, the pipes and the inputs of a pipeline are. -/
structure Line where
  /-- The task that has started the stages. -/
  starter : Nat
  stages : Nat
  capacity : Nat
  /-- Where the first stage reads and the last one writes. -/
  input : Nat
  output : Output
  /-- The task of the first stage. -/
  task : Nat
  /-- The pipe from the first stage to the second. -/
  pipe : Nat
  /-- The input of the second stage. -/
  fresh : Nat

namespace Line

/-- Where a stage reads. -/
def inputOf (line : Line) (k : Nat) : Nat := inputAt line.input line.fresh k

/-- Where a stage writes. -/
def outputOf (line : Line) (k : Nat) : Output := outputAt line.output line.stages line.pipe k

theorem outputOf_inner {line : Line} {k : Nat} (h : k + 1 < line.stages) :
    line.outputOf k = .pipe (line.pipe + k) := if_pos h

theorem outputOf_last {line : Line} {k : Nat} (h : k + 1 = line.stages) :
    line.outputOf k = line.output := if_neg (by omega)

/-! ## 1. The pipes of a line -/

/-- What is true of the pipes while the stages `done` have ended. The outer streams never make a
stage wait: the input is no file of the host, and if it or the output is a pipe then not both
ends of it are open. -/
structure Pipes (line : Line) (w : World) (done : Nat → Prop) : Prop where
  channels : w.channels.size = line.pipe + (line.stages - 1)
  inputs : w.inputs.size = line.fresh + (line.stages - 1)
  supply : ∀ k, k + 1 < line.stages →
    (w.input (line.fresh + k)).supply = .pipe (line.pipe + k)
  known : line.input < line.fresh
  first : (w.input line.input).supply ≠ .host
  firstPipe : ∀ q, (w.input line.input).supply = .pipe q →
    q < line.pipe ∧ ¬ (w.channel q).pipe.IsOpen
  last : ∀ c, line.output = .pipe c → c < line.pipe ∧ (w.channel c).pipe.readClosed = true
  capacity : ∀ k, k + 1 < line.stages →
    (w.channel (line.pipe + k)).pipe.capacity = line.capacity
  bounded : ∀ k, k + 1 < line.stages → (w.channel (line.pipe + k)).pipe.IsBounded
  writeClosed : ∀ k, k + 1 < line.stages →
    ((w.channel (line.pipe + k)).pipe.writeClosed = true ↔ done k)
  readClosed : ∀ k, k + 1 < line.stages →
    ((w.channel (line.pipe + k)).pipe.readClosed = true ↔ done (k + 1))

/-- Every stage that has not ended is held up. -/
def Stuck (line : Line) (w : World) (done : Nat → Prop) : Prop :=
  ∀ k < line.stages, ¬ done k → w.Dry (line.inputOf k) ∨ w.Clogged (line.outputOf k)

namespace Pipes

variable {line : Line} {w w' : World} {done : Nat → Prop}

/-- What is in the pipes does not matter. -/
theorem of_alike (h : line.Pipes w done) (hw : w.Alike w') : line.Pipes w' done where
  channels := hw.channels.trans h.channels
  inputs := hw.inputs.trans h.inputs
  supply := fun k hk => (hw.supply _).trans (h.supply k hk)
  known := h.known
  first := by
    rw [hw.supply]
    exact h.first
  firstPipe := by
    intro q hq
    rw [hw.supply] at hq
    obtain ⟨hlt, hno⟩ := h.firstPipe q hq
    exact ⟨hlt, fun ho => hno ((hw.isOpen_iff q).1 ho)⟩
  last := fun c hc => ⟨(h.last c hc).1, (hw.readClosed c).trans (h.last c hc).2⟩
  capacity := fun k hk => (hw.capacity _).trans (h.capacity k hk)
  bounded := fun k hk => hw.bounded _ (h.bounded k hk)
  writeClosed := by
    intro k hk
    rw [hw.writeClosed]
    exact h.writeClosed k hk
  readClosed := by
    intro k hk
    rw [hw.readClosed]
    exact h.readClosed k hk

theorem congr {done' : Nat → Prop} (h : line.Pipes w done)
    (hd : ∀ k < line.stages, done k ↔ done' k) : line.Pipes w done' :=
  { h with
    writeClosed := fun k hk => (h.writeClosed k hk).trans (hd k (by omega))
    readClosed := fun k hk => (h.readClosed k hk).trans (hd (k + 1) hk) }

/-- A stage reads from a pipe of the line or from the input of the pipeline. -/
theorem supply_succ (h : line.Pipes w done) {k : Nat} (hk : k + 1 < line.stages) :
    (w.input (line.inputOf (k + 1))).supply = .pipe (line.pipe + k) := h.supply k hk

theorem lt_of_supply (h : line.Pipes w done) {k q : Nat} (hk : k < line.stages)
    (hq : (w.input (line.inputOf k)).supply = .pipe q) : q < w.channels.size := by
  rw [h.channels]
  cases k with
  | zero =>
    have := (h.firstPipe q hq).1
    omega
  | succ k =>
    have := Supply.pipe.inj ((h.supply_succ hk).symm.trans hq)
    omega

theorem lt_of_outputOf (h : line.Pipes w done) {k c : Nat} (hk : k < line.stages)
    (hc : line.outputOf k = .pipe c) : c < w.channels.size := by
  rw [h.channels]
  by_cases hin : k + 1 < line.stages
  · rw [outputOf_inner hin] at hc
    have := Output.pipe.inj hc
    omega
  · rw [outputOf_last (by omega)] at hc
    have := (h.last c hc).1
    omega

/-- The world suits a stage that has not ended. -/
theorem suits (h : line.Pipes w done) {k : Nat} (hk : k < line.stages) (hd : ¬ done k) :
    w.Suits (line.inputOf k) (line.outputOf k) := by
  refine ⟨?_, fun pipe ho hc => ?_, fun pipe ho hs hopen => ?_⟩
  -- Inner stages read from pipes, and the first one reads no file of the host.
  · cases k with
    | zero => exact h.first
    | succ k =>
      rw [h.supply_succ hk]
      exact fun he => by cases he
  · by_cases hin : k + 1 < line.stages
    -- A pipe of the line is closed for writing only by the stage itself.
    · rw [outputOf_inner hin] at ho
      obtain rfl := Output.pipe.inj ho
      exact absurd ((h.writeClosed k hin).1 hc) hd
    · rw [outputOf_last (by omega)] at ho
      exact (h.last pipe ho).2
  · cases k with
    -- The first stage reads nothing that is open at both ends.
    | zero => exact (h.firstPipe pipe hs).2 hopen
    | succ k =>
      rw [h.supply_succ hk] at hs
      obtain rfl := Supply.pipe.inj hs
      -- It reads the pipe on its left, and that is neither the one on its right nor an old one.
      by_cases hin : k + 1 + 1 < line.stages
      · rw [outputOf_inner hin] at ho
        have := Output.pipe.inj ho
        omega
      · rw [outputOf_last (by omega)] at ho
        have := (h.last _ ho).1
        omega

/-! ### When a stage ends -/

theorem outputOf_eq_iff (h : line.Pipes w done) {j k : Nat} (hk : k < line.stages)
    (hj : j + 1 < line.stages) : line.outputOf k = .pipe (line.pipe + j) ↔ j = k := by
  by_cases hin : k + 1 < line.stages
  · rw [outputOf_inner hin]
    constructor
    · intro he
      have := Output.pipe.inj he
      omega
    · rintro rfl
      rfl
  · rw [outputOf_last (by omega)]
    constructor
    · intro he
      have := (h.last _ he).1
      omega
    · intro he
      omega

theorem supply_eq_iff (h : line.Pipes w done) {j k : Nat} (hk : k < line.stages) :
    (w.input (line.inputOf k)).supply = .pipe (line.pipe + j) ↔ j + 1 = k := by
  cases k with
  | zero =>
    constructor
    · intro he
      have := (h.firstPipe _ he).1
      omega
    · intro he
      omega
  | succ k =>
    rw [h.supply_succ hk]
    constructor
    · intro he
      have := Supply.pipe.inj he
      omega
    · intro he
      obtain rfl : j = k := by omega
      rfl

/-- What becomes of a pipe of the line when a stage closes its ends. -/
theorem pipe_closed (h : line.Pipes w done) {j k : Nat} (hk : k < line.stages)
    (hj : j + 1 < line.stages) :
    ((w.closeEnds (line.inputOf k) (line.outputOf k)).channel (line.pipe + j)).pipe =
      if j + 1 = k then (w.channel (line.pipe + j)).pipe.closeRead
      else if j = k then (w.channel (line.pipe + j)).pipe.closeWrite
      else (w.channel (line.pipe + j)).pipe := by
  have hlt : line.pipe + j < w.channels.size := by
    rw [h.channels]
    omega
  rw [World.pipe_closeEnds _ _ hlt]
  simp only [h.supply_eq_iff hk, h.outputOf_eq_iff hk hj]
  by_cases hjk : j + 1 = k
  · rw [if_pos hjk, if_pos hjk, if_neg (by omega)]
  · rw [if_neg hjk, if_neg hjk]

/-- A stage that ends closes the pipe on its right for writing and the one on its left for
reading. -/
theorem closed (h : line.Pipes w done) {k : Nat} (hk : k < line.stages) :
    line.Pipes (w.closeEnds (line.inputOf k) (line.outputOf k)) fun j => done j ∨ j = k := by
  have hlater := w.later_closeEnds (line.inputOf k) (line.outputOf k)
  have hinputs := w.inputs_closeEnds (line.inputOf k) (line.outputOf k)
  have hsize := w.size_closeEnds (line.inputOf k) (line.outputOf k)
  have hpipe {j : Nat} (hj : j + 1 < line.stages) := h.pipe_closed hk hj
  generalize w.closeEnds (line.inputOf k) (line.outputOf k) = w' at hlater hinputs hsize hpipe ⊢
  have hinput (i : Nat) : w'.input i = w.input i := by
    rw [World.input, hinputs]
    rfl
  refine ⟨hsize.trans h.channels, (congrArg Array.size hinputs).trans h.inputs, fun j hj => ?_,
    h.known, ?_, fun q hq => ?_, fun c hc => ?_, fun j hj => ?_, fun j hj => ?_, fun j hj => ?_,
    fun j hj => ?_⟩
  · rw [hinput]
    exact h.supply j hj
  · rw [hinput]
    exact h.first
  · rw [hinput] at hq
    exact ⟨(h.firstPipe q hq).1, fun ho => (h.firstPipe q hq).2 (hlater.isOpen ho)⟩
  · exact ⟨(h.last c hc).1, hlater.readClosed c (h.last c hc).2⟩
  · have hc := h.capacity j hj
    rw [hpipe hj]
    split
    · exact hc
    · split
      · exact hc
      · exact hc
  · have hb := h.bounded j hj
    rw [hpipe hj]
    split
    · exact Pipe.isBounded_closeRead _
    · split
      · exact hb.closeWrite
      · exact hb
  · have hd := h.writeClosed j hj
    rw [hpipe hj]
    -- The flag is set by the stage on the left, and no other stage touches it.
    by_cases hjk : j = k
    · rw [if_neg (by omega), if_pos hjk]
      exact ⟨fun _ => .inr hjk, fun _ => rfl⟩
    · rw [or_iff_left hjk, if_neg hjk, ← hd]
      split
      · rfl
      · rfl
  · have hd := h.readClosed j hj
    rw [hpipe hj]
    by_cases hjk : j + 1 = k
    · rw [if_pos hjk]
      exact ⟨fun _ => .inr hjk, fun _ => rfl⟩
    · rw [or_iff_left hjk, if_neg hjk, ← hd]
      split
      · rfl
      · rfl

/-! ## 2. Nobody is held up for ever -/

/-- If every stage that has not ended is held up then none of them waits for bytes. -/
theorem not_dry (h : line.Pipes w done) (hcap : 1 ≤ line.capacity) (hheld : line.Stuck w done)
    {k : Nat} (hk : k < line.stages) : ¬ w.Dry (line.inputOf k) := by
  induction k with
  | zero =>
    rintro ⟨q, hq, he⟩
    exact (h.firstPipe q hq).2 ((Pipe.isWaiting_iff _).1 he).2
  | succ k ih =>
    rintro ⟨q, hq, he⟩
    obtain rfl := Supply.pipe.inj ((h.supply_succ hk).symm.trans hq)
    obtain ⟨hempty, hopen⟩ := (Pipe.isWaiting_iff _).1 he
    -- The pipe is still written to, so the stage on its left is held up too.
    have hleft : ¬ done k := fun hd => by
      have hc := (h.writeClosed k hk).2 hd
      exact hopen.not_writeClosed hc
    rcases hheld k (by omega) hleft with hdry | ⟨c, hc, -, hroom⟩
    -- It does not wait for room, since the pipe between the two is empty.
    · exact ih (by omega) hdry
    · rw [outputOf_inner hk] at hc
      obtain rfl := Output.pipe.inj hc
      have hfull := (h.bounded k hk).isFull hroom
      exact hfull.not_isEmpty (by rw [h.capacity k hk]; exact hcap) hempty

/-- Nor does any of them wait for room. -/
theorem not_clogged (h : line.Pipes w done) (hcap : 1 ≤ line.capacity)
    (hheld : line.Stuck w done) (left : Nat) {k : Nat} (hk : k + left + 1 = line.stages) :
    ¬ w.Clogged (line.outputOf k) := by
  induction left generalizing k with
  | zero =>
    rintro ⟨c, hc, hopen, -⟩
    rw [outputOf_last hk] at hc
    exact hopen.not_readClosed (h.last c hc).2
  | succ left ih =>
    rintro ⟨c, hc, hopen, -⟩
    have hin : k + 1 < line.stages := by omega
    rw [outputOf_inner hin] at hc
    obtain rfl := Output.pipe.inj hc
    -- The pipe is still read from, so the stage on its right is held up too.
    have hright : ¬ done (k + 1) := fun hd => by
      have hcl := (h.readClosed k hin).2 hd
      exact hopen.not_readClosed hcl
    rcases hheld (k + 1) hin hright with hdry | hclogged
    · exact h.not_dry hcap hheld hin hdry
    · exact ih (by omega) hclogged

/-- **Among the stages that have not ended, one is not held up.** -/
theorem exists_free (h : line.Pipes w done) (hcap : 1 ≤ line.capacity) {k : Nat}
    (hk : k < line.stages) (hd : ¬ done k) :
    ∃ j < line.stages, ¬ done j ∧ ¬ w.Dry (line.inputOf j) ∧ ¬ w.Clogged (line.outputOf j) := by
  refine Classical.byContradiction fun hno => ?_
  have hheld : line.Stuck w done := by
    intro j hj hdj
    by_cases hdry : w.Dry (line.inputOf j)
    · exact .inl hdry
    -- Otherwise this one would do.
    · refine .inr (Classical.byContradiction fun hcl => ?_)
      exact hno ⟨j, hj, hdj, hdry, hcl⟩
  rcases hheld k hk hd with hdry | hclogged
  · exact h.not_dry hcap hheld hk hdry
  · exact h.not_clogged hcap hheld (line.stages - 1 - k) (by omega) hclogged

end Pipes

end Line

end Shell
