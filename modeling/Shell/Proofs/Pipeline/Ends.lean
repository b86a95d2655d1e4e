/-
What a pipeline does to the ends it inherits.

A stage closes the ends that it was given when it ends. It does not ask who made them. The inner
stages were given new pipes, but the first one was given the input of the pipeline and the last
one its output, and if these are pipes of a pipeline around it then they are closed with the
others. So a pipeline leaves its streams open exactly if they are no pipes
(`leavesOpen_iff`), and what comes after it in a group, a loop or a function finds them closed:
it reads nothing and its writes are refused.

Nothing is assumed of the jobs, neither of the stages nor of the other tasks, and nothing of the
order of turns.
-/
import Shell.Execution
import Shell.Session
import Shell.Proofs.Machine.Later
import Shell.Proofs.Machine.Start

set_option autoImplicit false

namespace Shell.Machine

variable {ρ : Type} {m m' : Machine ρ} {p stages input : Nat} {output : Output}

/-- A task has come to a pipeline, and after turns in any order all stages have ended with a
result. -/
structure Ran (m : Machine ρ) (p stages input : Nat) (output : Output) (m' : Machine ρ) :
    Prop where
  job : ∃ capacity stage next,
    (m.task p).phase = .active (.pipeline stages capacity input output stage next)
  live : (m.task p).cancelled = false
  several : 2 ≤ stages
  /-- The streams are there. -/
  known : input < m.world.inputs.size
  readEnd : ∀ q, (m.world.input input).supply = .pipe q → q < m.world.channels.size
  writeEnd : ∀ c, output = .pipe c → c < m.world.channels.size
  turns : (m.resume p).Turns m'
  ended : ∀ k < stages, ∃ r, m'.result? (m.tasks.size + k) = some (.ok r)

/-- No end that a pipeline inherits is closed. -/
structure LeavesOpen (m : Machine ρ) (input : Nat) (output : Output) (m' : Machine ρ) : Prop where
  read : ∀ q, (m.world.input input).supply = .pipe q →
    (m'.world.channel q).pipe.readClosed = false
  write : ∀ c, output = .pipe c → (m'.world.channel c).pipe.writeClosed = false

namespace Ran

/-- All stages of the pipeline have been started with their ends. -/
theorem started (h : m.Ran p stages input output m') :
    ∃ capacity stage, ∃ m₁ : Machine ρ, m₁.world = m.world ∧ m₁.tasks.size = m.tasks.size ∧
      m₁.Started p stages capacity input output stage (m.resume p) := by
  obtain ⟨capacity, stage, next, hp⟩ := h.job
  refine ⟨capacity, fun k => stage (0 + k),
    m.became p (.joining m.tasks.size stages 0 next) m.world, rfl, size_became _ _ _ _, ?_⟩
  rw [resume_of_pipeline hp h.live]
  exact Machine.started p capacity output stage stages 0 input _
    (Nat.le_trans (by decide) h.several)

/-- A stage that has ended has closed its ends. -/
theorem endsClosed (h : m.Ran p stages input output m') {k : Nat} (hk : k < stages) :
    (m.resume p).EndsClosed (m.tasks.size + k) m'.world := by
  obtain ⟨capacity, stage, m₁, -, hsize, hst⟩ := h.started
  obtain ⟨r, hr⟩ := h.ended k hk
  have ht := hst.newTask k hk
  rw [hsize] at ht
  -- Between its start and its end the stage has closed what it was given.
  refine (later_turns h.turns).ends _ ?_ r ?_ ?_ hr
  · rw [hst.size, hsize]
    omega
  · rw [ht]
    exact Option.some_ne_none p
  · rw [result?, ht]

/-- The first stage has closed the read end that the pipeline inherited. -/
theorem readClosed (h : m.Ran p stages input output m') {q : Nat}
    (hq : (m.world.input input).supply = .pipe q) :
    (m'.world.channel q).pipe.readClosed = true := by
  have hpos : 0 < stages := Nat.lt_of_lt_of_le (by decide) h.several
  obtain ⟨capacity, stage, m₁, hw, hsize, hst⟩ := h.started
  have hin : ((m.resume p).task (m.tasks.size + 0)).input = input := by
    rw [← hsize, hst.newTask 0 hpos]
    rfl
  refine (h.endsClosed hpos).read q ?_ ?_ ?_
  · rw [hst.channels, hw]
    exact Nat.lt_of_lt_of_le (h.readEnd q hq) (Nat.le_add_right _ _)
  · rw [hin, hst.inputs, hw]
    exact Nat.lt_of_lt_of_le h.known (Nat.le_add_right _ _)
  · rw [hin, hst.oldInput input (by rw [hw]; exact h.known), hw]
    exact hq

/-- The last stage has closed the write end that the pipeline inherited. -/
theorem writeClosed (h : m.Ran p stages input output m') {c : Nat} (hc : output = .pipe c) :
    (m'.world.channel c).pipe.writeClosed = true := by
  have hlast : stages - 1 < stages := by
    have := h.several
    omega
  obtain ⟨capacity, stage, m₁, hw, hsize, hst⟩ := h.started
  refine (h.endsClosed hlast).write c ?_ ?_
  · rw [hst.channels, hw]
    exact Nat.lt_of_lt_of_le (h.writeEnd c hc) (Nat.le_add_right _ _)
  · rw [← hsize, hst.newTask _ hlast]
    show outputAt output stages m₁.world.channels.size (stages - 1) = .pipe c
    -- The last stage writes where the pipeline does.
    rw [outputAt, if_neg (by omega), hc]

end Ran

/-- **A pipeline leaves its streams open exactly if they are no pipes.** If the input is one then
whatever reads from it afterwards gets nothing, and if the output is one then whatever writes to
it afterwards is refused. -/
theorem leavesOpen_iff (h : m.Ran p stages input output m') :
    (m.LeavesOpen input output m' ↔
      (∀ q, (m.world.input input).supply ≠ .pipe q) ∧ ∀ c, output ≠ .pipe c) ∧
    (∀ q, (m.world.input input).supply = .pipe q → ∀ task size,
      m'.world.receive task q size = (m'.world, some [])) ∧
    ∀ c, output = .pipe c → ∀ task bytes, bytes ≠ [] →
      ∃ abort, m'.world.send task c bytes = (m'.world, .refused abort) := by
  refine ⟨⟨fun ho => ⟨fun q hq => ?_, fun c hc => ?_⟩, fun hn => ⟨fun q hq => ?_, fun c hc => ?_⟩⟩,
    fun q hq task size => ?_, fun c hc task bytes hb => ?_⟩
  · exact Bool.false_ne_true ((ho.read q hq).symm.trans (h.readClosed hq))
  · exact Bool.false_ne_true ((ho.write c hc).symm.trans (h.writeClosed hc))
  · exact absurd hq (hn.1 q)
  · exact absurd hc (hn.2 c)
  · exact World.receive_of_readClosed (h.readClosed hq) task size
  · refine World.send_of_not_isOpen (fun ho => ?_) task hb
    exact ho.not_writeClosed (h.writeClosed hc)

/-! ## A group with a pipeline in it -/

/-- Writes a letter, or copies. -/
def letterStage (index input : Nat) (output : Output) : Job Nat :=
  if index = 0 then .write output "a" fun _ => .finish 0
  else .copy input output ⟨.piece, false, []⟩ none fun _ => .finish 0

/-- A pipeline of two stages that writes to a pipe which was there before. -/
def lettersIntoPipe : Machine Nat where
  tasks := #[{ phase := .active (.pipeline 2 4 0 (.pipe 0) letterStage fun _ => .finish 0) }]
  world := { inputs := #[.ofText ""], channels := #[{ pipe := { capacity := 4 } }] }

theorem lettersIntoPipe_ran :
    lettersIntoPipe.Ran 0 2 0 (.pipe 0) ((lettersIntoPipe.resume 0).run 8) where
  job := ⟨4, letterStage, _, rfl⟩
  live := rfl
  several := Nat.le_refl 2
  known := Nat.one_pos
  readEnd := by
    intro q hq
    cases hq
  writeEnd := by
    rintro c ⟨⟩
    exact Nat.one_pos
  turns := turns_run 8 _
  ended := by
    intro k hk
    match k with
    | 0 => exact ⟨0, rfl⟩
    | 1 => exact ⟨0, rfl⟩
    | k + 2 => omega

/-- A letter written after the pipeline does not arrive. -/
theorem lettersIntoPipe_refuses :
    ∃ abort, ((lettersIntoPipe.resume 0).run 8).world.send 0 0 [98] =
      (((lettersIntoPipe.resume 0).run 8).world, .refused abort) :=
  (leavesOpen_iff lettersIntoPipe_ran).2.2 0 rfl 0 [98] (List.cons_ne_nil _ _)

/-- A command with words as they stand. -/
def plainCommand (name : String) (args : List String) : Command :=
  .simple 1 (some ⟨1, [.literal name]⟩) (args.map fun arg => ⟨1, [.literal arg]⟩) []

/-- The tree of `{ echo a | cat; echo b; } | cat`. -/
def groupIntoCat : Sequence :=
  let body : Sequence :=
    ⟨[⟨⟨false, plainCommand "echo" ["a"], [plainCommand "cat" []]⟩, []⟩,
      ⟨⟨false, plainCommand "echo" ["b"], []⟩, []⟩]⟩
  ⟨[⟨⟨false, .group 1 body, [plainCommand "cat" []]⟩, []⟩]⟩

/-- Pipelines do not always leave their streams open. What `echo b` writes in the group is
lost, because the `cat` before it has closed the pipe out of the group. -/
theorem groupIntoCat_loses_line :
    (¬ ∀ (m m' : Machine Nat) (p stages input : Nat) (output : Output),
      m.Ran p stages input output m' → m.LeavesOpen input output m') ∧
    (({} : Session).runScript groupIntoCat (.ofText "")).output = "a\n" := by
  -- The machine above refutes the general statement, and the script shows what is lost.
  refine ⟨fun h => ?_, by decide +kernel⟩
  have hopen := (h _ _ 0 2 0 (.pipe 0) lettersIntoPipe_ran).write 0 rfl
  exact Bool.false_ne_true (hopen.symm.trans (lettersIntoPipe_ran.writeClosed rfl))

end Shell.Machine
