/-
Jobs that cannot be told apart.

Two jobs are alike if they ask for the same operations with the same arguments, and go on alike whatever
those give them that they can give: a write is refused for the reasons that its output has, the counter
tells a number that is greater than those before, and a pipeline ends in one of the ways `S`. What
the two jobs would do with anything else does not matter. So a turn of the one is a turn of the other
(`Job.Like.advance`): the world is the same after it, and what is left to do is alike again.

A lenient comparison lets the second job do what it likes once the first can only fail. It asks
that a job which is told of the failure of a stage fails too; so a failure anywhere is one of the whole. A
turn of the first job is then a turn of the second, or the first one fails.
-/
import Shell.Proofs.Job.Ends
import Shell.Proofs.World.Later

set_option autoImplicit false

namespace Shell

variable {ρ : Type}

/-! ## 1. The counter -/

namespace World

theorem count_hostReads (w : World) (task index : Nat) : (w.hostReads task index).count = w.count := by
  unfold hostReads
  simp only
  split <;> rfl

theorem count_askHost (w : World) (task index : Nat) : (w.askHost task index).count = w.count := by
  unfold askHost
  split
  · rfl
  · exact w.count_hostReads task index

theorem count_hostTurn (w : World) : w.hostTurn.count = w.count := by
  unfold hostTurn
  split
  · rfl
  · exact count_hostReads _ _ _

/-- Nothing takes back what has been counted. -/
theorem spans_count : Spans fun w w' => w.count ≤ w'.count where
  trans := Nat.le_trans
  works h := h.count
  wait _ _ _ := Nat.le_refl _
  askHost w task index := Nat.le_of_eq (w.count_askHost task index).symm
  closeWrite _ _ := Nat.le_of_eq (count_change Pipe.closeWrite).symm
  closeRead _ _ := Nat.le_of_eq (count_change Pipe.closeRead).symm

end World

/-! ## 2. Jobs and phases

Two trees that branch alike for all answers that can still come. So they need not be equal, and in a lenient
comparison the second one may be anything where the first one can only fail. -/

/-- Jobs that go alike when `k` lists have been counted at least. -/
inductive Job.Like (lenient : Prop) (S : Except Abort ρ → Prop) : Nat → Job ρ → Job ρ → Prop where
  | finish {k : Nat} {result : ρ} : Like lenient S k (.finish result) (.finish result)
  | fail {k : Nat} {abort : Abort} : Like lenient S k (.fail abort) (.fail abort)
  | read {k input : Nat} {wanted : Wanted} {next next' : String → Job ρ}
      (h : ∀ text, Like lenient S k (next text) (next' text)) :
      Like lenient S k (.read input wanted next) (.read input wanted next')
  | write {k : Nat} {output : Output} {text : String} {next next' : Option Abort → Job ρ}
      (h : Like lenient S k (next none) (next' none))
      (hr : ∀ abort, output.Refuses abort →
        Like lenient S k (next (some abort)) (next' (some abort))) :
      Like lenient S k (.write output text next) (.write output text next')
  | send {k pipe : Nat} {bytes : List UInt8} {next next' : Option Abort → Job ρ}
      (h : Like lenient S k (next none) (next' none))
      (hr : ∀ abort, (Output.pipe pipe).Refuses abort →
        Like lenient S k (next (some abort)) (next' (some abort))) :
      Like lenient S k (.send pipe bytes next) (.send pipe bytes next')
  | receive {k pipe : Nat} {size : Option Nat} {next next' : List UInt8 → Job ρ}
      (h : ∀ bytes, Like lenient S k (next bytes) (next' bytes)) :
      Like lenient S k (.receive pipe size next) (.receive pipe size next')
  | closeWrite {k pipe : Nat} {next next' : Job ρ} (h : Like lenient S k next next') :
      Like lenient S k (.closeWrite pipe next) (.closeWrite pipe next')
  | closeRead {k pipe : Nat} {next next' : Job ρ} (h : Like lenient S k next next') :
      Like lenient S k (.closeRead pipe next) (.closeRead pipe next')
  | copy {k input : Nat} {output : Output} {wanted : Wanted} {number : Option Nat}
      {next next' : Except Abort (Option Nat) → Job ρ}
      (h : ∀ last, Like lenient S k (next (.ok last)) (next' (.ok last)))
      (hr : ∀ abort, output.Refuses abort →
        Like lenient S k (next (.error abort)) (next' (.error abort))) :
      Like lenient S k (.copy input output wanted number next)
        (.copy input output wanted number next')
  | count {k : Nat} {next next' : Nat → Job ρ}
      (h : ∀ n, k < n → Like lenient S n (next n) (next' n)) :
      Like lenient S k (.count next) (.count next')
  | openSink {k : Nat} {next next' : Nat → Job ρ}
      (h : ∀ index, Like lenient S k (next index) (next' index)) :
      Like lenient S k (.openSink next) (.openSink next')
  | sinkText {k index : Nat} {next next' : String → Job ρ}
      (h : ∀ text, Like lenient S k (next text) (next' text)) :
      Like lenient S k (.sinkText index next) (.sinkText index next')
  | pipeline {k stages capacity input : Nat} {output : Output}
      {stage stage' : Nat → Nat → Output → Job ρ} {next next' : Except Abort ρ → Job ρ}
      (hs : ∀ index input output,
        Like lenient S k (stage index input output) (stage' index input output))
      (h : ∀ r, S r → Like lenient S k (next r) (next' r))
      (hf : lenient → ∀ abort, S (.error abort) → (next (.error abort)).Fails S) :
      Like lenient S k (.pipeline stages capacity input output stage next)
        (.pipeline stages capacity input output stage' next')
  /-- The second job may be anything if the first one fails. -/
  | pardon {k : Nat} {job job' : Job ρ} (hl : lenient) (h : job.Fails S) : Like lenient S k job job'

/-- Phases at which two tasks go alike. Of tasks that are to end it does not matter what they would
have gone on with. -/
inductive Phase.Like (lenient : Prop) (S : Except Abort ρ → Prop) (k : Nat) (cancelled : Bool) :
    Phase ρ → Phase ρ → Prop where
  | active {job job' : Job ρ} (h : cancelled = false → job.Like lenient S k job') :
      Like lenient S k cancelled (.active job) (.active job')
  | starting {stages capacity input : Nat} {output : Output}
      {stage stage' : Nat → Nat → Output → Job ρ} {next next' : Except Abort ρ → Job ρ}
      (hs : cancelled = false → ∀ index input output,
        (stage index input output).Like lenient S k (stage' index input output))
      (h : cancelled = false → ∀ r, S r → (next r).Like lenient S k (next' r))
      (hf : cancelled = false → lenient → ∀ abort, S (.error abort) → (next (.error abort)).Fails S) :
      Like lenient S k cancelled (.starting stages capacity input output stage next)
        (.starting stages capacity input output stage' next')
  | joining {first stages ended : Nat} {next next' : Except Abort ρ → Job ρ}
      (h : cancelled = false → ∀ r, S r → (next r).Like lenient S k (next' r))
      (hf : cancelled = false → lenient → ∀ abort, S (.error abort) → (next (.error abort)).Fails S) :
      Like lenient S k cancelled (.joining first stages ended next)
        (.joining first stages ended next')
  | failing {first stages : Nat} {abort : Abort} {next next' : Except Abort ρ → Job ρ}
      (h : cancelled = false → (next (.error abort)).Like lenient S k (next' (.error abort)))
      (hf : cancelled = false → lenient → (next (.error abort)).Fails S) :
      Like lenient S k cancelled (.failing first stages abort next)
        (.failing first stages abort next')
  | draining {left : Nat} {abort : Abort} {next next' : Except Abort ρ → Job ρ}
      (h : cancelled = false → (next (.error abort)).Like lenient S k (next' (.error abort)))
      (hf : cancelled = false → lenient → (next (.error abort)).Fails S) :
      Like lenient S k cancelled (.draining left abort next) (.draining left abort next')
  | ended {result : Except Abort ρ} : Like lenient S k cancelled (.ended result) (.ended result)

variable {lenient : Prop} {S : Except Abort ρ → Prop} {k n : Nat} {job job' : Job ρ}

/-- More lists may have been counted. -/
theorem Job.Like.later (h : job.Like lenient S k job') (hn : k ≤ n) : job.Like lenient S n job' := by
  induction h generalizing n with
  | finish => exact .finish
  | fail => exact .fail
  | read _ ih => exact .read fun text => ih text hn
  | write _ _ ih ihr => exact .write (ih hn) fun abort ha => ihr abort ha hn
  | send _ _ ih ihr => exact .send (ih hn) fun abort ha => ihr abort ha hn
  | receive _ ih => exact .receive fun bytes => ih bytes hn
  | closeWrite _ ih => exact .closeWrite (ih hn)
  | closeRead _ ih => exact .closeRead (ih hn)
  | copy _ _ ih ihr => exact .copy (fun last => ih last hn) fun abort ha => ihr abort ha hn
  | count h _ => exact .count fun m hm => h m (Nat.lt_of_le_of_lt hn hm)
  | openSink _ ih => exact .openSink fun index => ih index hn
  | sinkText _ ih => exact .sinkText fun text => ih text hn
  | pipeline _ _ hf ihs ih =>
    exact .pipeline (fun index input output => ihs index input output hn) (fun r hr => ih r hr hn) hf
  | pardon hl h => exact .pardon hl h

theorem Phase.Like.later {cancelled : Bool} {phase phase' : Phase ρ}
    (h : phase.Like lenient S k cancelled phase') (hn : k ≤ n) :
    phase.Like lenient S n cancelled phase' := by
  cases h with
  | active h => exact .active fun hc => (h hc).later hn
  | starting hs h hf =>
    exact .starting (fun hc index input output => (hs hc index input output).later hn)
      (fun hc r hr => (h hc r hr).later hn) hf
  | joining h hf => exact .joining (fun hc r hr => (h hc r hr).later hn) hf
  | failing h hf => exact .failing (fun hc => (h hc).later hn) hf
  | draining h hf => exact .draining (fun hc => (h hc).later hn) hf
  | ended => exact .ended

/-- Tasks that have been told to end go alike if they are at the same. -/
theorem Phase.Like.cancel {cancelled : Bool} {phase phase' : Phase ρ}
    (h : phase.Like lenient S k cancelled phase') : phase.Like lenient S k true phase' := by
  cases h with
  | active h => exact .active nofun
  | starting hs h hf => exact .starting nofun nofun nofun
  | joining h hf => exact .joining nofun nofun
  | failing h hf => exact .failing nofun nofun
  | draining h hf => exact .draining nofun nofun
  | ended => exact .ended

/-! ## 3. Turns

Within a turn a job goes on until it has to wait. By induction on the job, the two do the same to the world on the
way. -/

/-- Two results of a turn: the same world, and phases that are alike. -/
def Job.Abreast (lenient : Prop) (S : Except Abort ρ → Prop) (t t' : World × Phase ρ) : Prop :=
  t'.1 = t.1 ∧ t.2.Like lenient S t.1.count false t'.2

/-- What a task is at after a turn with a job that fails, if the comparison is lenient. -/
def Phase.Pardoned (lenient : Prop) (S : Except Abort ρ → Prop) (phase : Phase ρ) : Prop :=
  lenient ∧ phase.Follows S fun r => ∃ abort, r = .error abort

/-- **Jobs that are alike have the same turns**, unless the first one fails from now on. -/
theorem Job.Like.advance (h : job.Like lenient S k job') (task : Nat) {w : World}
    (hk : k ≤ w.count) :
    Abreast lenient S (job.advance task w) (job'.advance task w) ∨
      (job.advance task w).2.Pardoned lenient S := by
  induction h generalizing w with
  | finish => exact .inl ⟨rfl, .ended⟩
  | fail => exact .inl ⟨rfl, .ended⟩
  | @read k input wanted next next' h ih =>
    have hw := Nat.le_trans hk (World.spans_count.meets (w.meets_read task input wanted))
    unfold Job.advance
    generalize w.read task input wanted = t at hw ⊢
    rcases t with ⟨w₁, text | wanted⟩
    · exact ih _ hw
    · exact .inl ⟨rfl, .active fun _ => .read fun text => (h text).later hw⟩
  | @write k output text next next' h hr ih ihr =>
    have hw := Nat.le_trans hk (World.spans_count.writes (w.writes_write task output text))
    unfold Job.advance
    rcases hs : w.write task output text with ⟨w₁, - | abort | rest⟩ <;> rw [hs] at hw
    · exact ih hw
    · exact ihr abort (World.refuses_of_write hs) hw
    · cases output with
      | sink index => exact ih hw
      | pipe pipe =>
        exact .inl ⟨rfl, .active fun _ => .send (h.later hw) fun abort ha => (hr abort ha).later hw⟩
  | @send k pipe bytes next next' h hr ih ihr =>
    have hw := Nat.le_trans hk (World.spans_count.writes (w.writes_send task pipe bytes))
    unfold Job.advance
    rcases hs : w.send task pipe bytes with ⟨w₁, - | abort | rest⟩ <;> rw [hs] at hw
    · exact ih hw
    · exact ihr abort (World.refuses_of_send hs) hw
    · exact .inl ⟨rfl, .active fun _ => .send (h.later hw) fun abort ha => (hr abort ha).later hw⟩
  | @receive k pipe size next next' h ih =>
    have hw := Nat.le_trans hk (World.spans_count.receives (w.receives task pipe size))
    unfold Job.advance
    generalize w.receive task pipe size = t at hw ⊢
    rcases t with ⟨w₁, - | bytes⟩
    · exact .inl ⟨rfl, .active fun _ => .receive fun bytes => (h bytes).later hw⟩
    · exact ih bytes hw
  | @closeWrite k pipe next next' h ih =>
    exact ih (Nat.le_trans hk (World.spans_count.closeWrite w pipe))
  | @closeRead k pipe next next' h ih =>
    exact ih (Nat.le_trans hk (World.spans_count.closeRead w pipe))
  | @copy k input output wanted number next next' h hr ih ihr =>
    have hw := Nat.le_trans hk
      (World.spans_count.copies (w.copies task input output (w.stock input) wanted number))
    unfold Job.advance
    rcases hc : w.copy task input output (w.stock input) wanted number with
      ⟨w₁, last | abort | ⟨left, last⟩ | ⟨pipe, rest, last⟩⟩ <;> rw [hc] at hw
    · exact ih last hw
    · exact ihr abort (World.refuses_of_copy hc) hw
    · exact .inl ⟨rfl, .active fun _ => .copy (fun last => (h last).later hw)
        fun abort ha => (hr abort ha).later hw⟩
    -- The copy goes on after the bytes, or has been refused in the middle of them.
    · obtain rfl := World.eq_pipe_of_copy hc
      exact .inl ⟨rfl, .active fun _ => .send
        (.copy (fun last => (h last).later hw) fun abort ha => (hr abort ha).later hw)
        fun abort ha => (hr abort ha).later hw⟩
  | count h ih => exact ih _ (Nat.lt_succ_of_le hk) (Nat.le_refl _)
  | openSink h ih => exact ih _ hk
  | sinkText h ih => exact ih _ hk
  | pipeline hs h hf =>
    exact .inl ⟨rfl, .starting (fun _ index input output => (hs index input output).later hk)
      (fun _ r hr => (h r hr).later hk) fun _ => hf⟩
  | pardon hl h => exact .inr ⟨hl, h.advance task w⟩

end Shell
