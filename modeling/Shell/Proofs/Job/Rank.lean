/-
How far a job is from its end.

No path through a job is infinite, but there is no bound for all of them: a read goes on in one way for
each text. So the height of a job is an ordinal, and every operation takes it down. The one exception is
a write that has begun. It may be a part of a copy, which goes on as it was when all has been written; so
the rank of a copy does not change until the copy is done (`Job.within_advance`).

A task that waits for its stages has the rank of what it goes on with, and a little more at first than when it
has been told that one of them failed.
-/
import Mathlib.SetTheory.Ordinal.Family
import Shell.Scheduler

set_option autoImplicit false

namespace Shell

variable {ρ : Type}

/-! ## 1. Ranks

A job may branch for every text, so its height is an ordinal. What follows an answer is of a lower rank; only a
write that has begun counts for nothing. -/

/-- The height of a job. A write that has begun counts for nothing. -/
noncomputable def Job.rank : Job ρ → Ordinal.{0}
  | .finish _ | .fail _ => 0
  | .read _ _ next => (⨆ text, (next text).rank) + 1
  | .write _ _ next => (⨆ refusal, (next refusal).rank) + 1
  | .send _ _ next => ⨆ refusal, (next refusal).rank
  | .receive _ _ next => (⨆ bytes, (next bytes).rank) + 1
  | .closeWrite _ next | .closeRead _ next => next.rank + 1
  | .copy _ _ _ _ next => (⨆ result, (next result).rank) + 1
  | .count next => (⨆ n, (next n).rank) + 1
  | .openSink next => (⨆ index, (next index).rank) + 1
  | .sinkText _ next => (⨆ text, (next text).rank) + 1
  | .pipeline _ _ _ _ stage next =>
    max (⨆ index, ⨆ input, ⨆ output, (stage index input output).rank) ((⨆ result, (next result).rank) + 1 + 1 + 1) + 1

/-- The rank of what a task has still to do. -/
noncomputable def Phase.rank : Phase ρ → Ordinal.{0}
  | .active job => job.rank
  | .starting stages capacity input output stage next =>
    (Job.pipeline stages capacity input output stage next).rank
  | .joining _ _ _ next => (⨆ result, (next result).rank) + 1 + 1 + 1
  | .failing _ _ abort next => (next (.error abort)).rank + 1 + 1
  | .draining _ abort next => (next (.error abort)).rank + 1
  | .ended _ => 0

section

variable {ι : Type} (f : ι → Job ρ)

theorem Job.rank_le_iSup (a : ι) : (f a).rank ≤ ⨆ a, (f a).rank :=
  Ordinal.le_iSup (fun a => (f a).rank) a

theorem Job.rank_lt_iSup_add_one (a : ι) : (f a).rank < (⨆ a, (f a).rank) + 1 :=
  Order.lt_add_one_iff.mpr (rank_le_iSup f a)

end

variable {stages capacity input first ended left : Nat} {output : Output} {abort : Abort}
  {stage : Nat → Nat → Output → Job ρ} {next : Except Abort ρ → Job ρ}

/-- Stages are below the pipeline that starts them. -/
theorem Job.rank_stage_lt (index input' : Nat) (output' : Output) :
    (stage index input' output').rank < (Job.pipeline stages capacity input output stage next).rank := by
  refine Order.lt_add_one_iff.mpr (le_trans ?_ (le_max_left _ _))
  calc (stage index input' output').rank
      ≤ ⨆ output, (stage index input' output).rank :=
        rank_le_iSup (fun output => stage index input' output) output'
    _ ≤ ⨆ input, ⨆ output, (stage index input output).rank :=
        Ordinal.le_iSup (fun input => ⨆ output, (stage index input output).rank) input'
    _ ≤ ⨆ index, ⨆ input, ⨆ output, (stage index input output).rank :=
        Ordinal.le_iSup (fun index => ⨆ input, ⨆ output, (stage index input output).rank) index

/-- A task that waits for a pipeline is below the pipeline. -/
theorem Phase.rank_joining_lt :
    (joining first stages ended next).rank < (Job.pipeline stages capacity input output stage next).rank :=
  Order.lt_add_one_iff.mpr (le_max_right _ _)

/-- The rank goes down when the stages have ended, and when one of them has failed. -/
theorem Phase.rank_active_lt_joining (result : Except Abort ρ) :
    (active (next result)).rank < (joining first stages ended next).rank :=
  calc (next result).rank
      ≤ ⨆ result, (next result).rank := Job.rank_le_iSup next result
    _ < (⨆ result, (next result).rank) + 1 := lt_add_one _
    _ < (⨆ result, (next result).rank) + 1 + 1 := lt_add_one _
    _ < (⨆ result, (next result).rank) + 1 + 1 + 1 := lt_add_one _

theorem Phase.rank_failing_lt :
    (failing first stages abort next).rank < (joining first stages ended next).rank :=
  Order.lt_add_one_iff.mpr
    (add_le_add_left (add_le_add_left (Job.rank_le_iSup next (.error abort)) 1) 1)

theorem Phase.rank_draining_lt :
    (draining left abort next).rank < (failing first stages abort next).rank :=
  lt_add_one _

theorem Phase.rank_active_lt_draining :
    (active (next (.error abort))).rank < (draining left abort next).rank :=
  lt_add_one _

/-! ## 2. Turns

A turn leads down the tree. Where it has to wait, what is left is the job that waits, and its rank is no higher than
that of the job it is left of. -/

/-- What a task is at after a turn with a job of the given rank. -/
inductive Phase.Within (bound : Ordinal.{0}) : Phase ρ → Prop where
  | active {job : Job ρ} (h : job.rank ≤ bound) : Within bound (.active job)
  | starting {stages capacity input : Nat} {output : Output} {stage : Nat → Nat → Output → Job ρ}
      {next : Except Abort ρ → Job ρ}
      (h : (Job.pipeline stages capacity input output stage next).rank ≤ bound) :
      Within bound (.starting stages capacity input output stage next)
  | ended {result : Except Abort ρ} : Within bound (.ended result)

theorem Phase.Within.mono {phase : Phase ρ} {bound bound' : Ordinal.{0}} (h : phase.Within bound)
    (hb : bound ≤ bound') : phase.Within bound' := by
  cases h with
  | active h => exact .active (h.trans hb)
  | starting h => exact .starting (h.trans hb)
  | ended => exact .ended

/-- A copy that has begun to write has the rank of the copy. -/
theorem Job.rank_copying (pipe : Nat) (rest : List UInt8) (wanted wanted' : Wanted) (number number' : Option Nat)
    (next : Except Abort (Option Nat) → Job ρ) :
    (Job.send pipe rest fun
      | none => .copy input output wanted number next
      | some abort => next (.error abort)).rank ≤ (Job.copy input output wanted' number' next).rank := by
  refine Ordinal.iSup_le fun refusal => ?_
  cases refusal with
  | none => exact le_refl _
  | some abort => exact (rank_lt_iSup_add_one next (.error abort)).le

/-- **No turn takes a job up.** -/
theorem Job.within_advance (job : Job ρ) (task : Nat) (w : World) :
    (job.advance task w).2.Within job.rank := by
  -- A turn goes on with the next job until the task has to wait, and each of those has a smaller rank.
  induction job generalizing w with
  | finish result => exact .ended
  | fail abort => exact .ended
  | read input wanted next ih =>
    unfold advance
    rcases w.read task input wanted with ⟨w', text | wanted⟩
    · exact (ih _ w').mono (rank_lt_iSup_add_one next _).le
    · exact .active (le_refl _)
  | write output text next ih =>
    unfold advance
    rcases w.write task output text with ⟨w', _ | abort | rest⟩
    · exact (ih none w').mono (rank_lt_iSup_add_one next _).le
    · exact (ih (some abort) w').mono (rank_lt_iSup_add_one next _).le
    · cases output with
      | sink index => exact (ih none w').mono (rank_lt_iSup_add_one next _).le
      | pipe pipe => exact .active (Order.le_succ _)
  | send pipe bytes next ih =>
    unfold advance
    rcases w.send task pipe bytes with ⟨w', _ | abort | rest⟩
    · exact (ih none w').mono (rank_le_iSup next _)
    · exact (ih (some abort) w').mono (rank_le_iSup next _)
    · exact .active (le_refl _)
  | receive pipe size next ih =>
    unfold advance
    rcases w.receive task pipe size with ⟨w', _ | bytes⟩
    · exact .active (le_refl _)
    · exact (ih bytes w').mono (rank_lt_iSup_add_one next _).le
  | closeWrite pipe next ih => exact (ih _).mono (Order.le_succ _)
  | closeRead pipe next ih => exact (ih _).mono (Order.le_succ _)
  | copy input output wanted number next ih =>
    unfold advance
    rcases w.copy task input output (w.stock input) wanted number with
      ⟨w', last | abort | ⟨left, last⟩ | ⟨pipe, rest, last⟩⟩
    · exact (ih _ w').mono (rank_lt_iSup_add_one next _).le
    · exact (ih _ w').mono (rank_lt_iSup_add_one next _).le
    · exact .active (le_refl _)
    · exact .active (rank_copying _ _ _ _ _ _ next)
  | count next ih => exact (ih _ _).mono (rank_lt_iSup_add_one next _).le
  | openSink next ih => exact (ih _ _).mono (rank_lt_iSup_add_one next _).le
  | sinkText index next ih => exact (ih _ _).mono (rank_lt_iSup_add_one next _).le
  | pipeline stages capacity input output stage next => exact .starting (le_refl _)

end Shell
