/-
Who waits for whose end.

A `Roster` is what is left of a machine without its world: who started whom, what everyone is at, who is
to end, and which ends are still to be noticed, in their order. Starters rely on reports alone, and
on four things about them that `Orderly` says. Only a stage that has ended is reported. A task that is
not at a pipeline has no stages that run and none to be reported. While a starter waits, the stages that
run, those to be reported and those it has counted are all its stages. After a failure the early report
of a stage comes before its late one; so when the last late report is dealt with, no early one is left
that the starter could take for one of its next pipeline.

The last is why the order of the queue matters here. In any other order a starter could be told of a
stage of the pipeline before.
-/
import Mathlib.Data.Finset.Card
import Mathlib.Order.Interval.Finset.Nat
import Shell.Proofs.Machine.Later
import Shell.Proofs.World.Later

set_option autoImplicit false

namespace Shell

variable {ρ : Type}

/-- Whether a task has ended. -/
def Phase.isEnded : Phase ρ → Bool
  | .ended _ => true
  | _ => false

/-- A task has ended if it has a result. -/
theorem Phase.isEnded_iff {phase : Phase ρ} : phase.isEnded = true ↔ ∃ result, phase = .ended result := by
  cases phase <;> simp [isEnded]

/-- A machine without its world. -/
@[ext]
structure Roster (ρ : Type) where
  size : Nat
  starter : Nat → Option Nat
  cancelled : Nat → Bool
  phase : Nat → Phase ρ
  reports : List (Nat × Bool)

namespace Roster

variable {r r' : Roster ρ} {i p first stages : Nat}

/-! ## 1. What is known of a starter

A starter learns of its stages only by reports, and a report stands in the queue for a while after its stage has
ended. For each phase in which a task waits, `Awaits` says how the stages that run and the reports still to come
make up what the task waits for. A machine is `Orderly` if that holds of every task. -/

/-- The stages of a task that run. -/
def running (r : Roster ρ) (p : Nat) : Finset Nat :=
  (Finset.range r.size).filter fun k => r.starter k = some p ∧ (r.phase k).isEnded = false

/-- The reports for a task. -/
def reportsTo (r : Roster ρ) (p : Nat) : List (Nat × Bool) :=
  r.reports.filter fun e => decide (r.starter e.1 = some p)

/-- The stages of a task are those from `first` on, as far as they run or are to be reported. -/
structure Batch (r : Roster ρ) (p first stages : Nat) : Prop where
  starter : ∀ k, first ≤ k → k < first + stages → r.starter k = some p
  running : ∀ k ∈ r.running p, first ≤ k ∧ k < first + stages
  reported : ∀ e ∈ r.reportsTo p, first ≤ e.1 ∧ e.1 < first + stages

/-- After an early report comes the late one of the same stage. -/
def InOrder (reports : List (Nat × Bool)) : Prop :=
  ∀ before after k, reports = before ++ (k, false) :: after → (k, true) ∈ after

/-- What a task at a phase can rely on. -/
inductive Awaits (r : Roster ρ) (p : Nat) : Phase ρ → Prop where
  | active {job : Job ρ} (hr : r.running p = ∅) (ht : r.reportsTo p = []) : Awaits r p (.active job)
  | ended {result : Except Abort ρ} (hr : r.running p = ∅) (ht : r.reportsTo p = []) :
      Awaits r p (.ended result)
  | joining {first stages ended : Nat} {next : Except Abort ρ → Job ρ}
      (hb : r.Batch p first stages) (he : ∀ e ∈ r.reportsTo p, e.2 = false)
      (hcount : (r.running p).card + (r.reportsTo p).length + ended = stages)
      (hc : r.cancelled p = false → ∀ k, first ≤ k → k < first + stages → r.cancelled k = false) :
      Awaits r p (.joining first stages ended next)
  | failing {first stages : Nat} {abort : Abort} {next : Except Abort ρ → Job ρ}
      (hb : r.Batch p first stages) (he : ∀ e ∈ r.reportsTo p, e.2 = false) :
      Awaits r p (.failing first stages abort next)
  | draining {left : Nat} {abort : Abort} {next : Except Abort ρ → Job ρ}
      (hcount : (r.running p).card + (r.reportsTo p).countP (·.2) = left)
      (ho : InOrder (r.reportsTo p)) : Awaits r p (.draining left abort next)

/-- Everybody can rely on what they wait for. -/
structure Orderly (r : Roster ρ) : Prop where
  starter : ∀ k p, r.starter k = some p → k < r.size ∧ p < r.size
  root : ∀ k, r.starter k = none → r.cancelled k = false
  reported : ∀ e ∈ r.reports, e.1 < r.size ∧ (r.phase e.1).isEnded = true
  awaits : ∀ p < r.size, r.Awaits p (r.phase p)

/-- What is reported to a task is reported of its stages. -/
theorem mem_reportsTo {e : Nat × Bool} :
    e ∈ r.reportsTo p ↔ e ∈ r.reports ∧ r.starter e.1 = some p := by
  simp [reportsTo]

/-- The stages of a task that run are those that it has started and that have not ended. -/
theorem mem_running {k : Nat} :
    k ∈ r.running p ↔ k < r.size ∧ r.starter k = some p ∧ (r.phase k).isEnded = false := by
  simp [running]

/-- A starter for which nothing has changed relies on the same. -/
theorem Awaits.congr {phase : Phase ρ} (h : r.Awaits p phase)
    (hrunning : r'.running p = r.running p) (hreports : r'.reportsTo p = r.reportsTo p)
    (hstarter : ∀ k, r.starter k = some p → r'.starter k = some p)
    (hcancelled : ∀ first stages ended next, phase = .joining first stages ended next →
      r'.cancelled p = false → r.cancelled p = false ∧
        ∀ k, first ≤ k → k < first + stages → r.cancelled k = false → r'.cancelled k = false) :
    r'.Awaits p phase := by
  have hbatch {first stages : Nat} (hb : r.Batch p first stages) : r'.Batch p first stages :=
    ⟨fun k hk hk' => hstarter k (hb.starter k hk hk'), hrunning ▸ hb.running,
      hreports ▸ hb.reported⟩
  -- By what the task is at: each kind of waiting speaks of the stages that run, of the reports, and of who is to
  -- end.
  cases h with
  | active hr ht => exact .active (hrunning ▸ hr) (hreports ▸ ht)
  | ended hr ht => exact .ended (hrunning ▸ hr) (hreports ▸ ht)
  | joining hb he hcount hc =>
    refine .joining (hbatch hb) (hreports ▸ he) (by rw [hrunning, hreports, hcount]) ?_
    intro hp k hk hk'
    obtain ⟨hp', hstages⟩ := hcancelled _ _ _ _ rfl hp
    exact hstages k hk hk' (hc hp' k hk hk')
  | failing hb he => exact .failing (hbatch hb) (hreports ▸ he)
  | draining hcount ho => exact .draining (by rw [hrunning, hreports, hcount]) (hreports ▸ ho)

/-! ## 2. Phases

Whether a stage runs depends on its phase alone, so a task that goes on without ending leaves what its starter
relies on as it was. What is to be shown is only that the task itself relies on the same at its new phase. -/

/-- A task comes to another phase. -/
def setPhase (r : Roster ρ) (i : Nat) (phase : Phase ρ) : Roster ρ :=
  { r with phase := Function.update r.phase i phase }

@[simp] theorem phase_setPhase_self (r : Roster ρ) (i : Nat) (phase : Phase ρ) :
    (r.setPhase i phase).phase i = phase := Function.update_self ..

/-- Nobody else comes to another phase. -/
theorem phase_setPhase_of_ne {k : Nat} (phase : Phase ρ) (h : k ≠ i) :
    (r.setPhase i phase).phase k = r.phase k := Function.update_of_ne h ..

/-- As long as a task has not ended, its starter need not care. -/
theorem running_setPhase {phase : Phase ρ} (h : phase.isEnded = (r.phase i).isEnded) (p : Nat) :
    (r.setPhase i phase).running p = r.running p := by
  refine Finset.filter_congr fun k _ => and_congr_right fun _ => ?_
  by_cases hk : k = i
  · subst hk
    rw [phase_setPhase_self, h]
  · rw [phase_setPhase_of_ne _ hk]

/-- A task that goes on or has ended comes to another phase at which it relies on the same. -/
theorem Orderly.setPhase (h : r.Orderly) {phase : Phase ρ}
    (hp : phase.isEnded = (r.phase i).isEnded) (ha : (r.setPhase i phase).Awaits i phase) :
    (r.setPhase i phase).Orderly where
  starter := h.starter
  root := h.root
  reported e he := by
    refine ⟨(h.reported e he).1, ?_⟩
    -- A task ends by it or not as it did before, so what is reported has ended still.
    by_cases hk : e.1 = i
    · rw [hk, phase_setPhase_self, hp, ← hk]
      exact (h.reported e he).2
    · rw [phase_setPhase_of_ne _ hk]
      exact (h.reported e he).2
  awaits q hq := by
    by_cases hk : q = i
    · subst hk
      rw [phase_setPhase_self]
      exact ha
    · rw [phase_setPhase_of_ne _ hk]
      exact (h.awaits q hq).congr (running_setPhase hp q) rfl (fun _ hs => hs)
        fun _ _ _ _ _ hc => ⟨hc, fun _ _ _ hk => hk⟩

/-- A task that has ended no longer runs. -/
theorem running_ended (r : Roster ρ) (i p : Nat) (result : Except Abort ρ) :
    (r.setPhase i (.ended result)).running p = (r.running p).erase i := by
  ext k
  rw [Finset.mem_erase, mem_running, mem_running]
  by_cases hk : k = i
  · subst hk
    rw [phase_setPhase_self]
    simp [Phase.isEnded]
  · rw [phase_setPhase_of_ne _ hk]
    exact ⟨fun h => ⟨hk, h⟩, And.right⟩

/-! ## 3. The end of a task

A stage that ends is no longer in `running` and comes into `reportsTo`, both of the same starter, so the sums in
`Awaits` stay as they are. A starter that is draining is told twice, since it counts the late reports. -/

/-- More reports. -/
def tellAll (r : Roster ρ) (new : List (Nat × Bool)) : Roster ρ :=
  { r with reports := r.reports ++ new }

/-- What is said of a task that has ended: it is reported to its starter, and once more if that is
draining. -/
def newsOf (r : Roster ρ) (i : Nat) : List (Nat × Bool) :=
  match r.starter i with
  | none => []
  | some q =>
    match r.phase q with
    | .draining _ _ _ => [(i, false), (i, true)]
    | _ => [(i, false)]

/-- A task ends. -/
def finish (r : Roster ρ) (i : Nat) (result : Except Abort ρ) : Roster ρ :=
  (r.setPhase i (.ended result)).tellAll (r.newsOf i)

/-- The early report of a stage may come at the end, with its late one behind it. -/
theorem InOrder.append {l : List (Nat × Bool)} (h : InOrder l) (k : Nat) :
    InOrder (l ++ [(k, false), (k, true)]) := by
  intro before after j hl
  rcases List.append_eq_append_iff.mp hl with ⟨mid, rfl, hmid⟩ | ⟨mid, rfl, hmid⟩
  · -- The early report is the new one, or stands after it, where no early one is.
    match mid, hmid with
    | [], hmid =>
      simp only [List.nil_append, List.cons.injEq, Prod.mk.injEq] at hmid
      obtain ⟨⟨rfl, -⟩, rfl⟩ := hmid
      exact List.mem_singleton.mpr rfl
    | [a], hmid => simp at hmid
    | a :: b :: mid, hmid => simp at hmid
  · match mid, hmid with
    | [], hmid =>
      simp only [List.nil_append, List.cons.injEq, Prod.mk.injEq] at hmid
      obtain ⟨⟨rfl, -⟩, rfl⟩ := hmid
      exact List.mem_singleton.mpr rfl
    | a :: mid, hmid =>
      simp only [List.cons_append, List.cons.injEq] at hmid
      obtain ⟨rfl, rfl⟩ := hmid
      exact List.mem_append_left _ (h before mid j rfl)

/-- The news of a task is about that task. -/
theorem fst_of_mem_newsOf {e : Nat × Bool} (h : e ∈ r.newsOf i) : e.1 = i := by
  unfold newsOf at h
  split at h
  · cases h
  · split at h <;> simp at h
    · rcases h with rfl | rfl <;> rfl
    · rw [h]

/-- Only its starter is told of the end of a task. -/
theorem reportsTo_finish_of_ne (result : Except Abort ρ) (h : r.starter i ≠ some p) :
    (r.finish i result).reportsTo p = r.reportsTo p := by
  have hnew : (r.newsOf i).filter (fun e => decide (r.starter e.1 = some p)) = [] :=
    List.filter_eq_nil_iff.mpr fun e he => by
      rw [fst_of_mem_newsOf he]
      simpa using h
  show (r.reports ++ r.newsOf i).filter (fun e => decide (r.starter e.1 = some p)) = _
  rw [List.filter_append, hnew, List.append_nil]
  rfl

/-- The starter of a task that ends is told of it, after all that it was to be told before. -/
theorem reportsTo_finish_self (result : Except Abort ρ) (h : r.starter i = some p) :
    (r.finish i result).reportsTo p = r.reportsTo p ++ r.newsOf i := by
  have hnew : (r.newsOf i).filter (fun e => decide (r.starter e.1 = some p)) = r.newsOf i :=
    List.filter_eq_self.mpr fun e he => by
      rw [fst_of_mem_newsOf he]
      simpa using h
  show (r.reports ++ r.newsOf i).filter (fun e => decide (r.starter e.1 = some p)) = _
  rw [List.filter_append, hnew]
  rfl

/-- A task that ends does not run any more. -/
theorem running_finish (r : Roster ρ) (i p : Nat) (result : Except Abort ρ) :
    (r.finish i result).running p = (r.running p).erase i :=
  r.running_ended i p result

/-- A starter that is told of the end of one of its stages. -/
theorem Orderly.awaits_finish (h : r.Orderly) (result : Except Abort ρ) {q : Nat}
    (hs : r.starter i = some q) (hrun : i ∈ r.running q) :
    (r.finish i result).Awaits q (r.phase q) := by
  have hq := (h.starter i q hs).2
  have hcard : ((r.finish i result).running q).card + 1 = (r.running q).card := by
    rw [running_finish]
    exact Finset.card_erase_add_one hrun
  have hreports := reportsTo_finish_self result hs
  have hbatch {first stages : Nat} (hb : r.Batch q first stages) :
      (r.finish i result).Batch q first stages := by
    refine ⟨hb.starter, fun k hk => ?_, fun e he => ?_⟩
    · rw [running_finish] at hk
      exact hb.running k (Finset.mem_of_mem_erase hk)
    · rw [hreports] at he
      rcases List.mem_append.mp he with he | he
      · exact hb.reported e he
      · rw [fst_of_mem_newsOf he]
        exact hb.running i hrun
  have ha := h.awaits q hq
  -- What the starter is told depends on what it is at.
  have hnews : r.newsOf i = match r.phase q with
      | .draining _ _ _ => [(i, false), (i, true)]
      | _ => [(i, false)] := by
    simp only [newsOf, hs]
  generalize r.phase q = phase at ha hnews ⊢
  -- One stage less runs, and one report more is to come: what a waiting starter counts is the same.
  cases ha with
  | active hr _ => exact absurd (hr ▸ hrun) (Finset.notMem_empty i)
  | ended hr _ => exact absurd (hr ▸ hrun) (Finset.notMem_empty i)
  | joining hb he hcount hc =>
    refine .joining (hbatch hb) (fun e hmem => ?_) ?_ hc
    · rw [hreports, hnews] at hmem
      rcases List.mem_append.mp hmem with hmem | hmem
      · exact he e hmem
      · rw [List.mem_singleton.mp hmem]
    · rw [hreports, hnews, List.length_append, List.length_singleton]
      omega
  | failing hb he =>
    refine .failing (hbatch hb) fun e hmem => ?_
    rw [hreports, hnews] at hmem
    rcases List.mem_append.mp hmem with hmem | hmem
    · exact he e hmem
    · rw [List.mem_singleton.mp hmem]
  | draining hcount ho =>
    refine .draining ?_ ?_
    · have hnew : ([(i, false), (i, true)] : List (Nat × Bool)).countP (·.2) = 1 := rfl
      rw [hreports, hnews, List.countP_append, hnew]
      omega
    · rw [hreports, hnews]
      exact ho.append i

/-- **The end of a task keeps everything in order.** -/
theorem Orderly.finish (h : r.Orderly) (hi : i < r.size) {job : Job ρ}
    (hp : r.phase i = .active job) (result : Except Abort ρ) : (r.finish i result).Orderly where
  starter := h.starter
  root := h.root
  reported e he := by
    have hself : ((r.finish i result).phase i).isEnded = true :=
      congrArg Phase.isEnded (r.phase_setPhase_self i (.ended result))
    rcases List.mem_append.mp he with he | he
    · refine ⟨(h.reported e he).1, ?_⟩
      by_cases hk : e.1 = i
      · rw [hk, hself]
      · exact (congrArg Phase.isEnded (phase_setPhase_of_ne _ hk)).trans (h.reported e he).2
    · rw [fst_of_mem_newsOf he]
      exact ⟨hi, hself⟩
  awaits q hq := by
    by_cases hqi : q = i
    -- The task itself has nobody to wait for.
    · subst hqi
      have ha := h.awaits q hq
      rw [hp] at ha
      cases ha with
      | active hr ht =>
        have hne : r.starter q ≠ some q := by
          intro hs
          have hmem : q ∈ r.running q := mem_running.mpr ⟨hi, hs, by rw [hp]; rfl⟩
          exact absurd (hr ▸ hmem) (Finset.notMem_empty q)
        have hphase : (r.finish q result).phase q = .ended result :=
          r.phase_setPhase_self q (.ended result)
        rw [hphase]
        refine .ended ?_ ?_
        · rw [running_finish, hr, Finset.erase_empty]
        · rw [reportsTo_finish_of_ne result hne, ht]
    · have hphase : (r.finish i result).phase q = r.phase q := phase_setPhase_of_ne _ hqi
      rw [hphase]
      -- The starter of the task is told. Nobody else hears of it.
      by_cases hs : r.starter i = some q
      · exact h.awaits_finish result hs (mem_running.mpr ⟨hi, hs, by rw [hp]; rfl⟩)
      · refine (h.awaits q hq).congr ?_ (reportsTo_finish_of_ne result hs) (fun _ hs => hs)
          fun _ _ _ _ _ hc => ⟨hc, fun _ _ _ hk => hk⟩
        rw [running_finish]
        exact Finset.erase_eq_of_notMem fun hmem => hs (mem_running.mp hmem).2.1

end Roster

end Shell
