/-
The stages of a pipeline from their start to the last report.

A task starts stages and counts them off as they are reported. When one has failed it has the others
cancelled and counts again, this time late reports, of which the stages that have ended already give
one each. Each of the three keeps everybody in order: the start (`Orderly.starts`), the change to the
second count (`Orderly.drain`), and a report (`Orderly.told`), of which `Heard` says what its starter makes
of it.
-/
import Shell.Proofs.Machine.Roster

set_option autoImplicit false

namespace Shell.Roster

variable {ρ : Type} {r r' : Roster ρ} {i p first stages : Nat}

/-! ## 1. The start of a pipeline

The new stages come behind all tasks, so none of them has ended, none is reported, and they are the stages of one
task only. -/

/-- A task has started stages, which come after all tasks there were, and waits for them. -/
structure Starts (r : Roster ρ) (i stages : Nat) (stage : Nat → Nat → Output → Job ρ)
    (next : Except Abort ρ → Job ρ) (r' : Roster ρ) : Prop where
  size : r'.size = r.size + stages
  newStarter : ∀ k, r.size ≤ k → k < r.size + stages → r'.starter k = some i
  oldStarter : ∀ k, ¬ (r.size ≤ k ∧ k < r.size + stages) → r'.starter k = r.starter k
  cancelled : r'.cancelled = r.cancelled
  phase : r'.phase i = .joining r.size stages 0 next
  newPhase : ∀ k, r.size ≤ k → k < r.size + stages →
    ∃ index input output, r'.phase k = .active (stage index input output)
  oldPhase : ∀ k < r.size, k ≠ i → r'.phase k = r.phase k
  reports : r'.reports = r.reports

section

variable {stages : Nat} {stage : Nat → Nat → Output → Job ρ} {next : Except Abort ρ → Job ρ}

/-- Beyond the last task there is nobody, so nobody there has a starter. -/
theorem Orderly.starter_of_size_le (h : r.Orderly) {k : Nat} (hk : r.size ≤ k) :
    r.starter k = none := by
  cases hs : r.starter k with
  | none => rfl
  | some p => exact absurd (h.starter k p hs).1 (Nat.not_lt_of_le hk)

/-- What is to be reported has ended, so it is none of the new stages, and it is reported to the same task as
before. -/
theorem Starts.reportsTo (hst : r.Starts i stages stage next r') (h : r.Orderly) (p : Nat) :
    r'.reportsTo p = r.reportsTo p := by
  unfold Roster.reportsTo
  rw [hst.reports]
  refine List.filter_congr fun e he => ?_
  have hlt := (h.reported e he).1
  rw [hst.oldStarter e.1 fun hn => by omega]

/-- The other tasks have no new stages. -/
theorem Starts.running_of_ne (hst : r.Starts i stages stage next r')
    {job : Job ρ} (hp : r.phase i = .active job) {p : Nat} (hpi : p ≠ i) :
    r'.running p = r.running p := by
  ext k
  rw [mem_running, mem_running, hst.size]
  -- A new stage is a stage of the one that has started it. An old one has its starter still, and has ended or not
  -- as before.
  by_cases hnew : r.size ≤ k ∧ k < r.size + stages
  · rw [hst.newStarter k hnew.1 hnew.2]
    constructor
    · rintro ⟨-, hs, -⟩
      exact absurd (Option.some.inj hs).symm hpi
    · rintro ⟨hk, -⟩
      omega
  · rw [hst.oldStarter k hnew]
    have hended (hk : k < r.size) : (r'.phase k).isEnded = (r.phase k).isEnded := by
      by_cases hki : k = i
      · rw [hki, hst.phase, hp]
        rfl
      · rw [hst.oldPhase k hk hki]
    constructor
    · rintro ⟨hk, hs, hl⟩
      have hlt : k < r.size := by omega
      exact ⟨hlt, hs, hended hlt ▸ hl⟩
    · rintro ⟨hk, hs, hl⟩
      exact ⟨by omega, hs, (hended hk).trans hl⟩

/-- The stages of the task are the new ones. -/
theorem Starts.running_self (hst : r.Starts i stages stage next r')
    (hr : r.running i = ∅) {job : Job ρ} (hp : r.phase i = .active job) :
    r'.running i = Finset.Ico r.size (r.size + stages) := by
  ext k
  rw [mem_running, hst.size, Finset.mem_Ico]
  constructor
  · rintro ⟨hk, hs, hl⟩
    by_contra hnew
    rw [hst.oldStarter k hnew] at hs
    have hlt : k < r.size := by omega
    have hrun : k ∈ r.running i := by
      refine mem_running.mpr ⟨hlt, hs, ?_⟩
      by_cases hki : k = i
      · rw [hki, hp]
        rfl
      · rw [← hst.oldPhase k hlt hki]
        exact hl
    exact absurd (hr ▸ hrun) (Finset.notMem_empty k)
  · rintro ⟨hk, hk'⟩
    obtain ⟨_, _, _, hjob⟩ := hst.newPhase k hk hk'
    exact ⟨hk', hst.newStarter k hk hk', by rw [hjob]; rfl⟩

/-- **The start of a pipeline keeps everything in order.** -/
theorem Orderly.starts (h : r.Orderly) (hi : i < r.size) {job : Job ρ}
    (hp : r.phase i = .active job) (hst : r.Starts i stages stage next r') : r'.Orderly where
  starter k p hs := by
    rw [hst.size]
    by_cases hnew : r.size ≤ k ∧ k < r.size + stages
    · rw [hst.newStarter k hnew.1 hnew.2] at hs
      obtain rfl := Option.some.inj hs
      omega
    · rw [hst.oldStarter k hnew] at hs
      have := h.starter k p hs
      omega
  root k hs := by
    rw [hst.cancelled]
    by_cases hnew : r.size ≤ k ∧ k < r.size + stages
    · exact h.root k (h.starter_of_size_le hnew.1)
    · exact h.root k (hst.oldStarter k hnew ▸ hs)
  -- What has ended before has not changed: the task that starts the stages had a job.
  reported e he := by
    rw [hst.reports] at he
    obtain ⟨hlt, hended⟩ := h.reported e he
    refine ⟨by rw [hst.size]; omega, ?_⟩
    rw [hst.oldPhase e.1 hlt fun hei => ?_]
    · exact hended
    · rw [hei, hp] at hended
      cases hended
  awaits q hq := by
    have hself := h.awaits i hi
    rw [hp] at hself
    cases hself with
    | active hr ht =>
      rw [hst.size] at hq
      -- The starter waits for all of its stages, none of which has been reported. An old task is at what it was at,
      -- and a new one has a job.
      by_cases hqi : q = i
      · subst hqi
        have hrunning := hst.running_self hr hp
        have hreports : r'.reportsTo q = [] := (hst.reportsTo h q).trans ht
        rw [hst.phase]
        refine .joining ⟨hst.newStarter, fun k hk => ?_, fun e he => ?_⟩ (fun e he => ?_) ?_
          fun _ k hk hk' => ?_
        · rw [hrunning] at hk
          exact Finset.mem_Ico.mp hk
        · rw [hreports] at he
          cases he
        · rw [hreports] at he
          cases he
        · rw [hrunning, hreports, Nat.card_Ico, List.length_nil]
          omega
        · rw [hst.cancelled]
          exact h.root k (h.starter_of_size_le hk)
      · have hrunning := hst.running_of_ne hp hqi
        by_cases hlt : q < r.size
        · rw [hst.oldPhase q hlt hqi]
          refine (h.awaits q hlt).congr hrunning (hst.reportsTo h q) (fun k hs => ?_)
            fun _ _ _ _ _ hc => ?_
          · have := (h.starter k q hs).1
            rw [hst.oldStarter k fun hn => by omega]
            exact hs
          · rw [hst.cancelled] at hc ⊢
            exact ⟨hc, fun _ _ _ hk => hk⟩
        -- A new stage has no stages yet.
        · obtain ⟨_, _, _, hjob⟩ := hst.newPhase q (by omega) hq
          rw [hjob]
          refine .active ?_ ?_
          · rw [hrunning]
            refine Finset.eq_empty_of_forall_notMem fun k hk => hlt ?_
            exact (h.starter k q (mem_running.mp hk).2.1).2
          · rw [hst.reportsTo h q]
            refine List.filter_eq_nil_iff.mpr fun e _ hs => hlt ?_
            exact (h.starter e.1 q (by simpa using hs)).2

end

/-! ## 2. A pipeline that has failed

A starter that hears of a failure no longer waits for results but counts ends. Those stages that have ended before
are no longer going to end, so each of them gives a late report at once, and the number of late reports comes out as
the number of all stages. -/

/-- A task that waits for a pipeline is to end only if its stages are, and the first task never is. -/
structure Steady (r : Roster ρ) (cancelled : Nat → Bool) : Prop where
  root : ∀ k, r.starter k = none → cancelled k = false
  stages : ∀ q first stages ended next, r.phase q = .joining first stages ended next →
    cancelled q = false → ∀ k, first ≤ k → k < first + stages → cancelled k = false

/-- The stages of a pipeline that have ended already, with a late report each. -/
def gone (r : Roster ρ) (first stages : Nat) : List (Nat × Bool) :=
  ((List.range' first stages).filter fun k => (r.phase k).isEnded).map fun k => (k, true)

/-- A task drains a pipeline, of which one stage has failed. -/
def drain (r : Roster ρ) (i first stages : Nat) (abort : Abort) (next : Except Abort ρ → Job ρ)
    (cancelled : Nat → Bool) : Roster ρ :=
  ({ r with cancelled := cancelled }.setPhase i (.draining stages abort next)).tellAll
    (r.gone first stages)

/-- The stages that give a late report are those of the pipeline that have ended. -/
theorem mem_gone {e : Nat × Bool} {first stages : Nat} :
    e ∈ r.gone first stages ↔
      (first ≤ e.1 ∧ e.1 < first + stages) ∧ (r.phase e.1).isEnded = true ∧ e.2 = true := by
  simp only [gone, List.mem_map, List.mem_filter, List.mem_range'_1]
  constructor
  · rintro ⟨k, ⟨hk, hended⟩, rfl⟩
    exact ⟨hk, hended, rfl⟩
  · rintro ⟨hk, hended, hlate⟩
    exact ⟨e.1, ⟨hk, hended⟩, by rw [← hlate]⟩

section

variable {stages : Nat} {abort : Abort} {next : Except Abort ρ → Job ρ} {cancelled : Nat → Bool}

/-- A task that drains its pipeline is told of the stages that have ended, after what it was to be told anyway. -/
theorem reportsTo_drain_self (hb : r.Batch i first stages) :
    (r.drain i first stages abort next cancelled).reportsTo i =
      r.reportsTo i ++ r.gone first stages := by
  have hgone : (r.gone first stages).filter (fun e => decide (r.starter e.1 = some i)) =
      r.gone first stages :=
    List.filter_eq_self.mpr fun e he => by
      obtain ⟨hk, -⟩ := mem_gone.mp he
      simpa using hb.starter e.1 hk.1 hk.2
  show (r.reports ++ r.gone first stages).filter (fun e => decide (r.starter e.1 = some i)) = _
  rw [List.filter_append, hgone]
  rfl

/-- Nobody else is told more, since a stage reports to its starter only. -/
theorem reportsTo_drain_of_ne (hb : r.Batch i first stages) {p : Nat} (hpi : p ≠ i) :
    (r.drain i first stages abort next cancelled).reportsTo p = r.reportsTo p := by
  have hgone : (r.gone first stages).filter (fun e => decide (r.starter e.1 = some p)) = [] :=
    List.filter_eq_nil_iff.mpr fun e he => by
      obtain ⟨hk, -⟩ := mem_gone.mp he
      rw [hb.starter e.1 hk.1 hk.2]
      simpa using fun h : i = p => hpi h.symm
  show (r.reports ++ r.gone first stages).filter (fun e => decide (r.starter e.1 = some p)) = _
  rw [List.filter_append, hgone, List.append_nil]
  rfl

/-- The stages that run and those that have ended are all stages. -/
theorem Batch.card_add_gone (hb : r.Batch i first stages) (hsize : ∀ k p, r.starter k = some p →
    k < r.size) : (r.running i).card + (r.gone first stages).length = stages := by
  have hrunning : r.running i =
      ((List.range' first stages).filter fun k => !(r.phase k).isEnded).toFinset := by
    ext k
    simp only [mem_running, List.mem_toFinset, List.mem_filter, List.mem_range'_1, Bool.not_eq_true']
    constructor
    · rintro h
      exact ⟨hb.running k (mem_running.mpr h), h.2.2⟩
    · rintro ⟨hk, hl⟩
      have hs := hb.starter k hk.1 hk.2
      exact ⟨hsize k i hs, hs, hl⟩
  have hnodup : ((List.range' first stages).filter fun k => !(r.phase k).isEnded).Nodup :=
    List.Nodup.filter _ (List.nodup_range')
  have hlength := (List.range' first stages).length_eq_length_filter_add
    fun k => (r.phase k).isEnded
  rw [List.length_range'] at hlength
  rw [hrunning, List.toFinset_card_of_nodup hnodup, gone, List.length_map]
  omega

/-- None of the early reports is counted among the late ones. -/
theorem countP_of_early {l : List (Nat × Bool)} (h : ∀ e ∈ l, e.2 = false) : l.countP (·.2) = 0 :=
  List.countP_eq_zero.mpr fun e he => by rw [h e he]; exact Bool.false_ne_true

/-- **To drain a pipeline keeps everything in order.** -/
theorem Orderly.drain (h : r.Orderly) (hi : i < r.size)
    (hp : r.phase i = .failing first stages abort next)
    (hgrows : ∀ k, r.cancelled k = true → cancelled k = true) (hsteady : r.Steady cancelled) :
    (r.drain i first stages abort next cancelled).Orderly := by
  have hself := h.awaits i hi
  rw [hp] at hself
  cases hself with
  | failing hb he =>
    have hphase {k : Nat} (hk : k ≠ i) :
        (r.drain i first stages abort next cancelled).phase k = r.phase k :=
      Function.update_of_ne hk ..
    have hphaseSelf : (r.drain i first stages abort next cancelled).phase i =
        .draining stages abort next := Function.update_self ..
    have hrunning (p : Nat) : (r.drain i first stages abort next cancelled).running p =
        r.running p :=
      running_setPhase (r := { r with cancelled := cancelled }) (by
        show false = (r.phase i).isEnded
        rw [hp]
        rfl) p
    -- Whatever is reported has ended: what was to be reported, and the stages that are reported late.
    refine ⟨h.starter, hsteady.root, fun e hmem => ?_, fun q hq => ?_⟩
    · have hold : e.1 < r.size ∧ (r.phase e.1).isEnded = true := by
        rcases List.mem_append.mp hmem with hmem | hmem
        · exact h.reported e hmem
        · obtain ⟨hk, hended, -⟩ := mem_gone.mp hmem
          exact ⟨(h.starter e.1 i (hb.starter e.1 hk.1 hk.2)).1, hended⟩
      refine ⟨hold.1, ?_⟩
      rw [hphase fun hei => ?_]
      · exact hold.2
      · rw [hei, hp] at hold
        cases hold.2
    · by_cases hqi : q = i
      · subst hqi
        rw [hphaseSelf]
        refine .draining ?_ ?_
        -- As many late reports and running stages as there are stages: each stage is one or the other.
        · have hgone : (r.gone first stages).countP (·.2) = (r.gone first stages).length :=
            List.countP_eq_length.mpr fun e hmem => (mem_gone.mp hmem).2.2
          rw [hrunning, reportsTo_drain_self hb, List.countP_append, countP_of_early he, hgone,
            Nat.zero_add]
          exact hb.card_add_gone fun k p hs => (h.starter k p hs).1
        -- Whatever is to be reported early has ended, so its late report is among the new ones.
        · rw [reportsTo_drain_self hb]
          intro before after k hl
          rcases List.append_eq_append_iff.mp hl with ⟨mid, -, hmid⟩ | ⟨mid, hold, hmid⟩
          · have hmem : (k, false) ∈ r.gone first stages := by
              rw [hmid]
              exact List.mem_append_right _ List.mem_cons_self
            cases (mem_gone.mp hmem).2.2
          · match mid, hmid with
            | [], hmid =>
              have hmem : (k, false) ∈ r.gone first stages := by
                rw [← List.nil_append (r.gone first stages), ← hmid]
                exact List.mem_cons_self
              cases (mem_gone.mp hmem).2.2
            | a :: mid, hmid =>
              simp only [List.cons_append, List.cons.injEq] at hmid
              obtain ⟨rfl, rfl⟩ := hmid
              have hmem : (k, false) ∈ r.reportsTo q := by
                rw [hold]
                exact List.mem_append_right _ List.mem_cons_self
              refine List.mem_append_right _ (mem_gone.mpr ⟨hb.reported (k, false) hmem, ?_, rfl⟩)
              exact (h.reported _ (mem_reportsTo.mp hmem).1).2
      -- Nobody else is at another phase. A stage of theirs is told to end only if they are.
      · rw [hphase hqi]
        refine (h.awaits q hq).congr (hrunning q) (reportsTo_drain_of_ne hb hqi)
          (fun _ hs => hs) fun first' stages' ended' next' hjoin hc => ⟨?_, ?_⟩
        · exact Bool.eq_false_iff.mpr fun ht => Bool.eq_false_iff.mp hc (hgrows q ht)
        · exact fun k hk hk' _ => hsteady.stages q first' stages' ended' next' hjoin hc k hk hk'

end

/-! ## 3. Reports

What a starter makes of a report depends on what it waits for: it notes one result more, gives its pipeline up,
counts one end more, or knows already. `Heard` lists these cases, and each of them leaves it with something that it
can rely on. -/

/-- The first report has been dealt with. -/
def dropReport (r : Roster ρ) : Roster ρ := { r with reports := r.reports.tail }

/-- What a starter comes to when a report of a stage is dealt with. -/
inductive Heard (r : Roster ρ) (q k : Nat) : Bool → Phase ρ → Prop where
  | failed {first stages ended : Nat} {next : Except Abort ρ → Job ρ} {abort : Abort}
      (hq : r.phase q = .joining first stages ended next)
      (hk : r.phase k = .ended (.error abort)) : Heard r q k false (.failing first stages abort next)
  | counted {first stages ended : Nat} {next : Except Abort ρ → Job ρ} {value : ρ}
      (hq : r.phase q = .joining first stages ended next) (hk : r.phase k = .ended (.ok value))
      (hlt : ended + 1 < stages) : Heard r q k false (.joining first stages (ended + 1) next)
  | complete {first stages ended : Nat} {next : Except Abort ρ → Job ρ} {value : ρ}
      {last : Except Abort ρ} (hq : r.phase q = .joining first stages ended next)
      (hk : r.phase k = .ended (.ok value)) (hge : stages ≤ ended + 1)
      (hlast : r.phase (first + stages - 1) = .ended last) : Heard r q k false (.active (next last))
  | drained {left : Nat} {abort : Abort} {next : Except Abort ρ → Job ρ}
      (hq : r.phase q = .draining left abort next) (hlt : 1 < left) :
      Heard r q k true (.draining (left - 1) abort next)
  | emptied {left : Nat} {abort : Abort} {next : Except Abort ρ → Job ρ}
      (hq : r.phase q = .draining left abort next) (hle : left ≤ 1) :
      Heard r q k true (.active (next (.error abort)))
  /-- The starter knows already that a stage has failed. -/
  | failing {first stages : Nat} {abort : Abort} {next : Except Abort ρ → Job ρ}
      (hq : r.phase q = .failing first stages abort next) :
      Heard r q k false (.failing first stages abort next)
  | draining {left : Nat} {abort : Abort} {next : Except Abort ρ → Job ρ}
      (hq : r.phase q = .draining left abort next) : Heard r q k false (.draining left abort next)

section

variable {k q : Nat} {late : Bool} {rest : List (Nat × Bool)} {phase : Phase ρ}

theorem reportsTo_dropReport_self (hr : r.reports = (k, late) :: rest)
    (hs : r.starter k = some q) : r.reportsTo q = (k, late) :: r.dropReport.reportsTo q := by
  unfold reportsTo dropReport
  rw [hr]
  exact List.filter_cons_of_pos (by simpa using hs)

/-- A report that is to another task is not missed. -/
theorem reportsTo_dropReport_of_ne (hr : r.reports = (k, late) :: rest) {p : Nat}
    (hs : r.starter k ≠ some p) : r.dropReport.reportsTo p = r.reportsTo p := by
  unfold reportsTo dropReport
  rw [hr]
  exact (List.filter_cons_of_neg (by simpa using hs)).symm

/-- Reports that are in order still are when the first of them has been heard. -/
theorem InOrder.tail {e : Nat × Bool} {l : List (Nat × Bool)} (h : InOrder (e :: l)) :
    InOrder l := by
  rintro before after k rfl
  exact h (e :: before) after k rfl

/-- Where no late report is left, no early one is. -/
theorem InOrder.eq_nil {l : List (Nat × Bool)} (h : InOrder l) (hc : l.countP (·.2) = 0) :
    l = [] := by
  have hlate : ∀ e ∈ l, e.2 ≠ true := fun e he => List.countP_eq_zero.mp hc e he
  match l with
  | [] => rfl
  | (k, true) :: l => exact absurd rfl (hlate _ List.mem_cons_self)
  | (k, false) :: l => exact absurd rfl (hlate (k, true) (List.mem_cons_of_mem _ (h [] l k rfl)))

/-- No starter ends by what it is told. -/
theorem Heard.isEnded (h : r.Heard q k late phase) : phase.isEnded = (r.phase q).isEnded := by
  cases h with
  | failed hq | counted hq | complete hq | drained hq | emptied hq | failing hq | draining hq =>
    exact (congrArg Phase.isEnded hq).symm

/-- A task that hears of a stage goes on itself: whatever it makes of the report, it has not ended by it. -/
theorem Heard.running (h : r.Heard q k late phase) (p : Nat) :
    (r.dropReport.setPhase q phase).running p = r.running p :=
  running_setPhase (r := r.dropReport) h.isEnded p

/-- The starter can rely on what it comes to. -/
theorem Heard.awaits (h : r.Heard q k late phase) (ha : r.Awaits q (r.phase q))
    (hr : r.reports = (k, late) :: rest) (hs : r.starter k = some q) :
    (r.dropReport.setPhase q phase).Awaits q phase := by
  have hrunning := h.running q
  have hreports : r.reportsTo q = (k, late) :: (r.dropReport.setPhase q phase).reportsTo q :=
    reportsTo_dropReport_self hr hs
  have hlater {P : Nat × Bool → Prop} (hall : ∀ e ∈ r.reportsTo q, P e) :
      ∀ e ∈ (r.dropReport.setPhase q phase).reportsTo q, P e := fun e he =>
    hall e (hreports ▸ List.mem_cons_of_mem _ he)
  have hbatch {first stages : Nat} (hb : r.Batch q first stages) :
      (r.dropReport.setPhase q phase).Batch q first stages :=
    ⟨hb.starter, hrunning ▸ hb.running, hlater hb.reported⟩
  -- By what is made of the report. There is one report less to come in each case, and as many stages run as before.
  cases h with
  | failed hq hk =>
    rw [hq] at ha
    cases ha with
    | joining hb he _ _ => exact .failing (hbatch hb) (hlater he)
  | counted hq _ hlt =>
    rw [hq] at ha
    cases ha with
    | joining hb he hcount hc =>
      rw [hreports, List.length_cons] at hcount
      exact .joining (hbatch hb) (hlater he) (by rw [hrunning]; omega) hc
  | complete hq _ hge hlast =>
    rw [hq] at ha
    cases ha with
    | joining hb he hcount hc =>
      rw [hreports, List.length_cons] at hcount
      -- The last report: no stage runs any more, and nothing else is to be reported.
      have hcard : (r.running q).card = 0 := by omega
      refine .active ?_ (List.eq_nil_of_length_eq_zero (by omega))
      rw [hrunning]
      exact Finset.card_eq_zero.mp hcard
  | drained hq hlt =>
    rw [hq] at ha
    cases ha with
    | draining hcount ho =>
      rw [hreports] at hcount ho
      rw [List.countP_cons_of_pos rfl] at hcount
      exact .draining (by rw [hrunning]; omega) ho.tail
  | emptied hq hle =>
    rw [hq] at ha
    cases ha with
    | draining hcount ho =>
      rw [hreports] at hcount ho
      rw [List.countP_cons_of_pos rfl] at hcount
      have hcard : (r.running q).card = 0 := by omega
      refine .active ?_ (ho.tail.eq_nil (by omega))
      rw [hrunning]
      exact Finset.card_eq_zero.mp hcard
  | failing hq =>
    rw [hq] at ha
    cases ha with
    | failing hb he => exact .failing (hbatch hb) (hlater he)
  | draining hq =>
    rw [hq] at ha
    cases ha with
    | draining hcount ho =>
      rw [hreports] at hcount ho
      rw [List.countP_cons_of_neg (by exact Bool.false_ne_true)] at hcount
      exact .draining (by rw [hrunning]; exact hcount) ho.tail

/-- A report for nobody. -/
theorem Orderly.dropReport (h : r.Orderly) (hr : r.reports = (k, late) :: rest)
    (hs : r.starter k = none) : r.dropReport.Orderly where
  starter := h.starter
  root := h.root
  reported e he := h.reported e (List.mem_of_mem_tail he)
  awaits p hp := (h.awaits p hp).congr rfl
    (reportsTo_dropReport_of_ne hr fun hp => by rw [hs] at hp; cases hp) (fun _ hs => hs)
    fun _ _ _ _ _ hc => ⟨hc, fun _ _ _ hk => hk⟩

/-- **A report keeps everything in order.** -/
theorem Orderly.told (h : r.Orderly) (hr : r.reports = (k, late) :: rest)
    (hs : r.starter k = some q) (hh : r.Heard q k late phase) :
    (r.dropReport.setPhase q phase).Orderly where
  starter := h.starter
  root := h.root
  reported e he := by
    obtain ⟨hlt, hended⟩ := h.reported e (List.mem_of_mem_tail he)
    refine ⟨hlt, ?_⟩
    by_cases hk : e.1 = q
    · rw [hk, phase_setPhase_self, hh.isEnded, ← hk]
      exact hended
    · exact (congrArg Phase.isEnded (phase_setPhase_of_ne phase hk)).trans hended
  awaits p hp := by
    by_cases hk : p = q
    -- Only the task that is told comes to another phase. The others have the reports that they had.
    · subst hk
      rw [phase_setPhase_self]
      exact hh.awaits (h.awaits p hp) hr hs
    · have hold : (r.dropReport.setPhase q phase).phase p = r.phase p := phase_setPhase_of_ne _ hk
      rw [hold]
      refine (h.awaits p hp).congr (hh.running p) ?_
        (fun _ hs => hs) fun _ _ _ _ _ hc => ⟨hc, fun _ _ _ hk => hk⟩
      refine reportsTo_dropReport_of_ne hr fun hsp => hk ?_
      exact Option.some.inj (hsp.symm.trans hs)

end

/-! ## 4. Turns

A `Move` is any of the changes above, so that a property of rosters that all of them keep is a property of all runs.
-/

/-- All that a turn can do to a roster. -/
inductive Move (r : Roster ρ) : Roster ρ → Prop where
  | still : Move r r
  | waits {i : Nat} {job rest : Job ρ} {w : World} (hp : r.phase i = .active job)
      (hc : r.cancelled i = false) (ha : (job.advance i w).2 = .active rest) :
      Move r (r.setPhase i (.active rest))
  /-- A task ends by itself or because it has been told to. -/
  | ends {i : Nat} {job : Job ρ} {result : Except Abort ρ} (hp : r.phase i = .active job)
      (ha : r.cancelled i = false → ∃ w, (job.advance i w).2 = .ended result) :
      Move r (r.finish i result)
  | starts {i : Nat} {job : Job ρ} {w : World} {stages capacity input : Nat} {output : Output}
      {stage : Nat → Nat → Output → Job ρ} {next : Except Abort ρ → Job ρ} {r' : Roster ρ}
      (hp : r.phase i = .active job) (hc : r.cancelled i = false)
      (ha : (job.advance i w).2 = .starting stages capacity input output stage next)
      (hst : r.Starts i stages stage next r') : Move r r'
  | drains {i first stages : Nat} {abort : Abort} {next : Except Abort ρ → Job ρ}
      {cancelled : Nat → Bool} (hp : r.phase i = .failing first stages abort next)
      (hgrows : ∀ k, r.cancelled k = true → cancelled k = true) (hsteady : r.Steady cancelled) :
      Move r (r.drain i first stages abort next cancelled)
  | told {k q : Nat} {late : Bool} {rest : List (Nat × Bool)} {phase : Phase ρ}
      (hr : r.reports = (k, late) :: rest) (hs : r.starter k = some q)
      (hh : r.Heard q k late phase) : Move r (r.dropReport.setPhase q phase)
  | missed {k : Nat} {late : Bool} {rest : List (Nat × Bool)}
      (hr : r.reports = (k, late) :: rest) (hs : r.starter k = none) : Move r r.dropReport

/-- Only those who have not ended can be at anything else. -/
theorem Orderly.awaits_of_phase (h : r.Orderly) {phase : Phase ρ} (hp : r.phase i = phase)
    (hi : i < r.size) : r.Awaits i phase := hp ▸ h.awaits i hi

/-- **A turn keeps everything in order.** Beyond the last task nobody is at anything. -/
theorem Orderly.move (h : r.Orderly) (hm : r.Move r')
    (hbeyond : ∀ i, (r.phase i).isEnded = false → i < r.size) : r'.Orderly := by
  have hlt {i : Nat} {phase : Phase ρ} (hp : r.phase i = phase) (he : phase.isEnded = false) :
      i < r.size := hbeyond i (by rw [hp]; exact he)
  cases hm with
  | still => exact h
  | @waits i job rest w hp hc ha =>
    have hsame : (Phase.active rest).isEnded = (r.phase i).isEnded := by
      rw [hp]
      rfl
    refine h.setPhase hsame ?_
    cases h.awaits_of_phase hp (hlt hp rfl) with
    | active hr ht => exact .active ((running_setPhase hsame i).trans hr) ht
  | ends hp ha => exact h.finish (hlt hp rfl) hp _
  | starts hp hc ha hst => exact h.starts (hlt hp rfl) hp hst
  | drains hp hgrows hsteady => exact h.drain (hlt hp rfl) hp hgrows hsteady
  | told hr hs hh => exact h.told hr hs hh
  | missed hr hs => exact h.dropReport hr hs

end Shell.Roster
