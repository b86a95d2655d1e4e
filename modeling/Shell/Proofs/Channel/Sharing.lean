/-
Readers that take turns at one input.

Commands of a script read one input in turns, each of them as much as it asks for: a piece, a line, or all of the
rest. It must not matter where the text comes from. A text is there as a whole; a file is read by the host, piece
by piece; a pipe has what somebody has put in. `Origin` names these, and a machine that begins there has a task
which makes its requests one after the other.

For the pipe everything is known from the turns of its two ends. The other two have only the one task, and it
either has its turn or waits for the host. So there is always just one thing to do next (`Stage`), and doing it
leaves less to do: a piece less to read, or a request less to meet when the file has come to its end.

The theorem is `nothing_is_lost`. Whatever is asked for, all of it comes, and the results with what is left make up
the text.
-/
import Shell.Proofs.Channel.Delivery

set_option autoImplicit false

namespace Shell

open Shell.Text

/-! ## 1. Turns with something to do -/

namespace Machine

variable {ρ : Type} {m m₁ : Machine ρ} {n : Nat}

/-- So many turns in any order, each with something to do: an event of the queue is dealt with, or the host reads
because it has been asked. -/
inductive BusyTurns (m : Machine ρ) : Nat → Machine ρ → Prop where
  | none : BusyTurns m 0 m
  | event {n : Nat} {m₁ : Machine ρ} {event : Event} {queue : Queue Event} (h : BusyTurns m n m₁)
      (hp : m₁.Picks event queue) : BusyTurns m (n + 1) ((m₁.withQueue queue).handle event)
  | host {n : Nat} {m₁ : Machine ρ} (h : BusyTurns m n m₁) (ha : m₁.world.asked ≠ []) :
      BusyTurns m (n + 1) (m₁.mapWorld World.hostTurn)

theorem BusyTurns.step (h : m.BusyTurns n m₁) (hq : m₁.isQuiet ≠ true) :
    m.BusyTurns (n + 1) m₁.step := by
  unfold Machine.step
  cases hn : m₁.world.queue.next? with
  | none => exact .host h fun ha => hq (isQuiet_of_next?_eq_none hn ha)
  | some next =>
    obtain ⟨event, queue⟩ := next
    have ht := BusyTurns.event h (picks_next hn)
    cases event <;> exact ht

/-- A run is made of such turns, and it has as many as it may unless nothing is left to do. -/
theorem BusyTurns.run (h : m.BusyTurns n m₁) (turns : Nat) :
    ∃ k, m.BusyTurns k (m₁.run turns) ∧ (k = n + turns ∨ (m₁.run turns).isQuiet = true) := by
  induction turns generalizing m₁ n with
  | zero => exact ⟨n, h, .inl rfl⟩
  | succ turns ih =>
    unfold Machine.run
    split
    · next hq => exact ⟨n, h, .inr hq⟩
    · next hq =>
      obtain ⟨k, hk, hend⟩ := ih (h.step hq)
      exact ⟨k, hk, hend.imp_left fun he => by omega⟩

/-- Where there are only so many turns a run with as many comes to an end. -/
theorem isQuiet_run {bound turns : Nat} (h : ∀ n m', m.BusyTurns n m' → n ≤ bound)
    (ht : bound ≤ turns) : (m.run turns).isQuiet = true := by
  obtain ⟨k, hk, rfl | hquiet⟩ := BusyTurns.none (m := m) |>.run turns
  · by_contra hq
    have hle := h _ _ (hk.step hq)
    omega
  · exact hquiet

end Machine

namespace Delivery

variable {text : List Char} {requests left : List Request} {got : List String} {wanted : Wanted}
  {w w₁ w' : World} {m : Machine (List String)} {rank : Nat}

/-! ## 2. One reader -/

/-- A machine with a task that makes requests of an input. -/
def solo (input : Input) (requests : List Request) : Machine (List String) :=
  let m : Machine (List String) := { world := { inputs := #[input] } }
  m.addTask { phase := .active (reading requests []) }

/-- How many pieces the reader has not taken yet: those that the host has still to read, and one that it has read
unless that is the end. -/
def stock (rest : List (List Char)) (piece : List Char) : Nat :=
  rest.length + if piece.isEmpty then 0 else 1

/-- The one thing to do next, and a bound for what there is to do: the reader begins; the host is to read for it; it
is to notice what the host has read; it is to take that; nothing is left. -/
inductive Stage (text : List Char) (requests : List Request) (w : World) :
    Phase (List String) → Nat → Prop where
  | begins (hq : w.queue.toList = [.resume 0]) (ha : w.asked = []) (hu : w.Unasked 0)
      (hs : w.coming 0 [] = text) :
      Stage text requests w (.active (reading requests []))
        (3 * ((w.input 0).ahead.length + requests.length) + 3)
  | asks {wanted : Wanted} {left : List Request} {got : List String} {rest : List (List Char)}
      (hq : w.queue.toList = []) (ha : w.asked = [(0, 0)])
      (hs : (w.input 0).source = .host rest none)
      (hw : Awaits w [] text requests wanted left got) (hi : wanted.inside = true) :
      Stage text requests w (.active (awaiting wanted left got))
        (3 * (rest.length + (left.length + 1)) + 2)
  | notices {wanted : Wanted} {left : List Request} {got : List String} {rest : List (List Char)}
      {piece : List Char} (hq : w.queue.toList = [.arrival 0]) (ha : w.asked = [])
      (hs : (w.input 0).source = .host rest (some piece))
      (hw : Awaits w [] text requests wanted left got) (hi : wanted.inside = true) :
      Stage text requests w (.active (awaiting wanted left got))
        (3 * (stock rest piece + (left.length + 1)) + 1)
  | takes {wanted : Wanted} {left : List Request} {got : List String} {rest : List (List Char)}
      {piece : List Char} (hq : w.queue.toList = [.resume 0]) (ha : w.asked = [])
      (hs : (w.input 0).source = .host rest (some piece))
      (hw : Awaits w [] text requests wanted left got) (hi : wanted.inside = true) :
      Stage text requests w (.active (awaiting wanted left got))
        (3 * (stock rest piece + (left.length + 1)))
  | ended {got : List String} (hq : w.queue.toList = []) (ha : w.asked = []) (hu : w.Unasked 0)
      (hs : Shares text requests got (w.coming 0 [])) :
      Stage text requests w (.ended (.ok got)) 0

/-- What else holds between two turns. -/
structure Alone (text : List Char) (requests : List Request) (m : Machine (List String))
    (rank : Nat) : Prop where
  size : m.tasks.size = 1
  alone : (m.task 0).starter = none ∧ (m.task 0).cancelled = false
  legible : m.world.Legible 0 []
  supply : ∀ pipe, (m.world.input 0).supply ≠ .pipe pipe
  stage : Stage text requests m.world (m.task 0).phase rank

/-! ### What the host does -/

/-- A piece has been read, which is one of those that the host had to read. -/
theorem stock_next (rest : List (List Char)) : stock rest.tail (rest.headD []) ≤ rest.length := by
  unfold stock
  cases rest with
  | nil => exact Nat.le_refl 0
  | cons piece rest =>
    rw [List.tail_cons, List.length_cons]
    split <;> omega

/-- What is to come to a reader is what the input still holds. -/
theorem coming_eq_unread (hs : ∀ pipe, (w.input 0).supply ≠ .pipe pipe) (hu : w.Unasked 0) :
    w.coming 0 [] = (w.input 0).unread := by
  unfold World.coming World.sourceText Input.unread
  cases hsrc : (w.input 0).source with
  | text rest => rfl
  | host rest ready =>
    rw [hu rest ready hsrc]
    rfl
  | pipe pipe decoder ended => exact absurd (by rw [Input.supply, hsrc]) (hs pipe)

/-- The host has read the next piece, and the reader is told. -/
theorem input_hostReads {index : Nat} {rest : List (List Char)} (hi : index < w.inputs.size)
    (hs : (w.input index).source = .host rest none) (task : Nat) :
    (w.hostReads task index).input index =
        { w.input index with source := .host rest.tail (some (rest.headD [])) } ∧
      (w.hostReads task index).queue.toList = w.queue.toList ++ [.arrival task] ∧
      (w.hostReads task index).asked = w.asked := by
  rw [World.hostReads_of_host hs]
  exact ⟨World.input_setInput_self _ hi, Queue.toList_push _ _, rfl⟩

/-- The stage after a turn of the reader or of the host, with less to do than before. -/
def Settled (text : List Char) (requests : List Request) (bound : Nat) (w : World)
    (phase : Phase (List String)) : Prop :=
  w.Legible 0 [] ∧ (∀ pipe, (w.input 0).supply ≠ .pipe pipe) ∧
    ∃ rank < bound, Stage text requests w phase rank

/-- **The end of a turn.** If the reader waits then the host has read the next piece or is to read it. -/
theorem Gets.settled {total bound : Nat} {r : World × Phase (List String)}
    (h : Gets w 0 [] text requests total r) (hq : w.queue.toList = []) (ha : w.asked = [])
    (hsupply : ∀ pipe, (w.input 0).supply ≠ .pipe pipe)
    (hb : 3 * ((w.input 0).ahead.length + total) + 2 < bound) :
    Settled text requests bound r.1 r.2 := by
  cases h with
  | ends hr hu hread hs _ =>
    have hw := hr.inputs hsupply
    refine ⟨hread, fun pipe => ?_, 0, by omega, .ended ?_ ?_ hu hs⟩
    · rw [hr.supply]
      exact hsupply pipe
    · rw [hw]
      exact hq
    · rw [hw]
      exact ha
  | @waits w₁ w' wanted left got hr hu hp hread hw hi hl =>
    have hrest := hr.inputs hsupply
    have hq₁ : w₁.queue.toList = [] := by rw [hrest]; exact hq
    have ha₁ : w₁.asked = [] := by rw [hrest]; exact ha
    cases hp with
    | bytes hs _ => exact absurd (hr.supply.symm.trans hs) (hsupply _)
    | host hs =>
      obtain ⟨rest, hsource⟩ : ∃ rest, (w₁.input 0).source = .host rest none := by
        cases hsrc : (w₁.input 0).source with
        | host rest ready => exact ⟨rest, by rw [hu rest ready hsrc]⟩
        | text _ => rw [Input.supply, hsrc] at hs; cases hs
        | pipe _ _ _ => rw [Input.supply, hsrc] at hs; cases hs
      have hahead : (w.input 0).ahead.length = rest.length := by
        rw [← hr.ahead, Input.ahead, hsource]
      have hnext := stock_next rest
      -- Who asks first wakes the host, which reads for it at once. After that it has to wait for its turn.
      by_cases hawake : w₁.hostAwake = true
      · have hask : w₁.askHost 0 0 = { w₁ with asked := w₁.asked ++ [(0, 0)] } := by
          rw [World.askHost, if_pos hawake]
        rw [hask] at hread hw ⊢
        refine ⟨hread, ?_, 3 * (rest.length + (left.length + 1)) + 2, by omega, ?_⟩
        · exact fun pipe hpipe => by cases hs.symm.trans hpipe
        · exact .asks hq₁ (by rw [ha₁]; rfl) hsource hw hi
      · obtain ⟨hin, hqueue, hasked⟩ := input_hostReads (World.lt_size_of_host hsource) hsource 0
        have hask : w₁.askHost 0 0 = { w₁.hostReads 0 0 with hostAwake := true } := by
          rw [World.askHost, if_neg hawake]
        rw [hask] at hread hw ⊢
        have hsrc : (({ w₁.hostReads 0 0 with hostAwake := true } : World).input 0).source =
            .host rest.tail (some (rest.headD [])) := congrArg Input.source hin
        refine ⟨hread, fun pipe hpipe => ?_, 3 * (stock rest.tail (rest.headD []) + (left.length + 1)) + 1,
          by omega, .notices ?_ (hasked.trans ha₁) hsrc hw hi⟩
        · rw [Input.supply, hsrc] at hpipe
          cases hpipe
        · rw [hq₁] at hqueue
          exact hqueue

/-! ### The end of a file -/

theorem isContinued_of_inLine {line : List Char} (h : ∀ c ∈ line, Input.isInLine c = true) :
    World.isContinued line = false := by
  have hreverse : ∀ c ∈ line.reverse, Input.isInLine c = true := fun c hc => h c (List.mem_reverse.mp hc)
  unfold World.isContinued
  split
  · rfl
  · next hl =>
    rw [hl] at hreverse
    exact absurd (hreverse '\n' List.mem_cons_self) (by decide)
  · rfl

/-- When the host has come to the end of the file the request is met with what there is. -/
theorem exists_text_of_end {rest : List (List Char)} (hs : (w.input 0).source = .host rest (some []))
    (hi : wanted.inside = true) (hm : w.Minds 0 wanted) (task : Nat) :
    ∃ w' text, w.read task 0 wanted = (w', .text text) := by
  obtain ⟨request, inside, done⟩ := wanted
  obtain rfl : inside = true := hi
  have hin := World.input_setInput_self (w := w) { w.input 0 with source := .host rest none }
    (World.lt_size_of_host hs)
  have hpiece : w.nextPiece task 0 true =
      (w.setInput 0 { w.input 0 with source := .host rest none }, some []) := by
    simp only [World.nextPiece, hs, if_true]
  have hline : w.readLine task 0 World.maxPieces true =
      ((w.setInput 0 { w.input 0 with source := .host rest none }).setInput 0
        (Input.withPending { w.input 0 with source := .host rest none } []),
        some (w.input 0).pendingText) := by
    rw [World.maxPieces, World.readLine]
    simp only [if_true, hpiece, hin]
    rfl
  unfold World.read
  cases request with
  | piece =>
    simp only [World.readPiece, Bool.true_or, if_true, hpiece]
    exact ⟨_, _, rfl⟩
  | line =>
    simp only [hline]
    exact ⟨_, _, rfl⟩
  | continued =>
    -- What is left is a line without a newline, and that one does not go on.
    have hnot : World.isContinued (w.input 0).pendingText = false := isContinued_of_inLine (hm rfl)
    simp only [hline, hnot, Bool.false_eq_true, if_false]
    exact ⟨_, _, rfl⟩
  | all =>
    simp only [World.maxPieces, World.readAll, World.readPiece, Bool.true_or, if_true, hpiece]
    exact ⟨_, _, rfl⟩

/-! ### Turns of the reader -/

/-- The first turn. -/
theorem settled_begins (hread : w.Legible 0 []) (hsupply : ∀ pipe, (w.input 0).supply ≠ .pipe pipe)
    (hq : w.queue.toList = []) (ha : w.asked = []) (hu : w.Unasked 0) (hs : w.coming 0 [] = text) :
    Settled text requests (3 * ((w.input 0).ahead.length + requests.length) + 3)
      ((reading requests []).advance 0 w).1 ((reading requests []).advance 0 w).2 := by
  have hasks : Asks w [] text requests requests [] := by
    refine ⟨[], rfl, ?_⟩
    rw [hs]
    exact .none
  exact (gets_reading requests hread hu hasks).settled hq ha hsupply (Nat.lt_succ_self _)

/-- A turn with what the host has read. If that is the end then the request is met, and otherwise there is a piece
less to take. -/
theorem settled_takes {rest : List (List Char)} {piece : List Char} (hread : w.Legible 0 [])
    (hq : w.queue.toList = []) (ha : w.asked = [])
    (hs : (w.input 0).source = .host rest (some piece))
    (hw : Awaits w [] text requests wanted left got) (hi : wanted.inside = true) :
    Settled text requests (3 * (stock rest piece + (left.length + 1)))
      ((awaiting wanted left got).advance 0 w).1 ((awaiting wanted left got).advance 0 w).2 := by
  have hsupply (pipe : Nat) : (w.input 0).supply ≠ .pipe pipe := by
    rw [Input.supply, hs]
    exact fun he => by cases he
  have hanswered : w.Answered 0 wanted.inside := by
    intro more ready hsrc
    rw [hs] at hsrc
    obtain ⟨-, rfl⟩ := Source.host.inj hsrc
    exact hi.symm
  have hahead : (w.input 0).ahead = rest := by rw [Input.ahead, hs]
  -- What is left to do is counted in pieces and requests: a piece that is not empty is used up, and an end meets a
  -- request.
  unfold stock
  by_cases hp : piece.isEmpty = true
  · -- The file has come to its end, so this request is met, and the next one asks again.
    obtain rfl := List.isEmpty_iff.mp hp
    obtain ⟨w', got', hgot⟩ := exists_text_of_end hs hi hw.minds 0
    have hserve := serves_read 0 hread hanswered hw.minds
    have hhalt := World.halts_read 0 hanswered
    unfold awaiting Job.advance
    rw [hgot] at hserve hhalt ⊢
    obtain ⟨hreads, hu⟩ : World.ReadsOn 0 w w' ∧ w'.Unasked 0 := World.Halts.reads hhalt
    have hinputs := hreads.inputs hsupply
    cases hserve with
    | text hg ht =>
      refine (gets_reading left hg.legible hu (hw.asks hg ht)).settled ?_ ?_ (fun pipe => ?_) ?_
      · rw [hinputs]
        exact hq
      · rw [hinputs]
        exact ha
      · rw [hreads.supply]
        exact hsupply pipe
      · rw [hreads.ahead, hahead, if_pos hp]
        omega
  · have hgets : Gets w 0 [] text requests (left.length + 1) ((awaiting wanted left got).advance 0 w) :=
      gets_read hread hanswered hw fun _ _ h hu ha => gets_reading _ h hu ha
    refine hgets.settled hq ha hsupply ?_
    rw [hahead, if_neg hp]
    omega

/-! ### Every turn -/

theorem not_picks_of_nil {event : Event} {queue : Queue Event} (hq : m.world.queue.toList = []) :
    ¬ m.Picks event queue := fun hp =>
  List.not_mem_nil (hq ▸ (hp.mem_iff event).mpr (.inl rfl))

namespace Alone

/-- The reader has had a turn. -/
theorem resume (h : Alone text requests m rank) {queue : Queue Event} {job : Job (List String)}
    (hj : (m.task 0).phase = .active job)
    (hs : Settled text requests rank (job.advance 0 (m.withQueue queue).world).1
      (job.advance 0 (m.withQueue queue).world).2) :
    ∃ rank' < rank, Alone text requests ((m.withQueue queue).resume 0) rank' := by
  rcases hadv : job.advance 0 (m.withQueue queue).world with ⟨w, phase⟩
  rw [hadv] at hs
  obtain ⟨hread, hsupply, rank', hlt, hstage⟩ := hs
  obtain ⟨hstarter, hcancelled⟩ := h.alone
  have hj' : ((m.withQueue queue).task 0).phase = .active job := hj
  have hresume : (m.withQueue queue).resume 0 = (m.withQueue queue).became 0 phase w := by
    cases hstage with
    | begins | asks | notices | takes => exact Machine.resume_of_waiting hj' hcancelled hadv
    | ended => exact Machine.resume_of_ended hj' hcancelled hstarter hadv
  have hzero : 0 < (m.withQueue queue).tasks.size :=
    Machine.lt_size_of_result?_eq_none (Machine.result?_eq_none_of_active hj')
  have htask := Machine.task_became_self phase w hzero
  rw [hresume]
  refine ⟨rank', hlt, (Machine.size_became _ _ _ _).trans h.size, ?_, hread, hsupply, ?_⟩
  · rw [htask]
    exact h.alone
  · rw [htask]
    exact hstage

theorem event (h : Alone text requests m rank) {event : Event} {queue : Queue Event}
    (hp : m.Picks event queue) :
    ∃ rank' < rank, Alone text requests ((m.withQueue queue).handle event) rank' := by
  have hstage := h.stage
  have hread : (m.withQueue queue).world.Legible 0 [] := h.legible.aside rfl rfl
  generalize hphase : (m.task 0).phase = phase at hstage
  cases hstage with
  | begins hq ha hu hs =>
    obtain ⟨rfl, hnone⟩ := hp.of_singleton hq
    exact h.resume hphase (settled_begins hread h.supply hnone ha hu hs)
  | asks hq => exact absurd hp (not_picks_of_nil hq)
  | notices hq ha hs hw hi =>
    obtain ⟨rfl, hnone⟩ := hp.of_singleton hq
    refine ⟨_, Nat.lt_succ_self _, h.size, h.alone, hread.aside rfl rfl, h.supply, ?_⟩
    show Stage text requests ((m.withQueue queue).world.push (.resume 0)) (m.task 0).phase _
    rw [hphase]
    refine .takes ?_ ha hs ⟨hw.minds, hw.shares⟩ hi
    show (queue.push (.resume 0)).toList = _
    rw [Queue.toList_push, hnone]
    rfl
  | takes hq ha hs hw hi =>
    obtain ⟨rfl, hnone⟩ := hp.of_singleton hq
    exact h.resume hphase (settled_takes hread hnone ha hs ⟨hw.minds, hw.shares⟩ hi)
  | ended hq => exact absurd hp (not_picks_of_nil hq)

/-- The host reads. -/
theorem host (h : Alone text requests m rank) (ha : m.world.asked ≠ []) :
    ∃ rank' < rank, Alone text requests (m.mapWorld World.hostTurn) rank' := by
  have hstage := h.stage
  generalize hphase : (m.task 0).phase = phase at hstage
  -- The host has a turn only while the reader has asked for a piece.
  cases hstage with
  | begins _ hnone | notices _ hnone | takes _ hnone | ended _ hnone => exact absurd hnone ha
  | @asks wanted left got rest hq hasked hs hw hi =>
    have hturn : m.world.hostTurn = ({ m.world with asked := [] } : World).hostReads 0 0 := by
      unfold World.hostTurn
      rw [hasked]
    have hread : ({ m.world with asked := [] } : World).Legible 0 [] := h.legible.aside rfl rfl
    have hdraws := hread.draws_hostReads 0 hs
    obtain ⟨hin, hqueue, hnone⟩ := input_hostReads hread.known hs 0
    rw [← hturn] at hdraws hin hqueue hnone
    have hsrc : (m.world.hostTurn.input 0).source = .host rest.tail (some (rest.headD [])) :=
      congrArg Input.source hin
    have hnext := stock_next rest
    refine ⟨3 * (stock rest.tail (rest.headD []) + (left.length + 1)) + 1, by omega, h.size, h.alone,
      hdraws.legible, fun pipe hpipe => ?_, ?_⟩
    · have hpipe : (m.world.hostTurn.input 0).supply = .pipe pipe := hpipe
      rw [Input.supply, hsrc] at hpipe
      cases hpipe
    · show Stage text requests m.world.hostTurn (m.task 0).phase _
      rw [hphase]
      exact .notices (hqueue.trans (congrArg (· ++ [Event.arrival 0]) hq)) hnone hsrc
        (hw.congr hdraws.pending hdraws.gives_nothing.coming.symm) hi

/-- **Every run** leaves less to do with each turn. -/
theorem busyTurns {m' : Machine (List String)} {n : Nat} (h : Alone text requests m rank)
    (ht : m.BusyTurns n m') : ∃ rank', Alone text requests m' rank' ∧ n + rank' ≤ rank := by
  induction ht with
  | none => exact ⟨rank, h, Nat.le_of_eq (Nat.zero_add _)⟩
  | event _ hp ih =>
    obtain ⟨rank₁, h₁, hle⟩ := ih
    obtain ⟨rank', hlt, h'⟩ := h₁.event hp
    exact ⟨rank', h', by omega⟩
  | host _ ha ih =>
    obtain ⟨rank₁, h₁, hle⟩ := ih
    obtain ⟨rank', hlt, h'⟩ := h₁.host ha
    exact ⟨rank', h', by omega⟩

end Alone

/-- A reader has ended when there is nothing to do any more, and then it has got what it asked for. -/
theorem Alone.result (h : Alone text requests m rank) :
    (m.isQuiet = true → ∃ got, m.result? 0 = some (.ok got)) ∧
      ∀ result, m.result? 0 = some result → ∃ got rest, result = .ok got ∧
        Shares text requests got rest ∧ (m.world.input 0).unread = rest := by
  have hstage := h.stage
  unfold Machine.result?
  generalize (m.task 0).phase = phase at hstage
  cases hstage with
  | begins hq | notices hq | takes hq =>
    refine ⟨fun hquiet => ?_, nofun⟩
    rw [(Queue.isEmpty_iff _).mp (Bool.and_eq_true_iff.mp hquiet).1] at hq
    cases hq
  | asks _ ha =>
    refine ⟨fun hquiet => ?_, nofun⟩
    rw [List.isEmpty_iff.mp (Bool.and_eq_true_iff.mp hquiet).2] at ha
    cases ha
  | ended _ _ hu hs =>
    refine ⟨fun _ => ⟨_, rfl⟩, fun result hr => ⟨_, _, (Option.some.inj hr).symm, hs, ?_⟩⟩
    exact (coming_eq_unread h.supply hu).symm

/-! ## 3. Origins -/

/-- Where a reader finds its text: there as a whole; in a file that the host reads by so many characters at a time, or
in pieces of any length; or in a pipe. -/
inductive Origin where
  | text (text : String)
  | file (size : Nat) (text : String)
  | pieces (pieces : List (List Char))
  | pipe (capacity : Nat) (parcels : List Parcel)

namespace Origin

/-- The whole text. That of a pipe is what its bytes stand for. -/
def content : Origin → List Char
  | .text chars => chars.toList
  | .file _ chars => chars.toList
  | .pieces parts => parts.flatten
  | .pipe _ parcels => Utf8.decode (bytesOf parcels)

/-- Pieces are not empty, and there is room for a byte in a pipe. -/
def Proper : Origin → Prop
  | .text _ => True
  | .file size _ => 1 ≤ size
  | .pieces parts => [] ∉ parts
  | .pipe capacity _ => 1 ≤ capacity

/-- A machine with a task that makes requests there. -/
def start (requests : List Request) : Origin → Machine (List String)
  | .text chars => solo (.ofText chars) requests
  | .file size chars => solo (.ofHost (some size) chars) requests
  | .pieces parts => solo ⟨[], .host parts none⟩ requests
  | .pipe capacity parcels => Delivery.start capacity parcels requests

/-- The number of the task. -/
def reader : Origin → Nat
  | .pipe _ _ => Delivery.reader
  | _ => 0

/-- What the next reader will find: what the input still holds; and at a pipe what is in it and what is still to be
put in. -/
def Leaves (m : Machine (List String)) (rest : List Char) : Origin → Prop
  | .pipe _ _ => ∃ unsent, Speaks m.world unsent (m.task writer).phase ∧ m.world.coming 0 unsent = rest
  | _ => (m.world.input 0).unread = rest

end Origin

/-! ### A text or a file -/

theorem flatten_chunksOf {size : Nat} (h : 1 ≤ size) (text : List Char) :
    (Input.chunksOf size text).flatten = text := by
  induction text using Input.chunksOf.induct size with
  | case1 text hc =>
    rw [Input.chunksOf, if_pos hc]
    exact (hc.resolve_left (by omega)).symm
  | case2 text hc ih =>
    rw [Input.chunksOf, if_neg hc, List.flatten_cons, ih, List.take_append_drop]

theorem filled_chunksOf {size : Nat} (h : 1 ≤ size) (text : List Char) :
    [] ∉ Input.chunksOf size text := by
  induction text using Input.chunksOf.induct size with
  | case1 text hc =>
    rw [Input.chunksOf, if_pos hc]
    exact List.not_mem_nil
  | case2 text hc ih =>
    rw [Input.chunksOf, if_neg hc, List.mem_cons, not_or]
    refine ⟨fun hnil => ?_, ih⟩
    rcases List.take_eq_nil_iff.mp hnil.symm with hzero | hnone
    · omega
    · exact hc (.inr hnone)

/-- The start at a text or at a file of the host. -/
theorem alone_solo {source : Source} (hpipe : ∀ pipe, (⟨[], source⟩ : Input).supply ≠ .pipe pipe)
    (hhost : ∀ rest ready, source = .host rest ready → [] ∉ rest ∧ ready = none)
    (requests : List Request) :
    ∃ rank, Alone (⟨[], source⟩ : Input).unread requests (solo ⟨[], source⟩ requests) rank := by
  have hunasked : (solo ⟨[], source⟩ requests).world.Unasked 0 := fun rest ready hs => (hhost rest ready hs).2
  refine ⟨_, rfl, ⟨rfl, rfl⟩, ?_, hpipe, .begins rfl rfl hunasked (coming_eq_unread hpipe hunasked)⟩
  refine ⟨Nat.one_pos, nofun, List.not_mem_nil, fun rest ready hs => ?_, fun c hs => ?_, fun c decoder hs => ?_⟩
  · obtain ⟨hrest, rfl⟩ := hhost rest ready hs
    exact ⟨hrest, nofun⟩
  · exact absurd hs (hpipe c)
  · obtain rfl : source = .pipe c decoder true := hs
    exact absurd rfl (hpipe c)

/-- All runs from there. -/
theorem solo_shares {source : Source} (hpipe : ∀ pipe, (⟨[], source⟩ : Input).supply ≠ .pipe pipe)
    (hhost : ∀ rest ready, source = .host rest ready → [] ∉ rest ∧ ready = none)
    (requests : List Request) :
    ∃ bound, ∀ n m, (solo ⟨[], source⟩ requests).BusyTurns n m → n ≤ bound ∧
      (m.isQuiet = true → ∃ got, m.result? 0 = some (.ok got)) ∧
      ∀ result, m.result? 0 = some result → ∃ got rest, result = .ok got ∧
        Shares (⟨[], source⟩ : Input).unread requests got rest ∧ (m.world.input 0).unread = rest := by
  obtain ⟨bound, hstart⟩ := alone_solo hpipe hhost requests
  refine ⟨bound, fun n m ht => ?_⟩
  obtain ⟨rank, h, hle⟩ := hstart.busyTurns ht
  exact ⟨by omega, h.result⟩

/-- Those of a file that is read in such pieces. -/
theorem host_shares {pieces : List (List Char)} (h : [] ∉ pieces) (requests : List Request) :
    ∃ bound, ∀ n m, (solo ⟨[], .host pieces none⟩ requests).BusyTurns n m → n ≤ bound ∧
      (m.isQuiet = true → ∃ got, m.result? 0 = some (.ok got)) ∧
      ∀ result, m.result? 0 = some result → ∃ got rest, result = .ok got ∧
        Shares pieces.flatten requests got rest ∧ (m.world.input 0).unread = rest := by
  refine solo_shares (fun _ hs => by cases hs) (fun rest ready hs => ?_) requests
  obtain ⟨rfl, rfl⟩ := Source.host.inj hs
  exact ⟨h, rfl⟩

/-! ### A pipe -/

/-- The host has nothing to do at a pipe, so all turns are events. -/
theorem Underway.events_of_busyTurns {capacity left n : Nat} {unsent : List UInt8}
    {m' : Machine (List String)} (h : Underway capacity text requests unsent left m)
    (ht : m.BusyTurns n m') : m.Events n m' := by
  induction ht with
  | none => exact .none
  | event _ hp ih => exact .next ih hp
  | host _ ha ih =>
    obtain ⟨unsent', left', h', -⟩ := h.events ih
    exact absurd h'.standing.lone.asked ha

theorem pipe_shares {capacity : Nat} (hcap : 1 ≤ capacity) (parcels : List Parcel)
    (requests : List Request) :
    ∃ bound, ∀ n m, (start capacity parcels requests).BusyTurns n m → n ≤ bound ∧
      (m.isQuiet = true → ∃ got, m.result? reader = some (.ok got)) ∧
      ∀ result, m.result? reader = some result → ∃ got rest, result = .ok got ∧
        Shares (Utf8.decode (bytesOf parcels)) requests got rest ∧
        ∃ unsent, Speaks m.world unsent (m.task writer).phase ∧ m.world.coming 0 unsent = rest := by
  have hstart := underway_start capacity parcels requests
  refine ⟨measure (bytesOf parcels) requests.length (start capacity parcels requests).world,
    fun n m ht => ?_⟩
  obtain ⟨unsent, left, h, hle⟩ := hstart.events (hstart.events_of_busyTurns ht)
  refine ⟨Nat.le_trans (Nat.le_add_right n _) hle, fun hquiet => ?_, fun result hr => ?_⟩
  · exact h.reader_ended hcap ((Queue.isEmpty_iff _).mp (Bool.and_eq_true_iff.mp hquiet).1)
  · rcases h.result?_reader with hn | ⟨got, hgot, hs⟩
    · rw [hr] at hn
      cases hn
    · exact ⟨got, _, Option.some.inj (hr.symm.trans hgot), hs, unsent, h.writes, rfl⟩

/-! ### Every origin -/

/-- **All requests are met** from what the ones before have left, wherever the text comes from and in whichever order
turns are taken. -/
theorem Origin.shares {origin : Origin} (ho : origin.Proper) (requests : List Request) :
    ∃ bound, ∀ n m, (origin.start requests).BusyTurns n m → n ≤ bound ∧
      (m.isQuiet = true → ∃ got, m.result? origin.reader = some (.ok got)) ∧
      ∀ result, m.result? origin.reader = some result → ∃ got rest, result = .ok got ∧
        Shares origin.content requests got rest ∧ origin.Leaves m rest := by
  cases origin with
  | text chars =>
    exact @solo_shares (.text chars.toList) (fun _ hs => by cases hs) (fun _ _ hs => by cases hs)
      requests
  | file size chars =>
    have hsize : 1 ≤ size := ho
    have hshares := host_shares (filled_chunksOf hsize chars.toList) requests
    rw [flatten_chunksOf hsize] at hshares
    exact hshares
  | pieces parts =>
    have hparts : [] ∉ parts := ho
    exact host_shares hparts requests
  | pipe capacity parcels =>
    have hcap : 1 ≤ capacity := ho
    exact pipe_shares hcap parcels requests

/-- So they are when a run has had enough turns. -/
theorem Origin.run_shares {origin : Origin} (ho : origin.Proper) (requests : List Request) :
    ∃ bound, ∀ turns, bound ≤ turns → ∃ got rest,
      ((origin.start requests).run turns).result? origin.reader = some (.ok got) ∧
        Shares origin.content requests got rest ∧
        origin.Leaves ((origin.start requests).run turns) rest := by
  obtain ⟨bound, hruns⟩ := origin.shares ho requests
  refine ⟨bound, fun turns ht => ?_⟩
  obtain ⟨n, hn, -⟩ := Machine.BusyTurns.none.run turns
  obtain ⟨-, hquiet, hresults⟩ := hruns n _ hn
  obtain ⟨result, hresult⟩ := hquiet (Machine.isQuiet_run (fun n m hm => (hruns n m hm).1) ht)
  obtain ⟨got, rest, heq, hs, hleaves⟩ := hresults _ hresult
  obtain rfl := Except.ok.inj heq
  exact ⟨result, rest, hresult, hs, hleaves⟩

/-- **Nothing is lost** when readers take turns at an input. Whatever they ask for, they have it after so many turns at
the latest; and what they have got, one after the other, followed by what is still to be read, is the text. Each of
them has got what its request takes off what was left to it: a line goes up to the next newline or is all of the
rest, and has come to the end if it is empty. -/
theorem nothing_is_lost {origin : Origin} (ho : origin.Proper) (requests : List Request) :
    ∃ bound,
      (∀ turns, bound ≤ turns → ∃ got,
        ((origin.start requests).run turns).result? origin.reader = some (.ok got)) ∧
      ∀ n m, (origin.start requests).BusyTurns n m → n ≤ bound ∧
        (m.isQuiet = true → ∃ got, m.result? origin.reader = some (.ok got)) ∧
        ∀ result, m.result? origin.reader = some result → ∃ got rest, result = .ok got ∧
          origin.Leaves m rest ∧ got.flatMap String.toList ++ rest = origin.content ∧
          Shares origin.content requests got rest := by
  obtain ⟨bound, hruns⟩ := origin.shares ho requests
  refine ⟨bound, fun turns ht => ?_, fun n m hturns => ?_⟩
  · obtain ⟨n, hn, -⟩ := Machine.BusyTurns.none (m := origin.start requests) |>.run turns
    exact (hruns n _ hn).2.1 (Machine.isQuiet_run (fun n m hm => (hruns n m hm).1) ht)
  · obtain ⟨hle, hquiet, hresults⟩ := hruns n m hturns
    refine ⟨hle, hquiet, fun result hr => ?_⟩
    obtain ⟨got, rest, rfl, hs, hleaves⟩ := hresults result hr
    exact ⟨got, rest, rfl, hleaves, hs.join, hs⟩

/-- A line and the rest of a file that is read two characters at a time. -/
theorem halvedFile_shared : (Origin.file 2 "a\nbc").Proper ∧ ∃ bound, ∀ turns, bound ≤ turns →
    (((Origin.file 2 "a\nbc").start [.line, .all]).run turns).result? 0 = some (.ok ["a\n", "bc"]) := by
  have hproper : (Origin.file 2 "a\nbc").Proper := by
    show 1 ≤ 2
    decide
  obtain ⟨bound, hended, hruns⟩ := nothing_is_lost hproper [.line, .all]
  refine ⟨hproper, bound, fun turns ht => ?_⟩
  obtain ⟨got, hgot⟩ := hended turns ht
  obtain ⟨n, hn, -⟩ := Machine.BusyTurns.none.run turns
  obtain ⟨got', rest, heq, -, -, hs⟩ := (hruns n _ hn).2.2 _ hgot
  obtain rfl := Except.ok.inj heq
  obtain ⟨before, back, rfl, hline, hall⟩ := @shares_concat _ _ [.line] _ _ hs
  obtain ⟨line, rfl, htext, hline⟩ := hline.of_singleton
  obtain rfl : [] = rest := (Prod.mk.inj hall).2
  have hsplit : splitLine "a\nbc".toList = (['a', '\n'], ['b', 'c']) := by decide
  obtain ⟨rfl, hback⟩ := Prod.mk.inj (hsplit.symm.trans ((congrArg splitLine htext).trans hline))
  rw [List.append_nil] at hback
  rw [← hback] at hgot
  exact hgot

end Delivery

end Shell
