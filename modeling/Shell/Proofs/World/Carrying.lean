/-
What a task carries from its input to its output.

Data goes one way through a task: out of the pipe that it reads from, through its input, and out of its
hands into the pipe that it writes to. So whatever a task does with data and then waits, less is left at one
of the first places than before, or nothing has happened at all (`World.Carries`). How much is put into the
last place does not matter, and it may be more than has been taken away: a character has several bytes, and a
line may be numbered.

A copy is the one operation that goes on for as long as there is data, and it is what this is for
(`goes_of_reading`, `goes_of_writing`).
-/
import Mathlib.Data.Prod.Lex
import Shell.Proofs.World.Shedding

set_option autoImplicit false

namespace Shell

open Shell.Text

namespace World

variable {w w₁ w' : World} {task index : Nat} {output : Output}

/-! ## 1. Data before a task

What a task has before it is what its pipe holds, and then what its input keeps of that. -/

/-- The bytes in the pipe that an input reads from. -/
def ahead (w : World) (index : Nat) : Nat :=
  match (w.input index).supply with
  | .pipe pipe => (w.channel pipe).pipe.buffer.size
  | .text | .host => 0

/-- What a task has still to read: the bytes in its pipe, and then what its input keeps. -/
def burden (w : World) (index : Nat) : ℕ ×ₗ ℕ := toLex (w.ahead index, (w.input index).kept)

/-- What is ahead of a reader is what its pipe holds. -/
theorem ahead_of_pipe {pipe : Nat} (h : (w.input index).supply = .pipe pipe) :
    w.ahead index = (w.channel pipe).pipe.buffer.size := by
  rw [ahead, h]

/-- Burdens are compared by what is ahead first, and then by what is kept. -/
theorem burden_lt_iff : w'.burden index < w.burden index ↔ w'.ahead index < w.ahead index ∨
    w'.ahead index = w.ahead index ∧ (w'.input index).kept < (w.input index).kept :=
  Prod.Lex.toLex_lt_toLex

/-- What is ahead depends on the pipe that is read from, and on nothing else. -/
theorem ahead_congr (hs : (w'.input index).supply = (w.input index).supply)
    (hp : ∀ c, (w.input index).supply = .pipe c → (w'.channel c).pipe = (w.channel c).pipe) :
    w'.ahead index = w.ahead index := by
  unfold ahead
  rw [hs]
  cases h : (w.input index).supply with
  | text | host => rfl
  | pipe pipe => exact congrArg (·.buffer.size) (hp pipe h)

/-- A reading has taken something away, or the pipes are as they were. -/
theorem Sheds.burden_lt_or {n : Nat} (h : w.Sheds index n w') : w'.burden index < w.burden index ∨
    (∀ c, (w'.channel c).pipe = (w.channel c).pipe) ∧ w'.ahead index = w.ahead index ∧
      (w'.input index).kept + n ≤ (w.input index).kept := by
  rcases h.sheds with ⟨hp, hk, -⟩ | ⟨c, hc, hlt⟩
  · exact .inr ⟨hp, ahead_congr (h.alike.supply index) fun c _ => hp c, hk⟩
  · refine .inl (burden_lt_iff.mpr (.inl ?_))
    rwa [ahead_of_pipe hc, ahead_of_pipe ((h.alike.supply index).trans hc)]

/-- A reading that has come to text has taken something away. -/
theorem Sheds.burden_lt {n : Nat} (h : w.Sheds index n w') (hn : 0 < n) :
    w'.burden index < w.burden index := by
  rcases h.burden_lt_or with hlt | ⟨-, ha, hk⟩
  · exact hlt
  · exact burden_lt_iff.mpr (.inr ⟨ha, by omega⟩)

/-! ## 2. Writing

A write changes its own output only, so what is before a task that does not read from there stays as it is. -/

/-- Nothing has changed but one output. -/
structure Fills (w : World) (output : Output) (w' : World) : Prop where
  alike : w.Alike w'
  inputs : w'.inputs = w.inputs
  pipe : ∀ c, output ≠ .pipe c → (w'.channel c).pipe = (w.channel c).pipe

/-- Putting bytes into a pipe changes that pipe. -/
theorem fills_put (w : World) (pipe : Nat) (bytes : List UInt8) : w.Fills (.pipe pipe) (w.put pipe bytes) where
  alike := (works_put w pipe bytes).toAlike
  inputs := inputs_change _
  pipe _ hc := congrArg Channel.pipe (channel_change_of_ne _ fun he => hc (congrArg Output.pipe he.symm))

/-- Where nothing is written, nothing has changed. -/
theorem Fills.refl (w : World) (output : Output) : w.Fills output w :=
  ⟨(Works.refl w).toAlike, rfl, fun _ _ => rfl⟩

/-- Waiting changes no pipe. -/
theorem Fills.wait (h : w.Fills output w') (pipe task : Nat) : w.Fills output (w'.wait pipe task) where
  alike := h.alike.trans (w'.alike_wait pipe task)
  inputs := h.inputs
  pipe c hc := (pipe_wait w' pipe task c).trans (h.pipe c hc)

/-- Sending changes the pipe that is sent to. -/
theorem fills_send (w : World) (task pipe : Nat) (bytes : List UInt8) :
    w.Fills (.pipe pipe) (w.send task pipe bytes).1 := by
  have hs := w.sends task pipe bytes
  generalize w.send task pipe bytes = r at hs ⊢
  cases hs with
  | nothing | refused => exact .refl w _
  | full => exact (Fills.refl w _).wait pipe task
  | whole => exact w.fills_put pipe bytes
  | part => exact (w.fills_put pipe bytes).wait pipe task

/-- A write changes its own output. -/
theorem fills_write (w : World) (task : Nat) (output : Output) (text : String) :
    w.Fills output (w.write task output text).1 := by
  cases output with
  | sink index =>
    have hworks := works_aside w (Nat.le_refl _) (w.sinks.modify index fun texts => text :: texts)
    exact ⟨hworks.toAlike, rfl, fun _ _ => rfl⟩
  | pipe pipe => exact w.fills_send task pipe _

/-- An output that is not the pipe of an input. -/
def Clear (w : World) (index : Nat) (output : Output) : Prop :=
  ∀ pipe, output = .pipe pipe → (w.input index).supply ≠ .pipe pipe

/-- Streams that are clear of each other are apart: no write is a write into the pipe that is read from. -/
theorem Clear.apart (h : w.Clear index output) : w.Apart index output :=
  fun pipe ho hs => absurd hs (h pipe ho)

/-- They stay clear as long as no supply changes. -/
theorem Clear.of_alike (h : w.Clear index output) (hw : w.Alike w') : w'.Clear index output := by
  intro pipe ho
  rw [hw.supply]
  exact h pipe ho

/-- A write leaves what there is to read. -/
theorem Fills.burden_eq (h : w.Fills output w') (hc : w.Clear index output) :
    w'.burden index = w.burden index := by
  have hinput : w'.input index = w.input index := congrArg (·.getD index default) h.inputs
  have hahead : w'.ahead index = w.ahead index := by
    refine ahead_congr (h.alike.supply index) fun c hs => h.pipe c fun ho => hc c ho hs
  rw [burden, hahead, hinput, burden]

/-! ## 3. What a task carries

Between its turns a task that copies may hold what it has read. This counts as well, or a turn that only writes
would have made nothing less. -/

/-- A task that holds back so many bytes has carried data on, or nothing has happened. -/
inductive Goes (w : World) (index : Nat) (w' : World) : (held held' : Nat) → Prop where
  | reads {held held' : Nat} (h : w'.burden index < w.burden index) : Goes w index w' held held'
  | writes {held held' : Nat} (h : w'.burden index = w.burden index) (hlt : held' < held) :
      Goes w index w' held held'
  | still {held : Nat} (hp : ∀ c, (w'.channel c).pipe = (w.channel c).pipe)
      (hb : w'.burden index = w.burden index) (hq : w'.queue.toList = w.queue.toList) :
      Goes w index w' held held

/-- Nothing has changed but the input and the output of a task. -/
structure Touches (w : World) (index : Nat) (output : Output) (w' : World) : Prop where
  alike : w.Alike w'
  input : ∀ i ≠ index, w'.input i = w.input i
  pipe : ∀ c, (w.input index).supply ≠ .pipe c → output ≠ .pipe c →
    (w'.channel c).pipe = (w.channel c).pipe

/-- Two streams are touched by one thing after the other. -/
theorem Touches.trans (h : w.Touches index output w₁) (h' : w₁.Touches index output w') :
    w.Touches index output w' where
  alike := h.alike.trans h'.alike
  input i hi := (h'.input i hi).trans (h.input i hi)
  pipe c hs ho := (h'.pipe c (by rwa [h.alike.supply]) ho).trans (h.pipe c hs ho)

/-- A reading touches its input, and so no more than that and any output. -/
theorem Sheds.touches {n : Nat} (h : w.Sheds index n w') (output : Output) : w.Touches index output w' :=
  ⟨h.alike, h.input, fun c hs _ => h.pipe c hs⟩

/-- A write touches its output, and so no more than that and any input. -/
theorem Fills.touches (h : w.Fills output w') (index : Nat) : w.Touches index output w' :=
  ⟨h.alike, fun i _ => congrArg (·.getD i default) h.inputs, fun c _ ho => h.pipe c ho⟩

/-- What a task has carried. -/
structure Carries (w : World) (index : Nat) (output : Output) (held held' : Nat) (w' : World) : Prop
    extends Touches w index output w' where
  goes : w.Goes index w' held held'

/-- A task that has read and then waits for more. -/
theorem Sheds.carries {pipe held : Nat} (h : w.Sheds index 0 w') (hs : (w'.input index).supply = .pipe pipe)
    (he : (w'.channel pipe).pipe.isWaiting = true) (output : Output) : w.Carries index output held held w' := by
  refine ⟨h.touches output, ?_⟩
  rcases h.of_waits hs he with ⟨hp, hk, hq⟩ | hlt
  · have hahead := ahead_congr (h.alike.supply index) fun c _ => hp c
    rcases Nat.lt_or_eq_of_le hk with hlt | heq
    · exact .reads (burden_lt_iff.mpr (.inr ⟨hahead, by omega⟩))
    · have hkept : (w'.input index).kept = (w.input index).kept := heq
      exact .still hp (by rw [burden, hahead, hkept, burden]) hq
  · refine .reads (burden_lt_iff.mpr (.inl ?_))
    rwa [ahead_of_pipe hs, ahead_of_pipe ((h.alike.supply index).symm.trans hs)]

/-- A task that has to wait for bytes has carried on what it has read. -/
theorem carries_of_waits {held : Nat} (hh : (w.input index).supply ≠ .host) (h : w.Sheds index 0 w')
    (hs : w.Supplies task index (w', none)) (output : Output) : w.Carries index output held held w' := by
  cases hs with
  | waits _ hs he => exact h.carries hs (by rwa [pipe_wait]) output
  | host _ hs _ => exact absurd hs hh

/-! ## 4. Copying -/

/-- One turn of a copy, with a text that has been read. -/
theorem copy_of_text (output : Output) (turns : Nat) (number : Option Nat) {wanted : Wanted}
    {text : List Char} (h : w.read task index wanted = (w₁, .text text)) (hne : text ≠ []) :
    ∃ line last, w.copy task index output (turns + 1) wanted number =
      match w₁.write task output line with
      | (w, .all) => w.copy task index output turns ⟨wanted.request, false, []⟩ last
      | (w, .refused abort) => (w, .refused abort)
      | (w, .waiting rest) =>
        match output with
        | .pipe pipe => (w, .writing pipe rest last)
        | .sink _ => (w, .all last) := by
  cases text with
  | nil => exact absurd rfl hne
  | cons c text =>
    have hcopy (number : Option Nat) := copy.eq_2 w task index output wanted number turns
    generalize w.read task index wanted = r at h hcopy
    subst h
    cases number with
    | none => exact ⟨String.ofList (c :: text), none, hcopy none⟩
    | some n => exact ⟨Text.numberedLine (n + 1) (String.ofList (c :: text)), some (n + 1), hcopy (some n)⟩

/-- How far a copy of pieces or lines has come when it stops: it has read something, or was stopped by the
first reading. -/
theorem copy_touches {turns : Nat} {wanted : Wanted} {number : Option Nat} {copied : Copied}
    (hh : (w.input index).supply ≠ .host) (hc : w.Clear index output) (hw : wanted.request.IsSingle)
    (h : w.copy task index output turns wanted number = (w', copied))
    (hstop : ∀ last abort, copied ≠ .all last ∧ copied ≠ .refused abort) :
    w.Touches index output w' ∧ w'.burden index < w.burden index ∨
      w.Sheds index 0 w' ∧ ∃ left last, copied = .reading left last := by
  induction turns generalizing w wanted number with
  | zero =>
    obtain ⟨rfl, rfl⟩ := Prod.mk.inj h
    exact .inr ⟨.refl w index, _, _, rfl⟩
  | succ turns ih =>
    rcases hr : w.read task index wanted with ⟨w₁, (- | ⟨c, text⟩) | left⟩
    · rw [copy, hr] at h
      obtain ⟨-, rfl⟩ := Prod.mk.inj h
      exact absurd rfl (hstop _ .cancelled).1
    · have hsheds := sheds_of_text hh hw hr
      have hlt : w₁.burden index < w.burden index := hsheds.burden_lt (Nat.succ_pos _)
      obtain ⟨line, last, hcopy⟩ := copy_of_text output turns number hr (List.cons_ne_nil c text)
      rw [hcopy] at h
      have hfills := w₁.fills_write task output line
      rcases hwrite : w₁.write task output line with ⟨w₂, _ | abort | rest⟩ <;> rw [hwrite] at h hfills
      all_goals
        have htouches := (hsheds.touches output).trans (hfills.touches index)
        have hburden := hfills.burden_eq (hc.of_alike hsheds.alike)
      -- The copy goes on with less to read.
      · have hrest : w₂.copy task index output turns ⟨wanted.request, false, []⟩ last = (w', copied) := h
        rcases ih (by rwa [htouches.alike.supply]) (hc.of_alike htouches.alike) (by exact hw) hrest with
          ⟨ht, hless⟩ | ⟨hs, -⟩
        · exact .inl ⟨htouches.trans ht, by rw [hburden] at hless; exact hless.trans hlt⟩
        · have hle : w'.burden index ≤ w₂.burden index := by
            rcases hs.burden_lt_or with hless | ⟨-, ha, hk⟩
            · exact hless.le
            · exact Prod.Lex.toLex_mono ⟨ha.le, hk⟩
          rw [hburden] at hle
          exact .inl ⟨htouches.trans (hs.touches output), hle.trans_lt hlt⟩
      · obtain ⟨-, rfl⟩ := Prod.mk.inj h
        exact absurd rfl (hstop none abort).2
      · cases output with
        | sink index =>
          obtain ⟨-, rfl⟩ := Prod.mk.inj h
          exact absurd rfl (hstop _ .cancelled).1
        | pipe pipe =>
          obtain ⟨rfl, -⟩ := Prod.mk.inj h
          exact .inl ⟨htouches, by rwa [hburden]⟩
    · rw [copy, hr] at h
      obtain ⟨rfl, rfl⟩ := Prod.mk.inj h
      exact .inr ⟨sheds_of_waiting hh hr, _, _, rfl⟩

/-- **A copy that waits has carried data on**, or nothing has happened. -/
theorem carries_of_reading {turns held : Nat} {wanted left : Wanted} {number last : Option Nat}
    (hh : (w.input index).supply ≠ .host) (hc : w.Clear index output) (hw : wanted.request.IsSingle)
    (h : w.copy task index output turns wanted number = (w', .reading left last))
    (hs : w.Supplies task index (w', none)) : w.Carries index output held held w' := by
  rcases copy_touches hh hc hw h (fun _ _ => ⟨nofun, nofun⟩) with ⟨ht, hlt⟩ | ⟨hsheds, -⟩
  · exact ⟨ht, .reads hlt⟩
  · exact carries_of_waits hh hsheds hs output

/-- A copy that waits for room carries what it has read and not written. -/
theorem carries_of_writing {turns pipe held held' : Nat} {wanted : Wanted} {number last : Option Nat}
    {rest : List UInt8} (hh : (w.input index).supply ≠ .host) (hc : w.Clear index output)
    (hw : wanted.request.IsSingle)
    (h : w.copy task index output turns wanted number = (w', .writing pipe rest last)) :
    w.Carries index output held held' w' := by
  rcases copy_touches hh hc hw h (fun _ _ => ⟨nofun, nofun⟩) with ⟨ht, hlt⟩ | ⟨-, left, last, hcopied⟩
  · exact ⟨ht, .reads hlt⟩
  · cases hcopied

end World

end Shell
