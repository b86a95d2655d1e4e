/-
Writing to an output, and copying an input to it.

A copy is a loop inside one turn of a task, and its turns are numbered: the stock of the input,
a little more than what is at hand, limits them. If it ran out of turns while there was still
something to read, the task would have stopped without waiting for anything, and nothing
would ever wake it. `Copies.of_stock` says that this does not happen, as long as the copy does
not write into the pipe that it reads from.
-/
import Shell.Proofs.World.Reading

set_option autoImplicit false

namespace Shell.World

open Shell.Text

variable {w w₁ w' : World} {task index : Nat} {output : Output}

/-! ## 1. Writing

A write is done, refused, or waits for room with what is left of it. -/

/-- The ways a write can go. What is written to a pipe that is closed does not change it. -/
inductive Writes (w : World) (task : Nat) : Output → World × Sent → Prop where
  | all {output : Output} {w' : World} (hw : w.Works w') (hi : w'.inputs = w.inputs)
      (hc : ∀ c, (output = .pipe c → ¬ (w.channel c).pipe.IsOpen) → w'.channel c = w.channel c) :
      Writes w task output (w', .all)
  | refused {pipe : Nat} {abort : Abort} (hr : (w.channel pipe).pipe.refusal? = some abort) :
      Writes w task (.pipe pipe) (w, .refused abort)
  | waits {pipe : Nat} {w' : World} {rest : List UInt8} (hw : w.Works w')
      (ho : (w'.channel pipe).pipe.IsOpen) (hf : (w'.channel pipe).pipe.room = 0) :
      Writes w task (.pipe pipe) (w'.wait pipe task, .waiting rest)

/-- A pipe that could not take in everything has no room left. -/
theorem room_put {index : Nat} {bytes : List UInt8} (h : index < w.channels.size)
    (hd : bytes.drop (w.channel index).pipe.room ≠ []) :
    ((w.put index bytes).channel index).pipe.room = 0 := by
  have hl : (w.channel index).pipe.room < bytes.length :=
    Nat.lt_of_not_le fun hn => hd (List.drop_eq_nil_of_le hn)
  have hsize := (w.channel index).pipe.size_accept bytes
  rw [put, pipe_change_self _ h, Pipe.room, Pipe.capacity_accept, hsize]
  unfold Pipe.room at hl ⊢
  omega

/-- Sending is such a write to a pipe. -/
theorem writes_send (w : World) (task pipe : Nat) (bytes : List UInt8) :
    w.Writes task (.pipe pipe) (w.send task pipe bytes) := by
  have hs := w.sends task pipe bytes
  generalize w.send task pipe bytes = r at hs ⊢
  cases hs with
  | nothing => exact .all (.refl w) rfl fun _ _ => rfl
  | refused _ hr => exact .refused hr
  | full _ ho hf => exact .waits (.refl w) ho hf
  | whole _ ho _ _ =>
    -- The only pipe that changes is the one written to, and it was open.
    refine .all (works_put w pipe bytes) (inputs_change _) fun c hc => ?_
    refine channel_change_of_ne _ ?_
    rintro rfl
    exact hc rfl ho
  | part ho hr hd =>
    -- A number without a channel has no room.
    have hlt : pipe < w.channels.size := by
      refine Nat.lt_of_not_le fun hn => ?_
      rw [channel_of_size_le hn] at hr
      exact hr rfl
    have hw := works_put w pipe bytes
    exact .waits hw ((hw.isOpen_iff pipe).2 ho) (room_put hlt hd)

/-- So is writing text, whatever the output. -/
theorem writes_write (w : World) (task : Nat) (output : Output) (text : String) :
    w.Writes task output (w.write task output text) := by
  cases output with
  | sink index =>
    exact .all (works_aside w (Nat.le_refl _) (w.sinks.modify index fun texts => text :: texts)) rfl
      fun _ _ => rfl
  | pipe pipe => exact writes_send w task pipe _

/-! ## 2. Copying

A copy reads and writes in turn. What it still needs is bounded by the load of its input, since the output is apart
from it. -/

/-- An output that is not the pipe an input reads from, or that pipe when it is closed. -/
def Apart (w : World) (index : Nat) (output : Output) : Prop :=
  ∀ pipe, output = .pipe pipe → (w.input index).supply = .pipe pipe →
    ¬ (w.channel pipe).pipe.IsOpen

/-- Streams stay apart while tasks work. -/
theorem Apart.of_works (h : w.Apart index output) (hw : w.Works w') : w'.Apart index output := by
  intro pipe ho hs hopen
  rw [hw.supply index] at hs
  exact h pipe ho hs ((hw.isOpen_iff pipe).1 hopen)

/-- A write leaves the load of an input that is apart from it. -/
theorem Apart.load_eq (h : w.Apart index output) (hi : w'.inputs = w.inputs)
    (hc : ∀ c, (output = .pipe c → ¬ (w.channel c).pipe.IsOpen) → w'.channel c = w.channel c) :
    w'.load index = w.load index := by
  have hin : w'.input index = w.input index := by
    rw [World.input, hi]
    rfl
  rw [load, hin, load]
  exact hold_congr fun pipe hs => hc pipe fun ho => h pipe ho hs

/-- How many turns a copy needs at most to come to an end or to a wait. -/
def need (w : World) (index : Nat) (wanted : Wanted) : Nat :=
  w.load index + min 1 wanted.done.length + 1

/-- The ways a copy can go. -/
inductive Copies (w : World) (task index : Nat) (output : Output) (turns : Nat)
    (wanted : Wanted) : World × Copied → Prop where
  | all {w' : World} {number : Option Nat} (hw : w.Works w') :
      Copies w task index output turns wanted (w', .all number)
  | refused {w' : World} {abort : Abort} {pipe : Nat} (hw : w.Works w')
      (ho : output = .pipe pipe) (hr : (w'.channel pipe).pipe.refusal? = some abort) :
      Copies w task index output turns wanted (w', .refused abort)
  | reading {w' : World} {left : Wanted} {number : Option Nat}
      (hs : w.Supplies task index (w', none)) :
      Copies w task index output turns wanted (w', .reading left number)
  | writing {w' : World} {pipe : Nat} {rest : List UInt8} {number : Option Nat} (hw : w.Works w')
      (ho : output = .pipe pipe) (hopen : (w'.channel pipe).pipe.IsOpen)
      (hf : (w'.channel pipe).pipe.room = 0) :
      Copies w task index output turns wanted (w'.wait pipe task, .writing pipe rest number)
  /-- There were fewer turns than are needed. -/
  | short {w' : World} {left : Wanted} {number : Option Nat} (hw : w.Works w')
      (hn : w.Apart index output → turns < w.need index wanted) :
      Copies w task index output turns wanted (w', .reading left number)

/-- A copy goes on after a text has been read and written. -/
theorem Copies.prepend {turns : Nat} {wanted : Wanted} {r : World × Copied} (hw : w.Works w₁)
    (hn : w.Apart index output →
      w₁.Apart index output ∧ w₁.need index ⟨wanted.request, false, []⟩ < w.need index wanted)
    (h : w₁.Copies task index output turns ⟨wanted.request, false, []⟩ r) :
    w.Copies task index output (turns + 1) wanted r := by
  cases h with
  | all hw' => exact .all (hw.trans hw')
  | refused hw' ho hr => exact .refused (hw.trans hw') ho hr
  | reading hs => exact .reading (hs.after hw)
  | writing hw' ho hopen hf => exact .writing (hw.trans hw') ho hopen hf
  | short hw' hlt =>
    refine .short (hw.trans hw') fun ha => ?_
    obtain ⟨ha₁, hneed⟩ := hn ha
    have := hlt ha₁
    omega

/-- A text that is not empty has been taken from the load, or had been read before. -/
theorem need_lt {wanted : Wanted} {text : List Char}
    (hs : w.Supplies task index (w₁, some text))
    (hne : wanted.before.reverse.flatten ++ text ≠ []) :
    w₁.need index ⟨wanted.request, false, []⟩ < w.need index wanted := by
  have hl := hs.load
  have hpos : 0 < text.length + wanted.done.length := by
    refine Nat.pos_of_ne_zero fun h0 => hne ?_
    have ht : text = [] := List.eq_nil_of_length_eq_zero (by omega)
    have hd : wanted.done = [] := List.eq_nil_of_length_eq_zero (by omega)
    -- What has been read before is part of what is done, for every request.
    have hb : wanted.before = [] := by
      unfold Wanted.before
      cases wanted.request <;> simp [hd]
    rw [hb, ht]
    rfl
  simp only [need, List.length_nil]
  omega

/-- What a copy does with a text that it has read, whether it has numbered it or not. -/
theorem copies_written (output : Output) (turns : Nat) (wanted : Wanted) {text : List Char}
    (hs : w.Supplies task index (w₁, some text))
    (hne : wanted.before.reverse.flatten ++ text ≠ []) (number : Option Nat) (line : String) :
    (∀ w₂ : World, w₂.Copies task index output turns ⟨wanted.request, false, []⟩
      (w₂.copy task index output turns ⟨wanted.request, false, []⟩ number)) →
    w.Copies task index output (turns + 1) wanted
      (match w₁.write task output line with
      | (w, .all) => w.copy task index output turns ⟨wanted.request, false, []⟩ number
      | (w, .refused abort) => (w, .refused abort)
      | (w, .waiting rest) =>
        match output with
        | .pipe pipe => (w, .writing pipe rest number)
        | .sink _ => (w, .all number)) := by
  intro hcopy
  have hwr := w₁.writes_write task output line
  generalize w₁.write task output line = sent at hwr ⊢
  cases hwr with
  | @all _ w₂ hw hi hc =>
    refine Copies.prepend (hs.works.trans hw) (fun ha => ?_) (hcopy w₂)
    -- The write goes elsewhere, so what was taken from the load stays away.
    have ha₁ := ha.of_works hs.works
    refine ⟨ha₁.of_works hw, ?_⟩
    have hlt := need_lt hs hne
    simp only [need, ha₁.load_eq hi hc] at hlt ⊢
    exact hlt
  | refused hr => exact .refused hs.works rfl hr
  | waits hw ho hf => exact .writing (hs.works.trans hw) rfl ho hf

/-- A copy ends in one of these ways, by induction on its turns. -/
theorem copies (w : World) (task index : Nat) (output : Output) (turns : Nat) (wanted : Wanted)
    (number : Option Nat) :
    w.Copies task index output turns wanted (w.copy task index output turns wanted number) := by
  induction turns generalizing w wanted number with
  -- Without a turn the copy is short, since it needs at least one.
  | zero => exact .short (.refl w) fun _ => Nat.succ_pos _
  | succ turns ih =>
    have hm := w.meets_read task index wanted
    rcases hr : w.read task index wanted with ⟨w₁, got⟩
    rw [hr] at hm
    unfold copy
    simp only [hr]
    cases hm with
    | waiting hs => exact .reading hs
    | @text _ text hs =>
      have hwritten := copies_written output turns wanted hs
      generalize wanted.before.reverse.flatten ++ text = whole at hwritten ⊢
      cases whole with
      -- An empty text is the end of the input.
      | nil => exact .all hs.works
      | cons c rest =>
        have hne := List.cons_ne_nil c rest
        cases number with
        | none => exact hwritten hne none _ fun w₂ => ih w₂ _ _
        | some n => exact hwritten hne (some (n + 1)) _ fun w₂ => ih w₂ _ _

/-- **A copy stops only at the end, at a closed pipe or to wait**, if it has as many turns as the
stock says. -/
theorem Copies.of_stock {wanted left : Wanted} {number : Option Nat}
    (ha : w.Apart index output)
    (h : w.Copies task index output (w.stock index) wanted (w', .reading left number)) :
    w.Supplies task index (w', none) := by
  cases h with
  | reading hs => exact hs
  | short _ hn =>
    -- The stock exceeds the need, so there were enough turns.
    have hlt := hn ha
    have hle := w.load_le_stock index
    unfold need at hlt
    omega

end Shell.World
