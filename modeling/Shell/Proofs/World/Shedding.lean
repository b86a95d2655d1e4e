/-
What a reading takes out of the world.

A reader takes bytes out of a pipe and keeps what they make in its input until somebody wants it. So a
reading takes something away in any case: there are fewer bytes in the pipe, or the input keeps less by as
much as has been read (`World.Sheds`). If neither is so, nothing has happened at all, and nobody has been woken.

That is the reason why a task cannot be woken again and again without anything going on. The one thing to
check is the end of a pipe, where those who wait for the pipe are woken by a reading that finds nothing; but
such a reading does not wait.
-/
import Shell.Proofs.World.Copying

set_option autoImplicit false

namespace Shell

open Shell.Text

/-- The text that an input has taken from its source, or has from the start, and what its decoder holds. -/
def Input.kept (input : Input) : Nat :=
  input.pendingText.length +
    match input.source with
    | .text rest => rest.length
    | .host _ ready => (ready.getD []).length
    | .pipe _ decoder _ => (Utf8.finish decoder).length

/-- A request for one piece or one line of text. -/
def Request.IsSingle (request : Request) : Prop := request = .piece ∨ request = .line

namespace World

/-- Nothing has changed but at one input and at its pipe. There are fewer bytes in the pipe, or the
pipe is as it was and the input keeps less by `n` characters. -/
structure Sheds (w : World) (index n : Nat) (w' : World) : Prop where
  alike : w.Alike w'
  input : ∀ i ≠ index, w'.input i = w.input i
  pipe : ∀ c, (w.input index).supply ≠ .pipe c → (w'.channel c).pipe = (w.channel c).pipe
  sheds : ((∀ c, (w'.channel c).pipe = (w.channel c).pipe) ∧
      (w'.input index).kept + n ≤ (w.input index).kept ∧
      (w'.queue.toList = w.queue.toList ∨
        ∃ c, (w.input index).supply = .pipe c ∧ ¬ (w.channel c).pipe.IsOpen)) ∨
    ∃ c, (w.input index).supply = .pipe c ∧
      (w'.channel c).pipe.buffer.size < (w.channel c).pipe.buffer.size

variable {w w₁ w' : World} {task index pipe n n' : Nat}

/-- Nothing is shed by doing nothing. -/
theorem Sheds.refl (w : World) (index : Nat) : w.Sheds index 0 w where
  alike := (Works.refl w).toAlike
  input _ _ := rfl
  pipe _ _ := rfl
  sheds := .inl ⟨fun _ => rfl, Nat.le_refl _, .inl rfl⟩

/-- What is shed one after the other is shed in all. -/
theorem Sheds.trans (h : w.Sheds index n w₁) (h' : w₁.Sheds index n' w') : w.Sheds index (n + n') w' where
  alike := h.alike.trans h'.alike
  input i hi := (h'.input i hi).trans (h.input i hi)
  pipe c hc := (h'.pipe c (by rwa [h.alike.supply])).trans (h.pipe c hc)
  sheds := by
    have hs := h.alike.supply index
    rcases h.sheds with ⟨hp, hk, hq⟩ | ⟨c, hc, hlt⟩
    · rcases h'.sheds with ⟨hp', hk', hq'⟩ | ⟨c, hc, hlt⟩
      · refine .inl ⟨fun c => (hp' c).trans (hp c), by omega, ?_⟩
        rcases hq with hq | hq
        · rcases hq' with hq' | ⟨c, hc, hopen⟩
          · exact .inl (hq'.trans hq)
          · rw [hs] at hc
            rw [hp c] at hopen
            exact .inr ⟨c, hc, hopen⟩
        · exact .inr hq
      · rw [hs] at hc
        rw [hp c] at hlt
        exact .inr ⟨c, hc, hlt⟩
    · rcases h'.sheds with ⟨hp', -, -⟩ | ⟨c', hc', hlt'⟩
      · exact .inr ⟨c, hc, by rwa [hp' c]⟩
      · rw [hs, hc] at hc'
        obtain rfl := Supply.pipe.inj hc'
        exact .inr ⟨c, hc, Nat.lt_trans hlt' hlt⟩

/-- To have shed `n` characters is to have shed fewer as well. -/
theorem Sheds.mono (h : w.Sheds index n w') (hn : n' ≤ n) : w.Sheds index n' w' :=
  { h with
    sheds := h.sheds.imp_left fun ⟨hp, hk, hq⟩ => ⟨hp, by omega, hq⟩ }

/-- A reading that comes to a wait has woken nobody, or there are fewer bytes in the pipe. -/
theorem Sheds.of_waits (h : w.Sheds index n w') (hs : (w'.input index).supply = .pipe pipe)
    (he : (w'.channel pipe).pipe.isWaiting = true) :
    ((∀ c, (w'.channel c).pipe = (w.channel c).pipe) ∧
      (w'.input index).kept + n ≤ (w.input index).kept ∧ w'.queue.toList = w.queue.toList) ∨
    (w'.channel pipe).pipe.buffer.size < (w.channel pipe).pipe.buffer.size := by
  have hsupply := (h.alike.supply index).symm.trans hs
  rcases h.sheds with ⟨hp, hk, hq | ⟨c, hc, hopen⟩⟩ | ⟨c, hc, hlt⟩
  · exact .inl ⟨hp, hk, hq⟩
  · obtain rfl := Supply.pipe.inj (hc.symm.trans hsupply)
    rw [hp c] at he
    exact absurd ((Pipe.isWaiting_iff _).1 he).2 hopen
  · obtain rfl := Supply.pipe.inj (hc.symm.trans hsupply)
    exact .inr hlt

/-! ## 1. Steps of a reading

Each step takes characters off what an input keeps, or makes the pipe hold less. -/

/-- Somebody waits for a pipe. -/
theorem Sheds.wait (h : w.Sheds index n w') (pipe task : Nat) : w.Sheds index n (w'.wait pipe task) where
  alike := h.alike.trans (w'.alike_wait pipe task)
  input := h.input
  pipe c hc := (pipe_wait w' pipe task c).trans (h.pipe c hc)
  sheds := by
    simp only [pipe_wait]
    exact h.sheds

/-- An input that does not exist keeps nothing. -/
theorem kept_setInput_le (w : World) (index : Nat) (input : Input) :
    ((w.setInput index input).input index).kept ≤ input.kept := by
  rcases Nat.lt_or_ge index w.inputs.size with h | h
  · exact Nat.le_of_eq (congrArg Input.kept (input_setInput_self input h))
  · rw [setInput_of_size_le input h, input_of_size_le h]
    exact Nat.zero_le _

/-- What has been read may be kept again, or a part of it. -/
theorem Sheds.setInput (h : w.Sheds index n w₁) {input : Input}
    (hs : input.supply = (w₁.input index).supply)
    (hk : input.kept + n' ≤ (w₁.input index).kept + n) : w.Sheds index n' (w₁.setInput index input) where
  alike := h.alike.trans (works_setInput w₁ hs).toAlike
  input i hi := (input_setInput_of_ne input hi).trans (h.input i hi)
  pipe := h.pipe
  sheds := by
    have hle := w₁.kept_setInput_le index input
    rcases h.sheds with ⟨hp, hkept, hq⟩ | hlt
    · exact .inl ⟨hp, by omega, hq⟩
    · exact .inr hlt

/-- Less is pending. -/
theorem sheds_pending {input : Input} (hs : input.source = (w.input index).source)
    (hp : input.pendingText.length + n ≤ (w.input index).pendingText.length) :
    w.Sheds index n (w.setInput index input) := by
  refine (Sheds.refl w index).setInput (Input.supply_eq_of_source hs) ?_
  unfold Input.kept
  rw [hs]
  omega

/-- To take everything out of an empty pipe changes nothing. -/
theorem take_none_of_empty (h : (w.channel pipe).pipe.buffer.size = 0) (c : Nat) :
    ((w.take pipe none).channel c).pipe = (w.channel c).pipe := by
  have hbuffer : (w.channel pipe).pipe.buffer = #[] := Array.eq_empty_of_size_eq_zero h
  by_cases hc : c = pipe
  · subst hc
    rcases Nat.lt_or_ge c w.channels.size with hlt | hge
    · rw [take, pipe_change_self _ hlt, Pipe.deliver, ← hbuffer]
    · rw [take, change_of_size_le _ hge]
  · rw [take, channel_change_of_ne _ hc]

/-- Bytes have come out of the pipe of an input. What the input makes of them does not matter. -/
theorem Receives.sheds {bytes : List UInt8} (h : w.Receives task pipe none (w₁, some bytes)) (hb : bytes ≠ [])
    (hs : (w.input index).supply = .pipe pipe) (input : Input) (hi : input.supply = .pipe pipe) (n : Nat) :
    w.Sheds index n (w₁.setInput index input) := by
  obtain ⟨hw, hin, hsize⟩ := h.of_some
  have hlength := List.length_pos_iff.mpr hb
  have hinput (i : Nat) : w₁.input i = w.input i := by
    rw [World.input, hin]
    rfl
  refine ⟨(hw.trans (works_setInput w₁ ?_)).toAlike, fun i hne => ?_, fun c hc => ?_, .inr ⟨pipe, hs, ?_⟩⟩
  · rw [hi, hinput, hs]
  · rw [input_setInput_of_ne input hne, hinput]
  · have hne : c ≠ pipe := fun he => hc (by rw [hs, he])
    cases h with
    | closed _ => rfl
    | taken _ _ => exact congrArg Channel.pipe (channel_change_of_ne _ hne)
  · show (w₁.channel pipe).pipe.buffer.size < _
    omega

/-- The pipe of an input has come to its end, and the input keeps nothing in its decoder. -/
theorem Receives.sheds_end {decoder : Utf8.Decoder} {ended : Bool}
    (h : w.Receives task pipe none (w₁, some []))
    (hs : (w.input index).source = .pipe pipe decoder ended) :
    w.Sheds index (Utf8.finish decoder).length
      (w₁.setInput index ⟨(w₁.input index).pending, .pipe pipe .between true⟩) := by
  obtain ⟨hw, hin, -⟩ := h.of_some
  have hsupply : (w.input index).supply = .pipe pipe := by rw [Input.supply, hs]
  have hinput (i : Nat) : w₁.input i = w.input i := by
    rw [World.input, hin]
    rfl
  -- At the end nothing is taken out, so the pipe is as it was. It has been closed, or its reader would wait.
  have hpipes : (∀ c, (w₁.channel c).pipe = (w.channel c).pipe) ∧
      (w₁.queue.toList = w.queue.toList ∨ ¬ (w.channel pipe).pipe.IsOpen) := by
    generalize hgot : some ([] : List UInt8) = got at h
    cases h with
    | empty _ => cases hgot
    | closed _ => exact ⟨fun _ => rfl, .inl rfl⟩
    | taken hwait hread =>
      have hempty : (w.channel pipe).pipe.buffer.size = 0 := by
        have hdeliver : [] = (w.channel pipe).pipe.buffer.toList := Option.some.inj hgot
        rw [← Array.length_toList, ← hdeliver]
        rfl
      refine ⟨fun c => take_none_of_empty hempty c, .inr fun hopen => ?_⟩
      have := (Pipe.isWaiting_iff (w.channel pipe).pipe).2
        ⟨by simp [Pipe.IsEmpty, Array.eq_empty_of_size_eq_zero hempty], hopen⟩
      rw [this] at hwait
      cases hwait
  refine ⟨(hw.trans (works_setInput w₁ ?_)).toAlike, fun i hne => ?_, fun c _ => hpipes.1 c,
    .inl ⟨hpipes.1, ?_, hpipes.2.imp_right fun hopen => ⟨pipe, hsupply, hopen⟩⟩⟩
  · rw [hinput, hsupply]
    rfl
  · rw [input_setInput_of_ne _ hne, hinput]
  · have hle := w₁.kept_setInput_le index ⟨(w₁.input index).pending, .pipe pipe .between true⟩
    -- What the decoder still had is what is shed.
    have hkept : (w.input index).kept = (w.input index).pendingText.length + (Utf8.finish decoder).length := by
      rw [Input.kept, hs]
    have hnew : (⟨(w₁.input index).pending, .pipe pipe .between true⟩ : Input).kept =
        (w.input index).pendingText.length := by
      rw [hinput]
      exact Nat.add_zero _
    omega

/-! ## 2. Readings

A reading that comes to a text has made the pipe or the input hold less, and one that waits has not added to them. -/

/-- A reading that comes to text takes as much away. -/
abbrev ShedsBy (w : World) (index : Nat) (r : World × Option (List Char)) : Prop :=
  w.Sheds index (r.2.elim 0 List.length) r.1

/-- A reading may begin with steps that keep no more than before. -/
theorem ShedsBy.prepend {r : World × Option (List Char)} (h : w.Sheds index 0 w₁)
    (h' : w₁.ShedsBy index r) : w.ShedsBy index r :=
  (h.trans h').mono (Nat.le_of_eq (Nat.zero_add _).symm)

/-- Pulling text out of a pipe sheds what it comes to. -/
theorem sheds_pull {decoder : Utf8.Decoder} {ended : Bool}
    (hs : (w.input index).source = .pipe pipe decoder ended) (tries : Nat) :
    w.ShedsBy index (w.pull task index pipe tries decoder) := by
  induction tries generalizing w decoder ended with
  | zero => exact .refl w index
  | succ tries ih =>
    have hrec := w.receives task pipe none
    rcases hr : w.receive task pipe none with ⟨w₁, got⟩
    rw [hr] at hrec
    have hsupply : (w.input index).supply = .pipe pipe := by rw [Input.supply, hs]
    cases got with
    | none =>
      simp only [pull, hr, hrec.of_none.2]
      exact (Sheds.refl w index).wait pipe task
    | some bytes =>
      cases bytes with
      | nil =>
        simp only [pull, hr]
        exact hrec.sheds_end hs
      | cons b bytes =>
        simp only [pull, hr]
        generalize Utf8.pushAll decoder (b :: bytes) [] = decoded
        obtain ⟨text, decoder'⟩ := decoded
        have hsheds := fun n => hrec.sheds (List.cons_ne_nil b bytes) hsupply
          ⟨(w₁.input index).pending, .pipe pipe decoder' false⟩ rfl n
        -- Bytes that make no text yet are left to the decoder, and the pipe is asked again.
        by_cases ht : text.isEmpty = true
        · rw [if_pos ht]
          have hlt : index < w₁.inputs.size := by
            refine Nat.lt_of_not_le fun hn => ?_
            rw [hrec.of_some.2.1] at hn
            rw [input_of_size_le hn] at hs
            cases hs
          exact .prepend (hsheds 0) (ih (congrArg Input.source (input_setInput_self (w := w₁) _ hlt)))
        · rw [if_neg ht]
          exact hsheds _

section

variable (hh : (w.input index).supply ≠ .host)
include hh

/-- So does getting the next piece of any source. -/
theorem sheds_nextPiece (task : Nat) (inside : Bool) : w.ShedsBy index (w.nextPiece task index inside) := by
  cases hs : (w.input index).source with
  | text rest =>
    simp only [nextPiece, hs]
    refine (Sheds.refl w index).setInput ?_ ?_
    · simp only [Input.supply, hs]
    · simp only [Input.kept, hs, Input.pendingText, Option.elim_some, List.length_nil]
      omega
  | host rest ready => exact absurd (by rw [Input.supply, hs]) hh
  | pipe pipe decoder ended =>
    simp only [nextPiece, hs]
    split
    · exact .refl w index
    · exact sheds_pull hs 2

/-- So does reading a piece. -/
theorem sheds_readPiece (task : Nat) (inside : Bool) : w.ShedsBy index (w.readPiece task index inside) := by
  unfold readPiece
  simp only
  split
  · exact sheds_nextPiece hh task inside
  · exact sheds_pending rfl (by simp [Input.withPending, Input.pendingText])

/-- So does reading a line. -/
theorem sheds_readLine (task tries : Nat) (inside : Bool) :
    w.ShedsBy index (w.readLine task index tries inside) := by
  induction tries generalizing w inside with
  | zero => exact .refl w index
  | succ tries ih =>
    unfold readLine
    split
    · next line rest ht =>
      have ht : (w.input index).takeLine? = some (line, rest) := by
        cases inside with
        | true => cases ht
        | false => exact ht
      -- A line that is pending is what the input sheds.
      obtain ⟨hs, hp⟩ := Input.takeLine?_eq_some ht
      exact sheds_pending hs (Nat.le_of_eq hp)
    · have hn := sheds_nextPiece hh task inside
      rcases hr : w.nextPiece task index inside with ⟨w₁, got⟩
      rw [hr] at hn
      rcases got with - | (- | ⟨c, piece⟩)
      · exact hn
      · exact .prepend hn (sheds_pending rfl (by simp [Input.withPending, Input.pendingText]))
      · -- The piece becomes pending, so the input keeps it.
        have hsource := (w₁.input index).source_addPending (c :: piece)
        have hset : w.Sheds index 0 (w₁.setInput index ((w₁.input index).addPending (c :: piece))) := by
          refine Sheds.setInput hn (Input.supply_eq_of_source hsource) ?_
          simp only [Input.kept, hsource, Input.pendingText_addPending, List.length_append,
            Option.elim_some]
          omega
        exact .prepend hset (ih (by rwa [hset.alike.supply]) false)

/-- If the reading of all text has to wait, the input does not keep more than before. -/
theorem sheds_readAll {tries : Nat} {inside : Bool} {done : List (List Char)} {left : Wanted}
    (h : w.readAll task index tries inside done = (w', .waiting left)) : w.Sheds index 0 w' := by
  induction tries generalizing w inside done with
  | zero => cases h
  | succ tries ih =>
    have hn := sheds_readPiece hh task inside
    unfold readAll at h
    rcases hr : w.readPiece task index inside with ⟨w₁, - | (- | ⟨c, piece⟩)⟩ <;> rw [hr] at h hn
    · cases h
      exact hn
    · cases h
    · exact (hn.trans (ih (by rwa [hn.alike.supply]) h)).mono (Nat.zero_le _)

/-- Nor if that of a continued line has to wait. -/
theorem sheds_readContinued {lines : Nat} {inside : Bool} {done : List (List Char)} {left : Wanted}
    (h : w.readContinued task index lines inside done = (w', .waiting left)) : w.Sheds index 0 w' := by
  induction lines generalizing w inside done with
  | zero => cases h
  | succ lines ih =>
    have hn := sheds_readLine hh task maxPieces inside
    unfold readContinued at h
    rcases hr : w.readLine task index maxPieces inside with ⟨w₁, - | line⟩ <;> rw [hr] at h hn
    · cases h
      exact hn
    · simp only at h
      split at h
      · exact (hn.trans (ih (by rwa [hn.alike.supply]) h)).mono (Nat.zero_le _)
      · cases h

/-- **A request that has to wait** has taken something away, or has done nothing. -/
theorem sheds_of_waiting {wanted left : Wanted} (h : w.read task index wanted = (w', .waiting left)) :
    w.Sheds index 0 w' := by
  have hpiece := sheds_readPiece hh task wanted.inside
  have hline := sheds_readLine hh task maxPieces wanted.inside
  unfold read at h
  -- A request that goes on waiting has shed nothing that it does not keep.
  cases hrequest : wanted.request with
  | piece =>
    rcases hr : w.readPiece task index wanted.inside with ⟨w₁, - | text⟩ <;>
      simp only [hrequest, hr] at h <;> cases h
    rw [hr] at hpiece
    exact hpiece
  | line =>
    rcases hr : w.readLine task index maxPieces wanted.inside with ⟨w₁, - | text⟩ <;>
      simp only [hrequest, hr] at h <;> cases h
    rw [hr] at hline
    exact hline
  | continued =>
    rcases hr : w.readLine task index maxPieces wanted.inside with ⟨w₁, - | line⟩ <;>
      simp only [hrequest, hr] at h <;> rw [hr] at hline
    · cases h
      exact hline
    · split at h
      · exact (hline.trans (sheds_readContinued (by rwa [hline.alike.supply]) h)).mono (Nat.zero_le _)
      · cases h
  | all =>
    simp only [hrequest] at h
    exact sheds_readAll hh h

/-- **A piece or a line has been taken away** when it has been read. -/
theorem sheds_of_text {wanted : Wanted} {text : List Char} (hw : wanted.request.IsSingle)
    (h : w.read task index wanted = (w', .text text)) : w.Sheds index text.length w' := by
  have hpiece := sheds_readPiece hh task wanted.inside
  have hline := sheds_readLine hh task maxPieces wanted.inside
  unfold read at h
  rcases hw with hrequest | hrequest
  · rcases hr : w.readPiece task index wanted.inside with ⟨w₁, - | text⟩ <;>
      simp only [hrequest, hr] at h <;> cases h
    rw [hr] at hpiece
    exact hpiece
  · rcases hr : w.readLine task index maxPieces wanted.inside with ⟨w₁, - | text⟩ <;>
      simp only [hrequest, hr] at h <;> cases h
    rw [hr] at hline
    exact hline

end

end World

end Shell
