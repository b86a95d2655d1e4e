/-
Readings of what is to come.

Every reading takes a text off the front of what is to come from an input and leaves the rest (`Gives`). A line is the
first line of it (`gives_readLine`), a reading to the end is all of it (`fetches_readAll`), and a reading that has
to wait leaves it as it was. So what a request is met with is what it takes of the text to come (`fetches_read`), however
the text is cut into pieces. Each loop of a reading is an induction on its tries, and a try that draws a piece leaves fewer
of them at hand.
-/
import Shell.Proofs.World.Coming

set_option autoImplicit false

namespace Shell

namespace World

open Shell.Text

variable {w w₁ w' : World} {index : Nat} {bytes : List UInt8}

/-! ## 1. Readings

A reading gives a text: it was the beginning of what was to come, and the rest is what comes now. -/

/-- A text comes off the front of what is to come. -/
structure Gives (w : World) (index : Nat) (bytes : List UInt8) (text : List Char) (w' : World) :
    Prop where
  reads : w.Reads index w'
  legible : w'.Legible index bytes
  coming : w.coming index bytes = text ++ w'.coming index bytes

variable {text more : List Char}

/-- Texts that are given one after the other are given together. -/
theorem Gives.trans (h : w.Gives index bytes text w₁) (h' : w₁.Gives index bytes more w') :
    w.Gives index bytes (text ++ more) w' where
  reads := h.reads.trans h'.reads
  legible := h'.legible
  coming := by rw [h.coming, h'.coming, List.append_assoc]

/-- A piece that comes next when nothing is pending. -/
theorem Draws.gives {r : World × Option (List Char)} (h : w.Draws index bytes r)
    (hp : (w.input index).pending = []) : w.Gives index bytes (r.2.getD []) r.1 where
  reads := h.reads
  legible := h.legible
  coming := by
    rw [World.coming, World.coming, Input.pendingText, Input.pendingText, h.pending, hp]
    exact h.text

/-- The reader waits, and what is pending stays so. -/
theorem Draws.gives_nothing (h : w.Draws index bytes (w', none)) : w.Gives index bytes [] w' where
  reads := h.reads
  legible := h.legible
  coming := by
    have hp : (w'.input index).pending = (w.input index).pending := h.pending
    rw [World.coming, World.coming, Input.pendingText, Input.pendingText, hp]
    exact congrArg _ h.text

/-! ## 2. Another text pending

What has been read too far is put back. The text to come is the same for it. -/

/-- An input that has the same source and is in order. -/
structure Renews (w : World) (index : Nat) (input : Input) : Prop where
  source : input.source = (w.input index).source
  tidy : input.IsTidy
  filled : [] ∉ input.pending

variable {input : Input}

/-- Text that is put back as pending renews the input. -/
theorem renews_withPending (w : World) (index : Nat) (text : List Char) :
    w.Renews index ((w.input index).withPending text) :=
  ⟨rfl, Input.isTidy_withPending _ _, Input.filled_withPending _ _⟩

/-- A renewed input is as legible as before. -/
theorem Legible.setInput (h : w.Legible index bytes) (hn : w.Renews index input) :
    (w.setInput index input).Legible index bytes := by
  have hin := input_setInput_self (w := w) input h.known
  have hsupply := Input.supply_eq_of_source hn.source
  refine ⟨?_, ?_, ?_, ?_, ?_, ?_⟩
  · rw [size_setInput]
    exact h.known
  · rw [hin]
    exact hn.tidy
  · rw [hin]
    exact hn.filled
  · rw [hin, hn.source]
    exact h.host
  · intro c hc
    rw [hin, hsupply] at hc
    exact h.channel c hc
  · intro c decoder hc
    rw [hin, hn.source] at hc
    exact h.ended c decoder hc

/-- What comes is the text that is pending now, and then what the source gives. -/
theorem Renews.coming (hn : w.Renews index input) (h : index < w.inputs.size) :
    (w.setInput index input).coming index bytes =
      input.pendingText ++ w.sourceText index bytes := by
  have hin := input_setInput_self (w := w) input h
  rw [World.coming, sourceText, sourceText, hin, hn.source]
  rfl

/-- The source has as many pieces as before. -/
theorem Renews.pieces (hn : w.Renews index input) (h : index < w.inputs.size) :
    (w.setInput index input).pieces index = w.pieces index := by
  rw [World.pieces, World.pieces, input_setInput_self input h, hn.source]
  rfl

/-- The host has read no more than before. -/
theorem Renews.unasked (hn : w.Renews index input) (h : index < w.inputs.size) (hu : w.Unasked index) :
    (w.setInput index input).Unasked index :=
  hu.congr (by rw [input_setInput_self input h, hn.source])

/-- A part of what was pending has been taken. -/
theorem Legible.gives_pending (h : w.Legible index bytes)
    (hp : (w.input index).pendingText = text ++ more) :
    w.Gives index bytes text (w.setInput index ((w.input index).withPending more)) := by
  have hn := w.renews_withPending index more
  refine ⟨reads_setInput hn.source, h.setInput hn, ?_⟩
  rw [hn.coming h.known, Input.pendingText_withPending, World.coming, hp, List.append_assoc]

/-- What was to come is what is pending, the piece, and the rest of the source. -/
theorem Draws.coming {r : World × Option (List Char)} (h : w.Draws index bytes r) :
    w.coming index bytes =
      (r.1.input index).pendingText ++ (r.2.getD [] ++ r.1.sourceText index bytes) := by
  rw [World.coming, h.text, Input.pendingText, Input.pendingText, h.pending]

/-- A piece that is added to what is pending renews the input. -/
theorem Draws.renews_added {piece : List Char} (h : w.Draws index bytes (w₁, some piece))
    (hne : piece ≠ []) : w₁.Renews index ((w₁.input index).addPending piece) :=
  ⟨Input.source_addPending _ _, Input.isTidy_addPending h.legible.tidy piece,
    Input.filled_addPending h.legible.filled hne⟩

/-- A piece has become pending, so what is to come is what it was. -/
theorem Draws.gives_added {piece : List Char} (h : w.Draws index bytes (w₁, some piece))
    (hne : piece ≠ []) :
    w.Gives index bytes [] (w₁.setInput index ((w₁.input index).addPending piece)) := by
  have hn := h.renews_added hne
  have hset := reads_setInput hn.source
  refine ⟨h.reads.trans hset, h.legible.setInput hn, ?_⟩
  rw [hn.coming h.legible.known, Input.pendingText_addPending, h.coming, List.append_assoc]
  rfl

/-- What a reader that has waited may skip: it does not look at what is pending, because it knows
that what it wants is not there. -/
def Minds (w : World) (index : Nat) (wanted : Wanted) : Prop :=
  wanted.inside = true →
    match wanted.request with
    | .piece => (w.input index).pending = []
    | .line => (w.input index).IsInLine
    | .continued => (w.input index).IsInLine
    | .all => (w.input index).pending = []

/-! ## 3. Lines

A line is given whole, however many pieces it came in. -/

/-- The first line, or a wait for the rest of it. -/
inductive GivesLine (w : World) (index : Nat) (bytes : List UInt8) :
    World × Option (List Char) → Prop where
  | line {w' : World} (h : w.Gives index bytes (splitLine (w.coming index bytes)).1 w')
      (hu : w'.Unasked index) :
      GivesLine w index bytes (w', some (splitLine (w.coming index bytes)).1)
  | waits {w' : World} (h : w.Gives index bytes [] w') (hl : (w'.input index).IsInLine) :
      GivesLine w index bytes (w', none)

/-- A line may be given after steps that give nothing. -/
theorem GivesLine.prepend {r : World × Option (List Char)} (h : w.Gives index bytes [] w₁)
    (h' : w₁.GivesLine index bytes r) : w.GivesLine index bytes r := by
  have hc : w.coming index bytes = w₁.coming index bytes := h.coming
  cases h' with
  | line hl hu =>
    rw [← hc] at hl ⊢
    exact .line (h.trans hl) hu
  | waits hw hl => exact .waits (h.trans hw) hl

/-- After a reading the input is one that can still be read without the host. -/
theorem Gives.readable (h : w.Gives index bytes text w') (hs : (w.input index).supply ≠ .host) :
    w'.Readable index bytes :=
  h.legible.readable (by rwa [h.reads.supply])

/-- Nothing more comes, so what is pending is the last line. -/
theorem Draws.gives_last (h : w.Draws index bytes (w₁, some [])) (hl : (w.input index).IsInLine) :
    w.GivesLine index bytes
      (w₁.setInput index ((w₁.input index).withPending []), some (w₁.input index).pendingText) := by
  have hsame : (w₁.input index).pendingText = (w.input index).pendingText := by
    have hp : (w₁.input index).pending = (w.input index).pending := h.pending
    rw [Input.pendingText, hp, Input.pendingText]
  have hall : w.coming index bytes = (w₁.input index).pendingText := by
    rw [h.coming, h.ended rfl]
    exact List.append_nil _
  have hfirst : (splitLine (w.coming index bytes)).1 = (w₁.input index).pendingText := by
    rw [hall, hsame, splitLine_of_inLine hl]
  have hn := w₁.renews_withPending index []
  have hgives : w.Gives index bytes (splitLine (w.coming index bytes)).1
      (w₁.setInput index ((w₁.input index).withPending [])) := by
    refine ⟨h.reads.trans (reads_setInput hn.source), h.legible.setInput hn, ?_⟩
    have hend : w₁.sourceText index bytes = [] := h.ended rfl
    rw [hn.coming h.legible.known, hend, hfirst, hall, Input.pendingText_withPending]
    simp
  rw [← hfirst]
  exact .line hgives (hn.unasked h.legible.known (h.unasked [] rfl))

/-- A line that was pending. -/
theorem Legible.gives_line (h : w.Legible index bytes) (hu : w.Unasked index) {rest : List Char}
    (hr : (splitLine (w.coming index bytes)).2 = rest ++ w.sourceText index bytes) :
    w.GivesLine index bytes (w.setInput index ((w.input index).withPending rest),
      some (splitLine (w.coming index bytes)).1) := by
  refine .line (h.gives_pending ?_) ((w.renews_withPending index rest).unasked h.known hu)
  have hsplit := splitLine_append (w.coming index bytes)
  rw [hr, ← List.append_assoc] at hsplit
  exact (List.append_cancel_right hsplit).symm

/-- **A line is the first line of what is to come.** -/
theorem gives_readLine (task tries : Nat) (inside : Bool) (h : w.Legible index bytes)
    (hu : inside = false → w.Unasked index)
    (hm : inside = true → (w.input index).IsInLine) (ht : w.pieces index < tries) :
    w.GivesLine index bytes (w.readLine task index tries inside) := by
  induction tries generalizing w inside with
  | zero => omega
  | succ tries ih =>
    have hcases := Input.takeLine?_cases h.tidy (w.sourceText index bytes)
    unfold readLine
    split
    · next line rest hl =>
      obtain ⟨rfl, hsome⟩ : inside = false ∧ (w.input index).takeLine? = some (line, rest) := by
        cases inside with
        | true => cases hl
        | false => exact ⟨rfl, hl⟩
      rcases hcases with ⟨hnone, -⟩ | ⟨left, hpending, hleft⟩
      · rw [hnone] at hsome
        cases hsome
      · obtain ⟨rfl, rfl⟩ := Prod.mk.inj (Option.some.inj (hsome.symm.trans hpending))
        exact h.gives_line (hu rfl) hleft
    · next hl =>
      have hinLine : (w.input index).IsInLine := by
        cases inside with
        | true => exact hm rfl
        | false =>
          rcases hcases with ⟨-, hin⟩ | ⟨left, hpending, -⟩
          · exact hin
          · rw [hpending] at hl
            cases hl
      have hd := draws_nextPiece task inside h hu
      rcases hr : w.nextPiece task index inside with ⟨w₁, got⟩
      rw [hr] at hd
      rcases got with - | (- | ⟨c, piece⟩)
      · have hp : (w₁.input index).pending = (w.input index).pending := hd.pending
        refine .waits hd.gives_nothing fun c hc => hinLine c ?_
        rwa [Input.pendingText, hp] at hc
      · exact hd.gives_last hinLine
      · have hgives := hd.gives_added (List.cons_ne_nil c piece)
        have hfew := hd.fewer (c :: piece) rfl (List.cons_ne_nil c piece)
        have hn := hd.renews_added (List.cons_ne_nil c piece)
        -- The line goes on with this piece, and there are fewer pieces behind it.
        refine .prepend hgives (ih false hgives.legible
          (fun _ => hn.unasked hd.legible.known (hd.unasked _ rfl)) (fun he => by cases he) ?_)
        rw [hn.pieces hd.legible.known]
        exact Nat.lt_of_lt_of_le hfew (Nat.le_of_lt_succ ht)

/-! ## 4. Requests

A request fetches what it takes of the text to come (`Request.split`), or it waits with what it has got. -/

/-- The ways a request can be met: with what it takes off all that is to come, behind what has
been read for it already; or not yet, when a part of that has been read. -/
inductive Fetches (w : World) (index : Nat) (bytes : List UInt8) (wanted : Wanted) :
    World × Got → Prop where
  | text {w' : World}
      (h : w.Gives index bytes (wanted.request.split (w.coming index bytes)).1 w')
      (hu : w'.Unasked index) :
      Fetches w index bytes wanted (w', .text (wanted.before.reverse.flatten ++
        (wanted.request.split (w.coming index bytes)).1))
  | waiting {w' : World} {left : Wanted} {text : List Char} (h : w.Gives index bytes text w')
      (hr : left.request = wanted.request)
      (hb : left.before.reverse.flatten = wanted.before.reverse.flatten ++ text)
      (hs : (wanted.request.split (w.coming index bytes)).1 =
        text ++ (wanted.request.split (w'.coming index bytes)).1)
      (hi : left.inside = true) (hm : w'.Minds index left) :
      Fetches w index bytes wanted (w', .waiting left)

variable {wanted next : Wanted} {r : World × Got}

/-- Reading on after a part of what is wanted. -/
theorem Fetches.after (h' : w₁.Fetches index bytes next r) (h : w.Gives index bytes text w₁)
    (hr : next.request = wanted.request)
    (hb : next.before.reverse.flatten = wanted.before.reverse.flatten ++ text)
    (hs : (wanted.request.split (w.coming index bytes)).1 =
      text ++ (wanted.request.split (w₁.coming index bytes)).1) :
    w.Fetches index bytes wanted r := by
  cases h' with
  | text hg hu =>
    have hg' := h.trans hg
    rw [hb, List.append_assoc, hr, ← hs]
    rw [hr, ← hs] at hg'
    exact .text hg' hu
  | waiting hg hr' hb' hs' hi hm =>
    refine .waiting (h.trans hg) (hr'.trans hr) ?_ ?_ hi hm
    · rw [hb', hb, List.append_assoc]
    · rw [hr] at hs'
      rw [hs, hs', List.append_assoc]

/-- Nothing has been read, and the reader waits. -/
theorem Fetches.waits (h : w.Gives index bytes [] w') (hr : next.request = wanted.request)
    (hb : next.before = wanted.before) (hi : next.inside = true) (hm : w'.Minds index next) :
    w.Fetches index bytes wanted (w', .waiting next) := by
  have hc : w.coming index bytes = w'.coming index bytes := h.coming
  refine .waiting h hr ?_ ?_ hi hm
  · rw [hb, List.append_nil]
  · rw [hc, List.nil_append]

/-- A line has been read, and it was all that was wanted. -/
theorem Fetches.line (hl : w.Gives index bytes (splitLine (w.coming index bytes)).1 w')
    (hu : w'.Unasked index)
    (hs : wanted.request.split (w.coming index bytes) = splitLine (w.coming index bytes)) :
    w.Fetches index bytes wanted
      (w', .text (wanted.before.reverse.flatten ++ (splitLine (w.coming index bytes)).1)) := by
  rw [← hs] at hl ⊢
  exact .text hl hu

/-- How many pieces an input has at hand, with what is pending. -/
def portions (w : World) (index : Nat) : Nat :=
  w.pieces index + if (w.input index).pending.isEmpty then 0 else 1

/-- The next piece, or the end, or a wait. -/
inductive GivesPiece (w : World) (index : Nat) (bytes : List UInt8) :
    World × Option (List Char) → Prop where
  | piece {w' : World} {c : Char} {text : List Char} (h : w.Gives index bytes (c :: text) w')
      (hp : w'.portions index < w.portions index) (hu : w'.Unasked index) :
      GivesPiece w index bytes (w', some (c :: text))
  | ended {w' : World} (h : w.Gives index bytes [] w') (hn : w.coming index bytes = [])
      (hu : w'.Unasked index) :
      GivesPiece w index bytes (w', some [])
  | waits {w' : World} (h : w.Gives index bytes [] w') (hp : (w'.input index).pending = []) :
      GivesPiece w index bytes (w', none)

/-- Something is pending, and it is no empty text. -/
theorem Legible.gives_piece (h : w.Legible index bytes) (hu : w.Unasked index)
    (hp : (w.input index).pending.isEmpty = false) :
    w.GivesPiece index bytes (w.setInput index ((w.input index).withPending []),
      some (w.input index).pendingText) := by
  have hgives := h.gives_pending (List.append_nil (w.input index).pendingText).symm
  have hpieces := (w.renews_withPending index []).pieces h.known
  have hin := input_setInput_self (w := w) ((w.input index).withPending []) h.known
  have htext : (w.input index).pendingText ≠ [] := by
    intro he
    rw [Input.pendingText, List.flatten_eq_nil_iff] at he
    obtain ⟨piece, hmem⟩ := List.exists_mem_of_ne_nil _ (List.isEmpty_eq_false_iff.1 hp)
    exact h.filled (he piece (List.mem_reverse.2 hmem) ▸ hmem)
  cases hpending : (w.input index).pendingText with
  | nil => exact absurd hpending htext
  | cons c text =>
    rw [hpending] at hgives
    refine .piece hgives ?_ ((w.renews_withPending index []).unasked h.known hu)
    rw [portions, portions, hpieces, hin, hp]
    simp [Input.withPending]

/-- Reading a piece gives one, or waits. -/
theorem gives_readPiece (task : Nat) (inside : Bool) (h : w.Legible index bytes)
    (hu : inside = false → w.Unasked index)
    (hm : inside = true → (w.input index).pending = []) :
    w.GivesPiece index bytes (w.readPiece task index inside) := by
  unfold readPiece
  simp only
  by_cases hp : (inside || (w.input index).pending.isEmpty) = true
  -- Nothing is pending, so a piece is asked for.
  · have hnil : (w.input index).pending = [] := by
      rcases Bool.or_eq_true_iff.1 hp with hi | hi
      · exact hm hi
      · exact List.isEmpty_iff.1 hi
    have hd := draws_nextPiece task inside h hu
    rw [if_pos hp]
    rcases hr : w.nextPiece task index inside with ⟨w₁, got⟩
    rw [hr] at hd
    have hpend : (w₁.input index).pending = [] := hd.pending.trans hnil
    have hgives := hd.gives hnil
    rcases got with - | (- | ⟨c, text⟩)
    · exact .waits hgives hpend
    · refine .ended hgives ?_ (hd.unasked [] rfl)
      rw [hd.coming, hd.ended rfl, Input.pendingText, hpend]
      rfl
    · refine .piece hgives ?_ (hd.unasked _ rfl)
      have hfew : w₁.pieces index < w.pieces index := hd.fewer _ rfl (List.cons_ne_nil c text)
      rw [portions, portions, hnil, hpend]
      exact hfew
  · rw [if_neg hp]
    obtain ⟨hi, hpending⟩ := Bool.or_eq_false_iff.1 (Bool.eq_false_iff.2 hp)
    exact h.gives_piece (hu hi) hpending

/-- **Everything to the end.** The tries are enough for what is pending, for the pieces behind it and
for the end. -/
theorem fetches_readAll (task tries : Nat) (inside : Bool) (done : List (List Char))
    (h : w.Legible index bytes) (hu : inside = false → w.Unasked index)
    (hm : w.Minds index ⟨.all, inside, done⟩)
    (ht : w.portions index < tries) :
    w.Fetches index bytes ⟨.all, inside, done⟩ (w.readAll task index tries inside done) := by
  induction tries generalizing w inside done with
  | zero => omega
  | succ tries ih =>
    have hpiece := gives_readPiece task inside h hu hm
    unfold readAll
    generalize w.readPiece task index inside = r at hpiece ⊢
    cases hpiece with
    | waits hg hp => exact .waits hg rfl rfl rfl fun _ => hp
    | @ended w' hg hn hu' =>
      -- Nothing was left, so what has been read is all.
      rw [← hn] at hg
      have ht : w.Fetches index bytes ⟨.all, inside, done⟩
          (w', .text (done.reverse.flatten ++ w.coming index bytes)) := .text hg hu'
      rwa [hn, List.append_nil] at ht
    | @piece w' c text hg hp hu' =>
      have hrest := ih false ((c :: text) :: done) hg.legible (fun _ => hu') (fun he => by cases he)
        (Nat.lt_of_lt_of_le hp (Nat.le_of_lt_succ ht))
      refine hrest.after hg rfl ?_ hg.coming
      simp [Wanted.before]

/-- What is to come after a line is what stands behind it. -/
theorem Gives.splitLine_snd (hg : w.Gives index bytes (splitLine (w.coming index bytes)).1 w') :
    (splitLine (w.coming index bytes)).2 = w'.coming index bytes := by
  refine (List.append_right_inj (splitLine (w.coming index bytes)).1).1 ?_
  rw [splitLine_append, ← hg.coming]

/-- A continued line is not empty. -/
theorem ne_nil_of_isContinued {line : List Char} (h : isContinued line = true) : line ≠ [] := by
  rintro rfl
  exact absurd h (by decide)

/-- A line that is continued has been read, and then the lines that continue it. -/
theorem Gives.fetches_continued {inside : Bool} {done : List (List Char)}
    (hg : w.Gives index bytes (splitLine (w.coming index bytes)).1 w')
    (hc : isContinued (splitLine (w.coming index bytes)).1 = true)
    (h : w'.Fetches index bytes
      ⟨.continued, false, (splitLine (w.coming index bytes)).1 :: done⟩ r) :
    w.Fetches index bytes ⟨.continued, inside, done⟩ r := by
  have hsplit : Request.continued.split (w.coming index bytes) =
      splitContinued (w.coming index bytes) := rfl
  rw [splitContinued, if_pos hc, hg.splitLine_snd] at hsplit
  refine h.after hg rfl ?_ (congrArg Prod.fst hsplit)
  simp [Wanted.before]

/-- A line that is not continued has been read. -/
theorem Gives.fetches_last {inside : Bool} {done : List (List Char)}
    (hg : w.Gives index bytes (splitLine (w.coming index bytes)).1 w') (hu : w'.Unasked index)
    (hc : ¬ isContinued (splitLine (w.coming index bytes)).1 = true) :
    w.Fetches index bytes ⟨.continued, inside, done⟩
      (w', .text ((splitLine (w.coming index bytes)).1 :: done).reverse.flatten) := by
  have hsplit : Request.continued.split (w.coming index bytes) =
      splitContinued (w.coming index bytes) := rfl
  rw [splitContinued, if_neg hc] at hsplit
  have ht : w.Fetches index bytes ⟨.continued, inside, done⟩
      (w', .text (done.reverse.flatten ++ (splitLine (w.coming index bytes)).1)) :=
    .line hg hu hsplit
  simpa using ht

/-- **Lines that continue each other.** Each of them takes something off the load, so there are
enough tries. -/
theorem fetches_readContinued (task lines : Nat) (inside : Bool) (done : List (List Char))
    (h : w.Legible index bytes) (hu : inside = false → w.Unasked index)
    (hm : w.Minds index ⟨.continued, inside, done⟩)
    (hl : w.load index < lines) :
    w.Fetches index bytes ⟨.continued, inside, done⟩
      (w.readContinued task index lines inside done) := by
  induction lines generalizing w inside done with
  | zero => omega
  | succ lines ih =>
    have hline := gives_readLine task maxPieces inside h hu hm
      (Nat.lt_of_le_of_lt (w.pieces_le index) (by decide))
    have hsup := w.supplies_readLine task index maxPieces inside
    unfold readContinued
    generalize w.readLine task index maxPieces inside = r at hline hsup ⊢
    cases hline with
    | waits hg hin => exact .waits hg rfl rfl rfl fun _ => hin
    | @line w' hg hu' =>
      simp only
      -- A line that goes on is put down, and the next one asked for, of which less is left.
      by_cases hc : isContinued (splitLine (w.coming index bytes)).1 = true
      · have hload := hsup.load
        have hpos := List.length_pos_iff.2 (ne_nil_of_isContinued hc)
        rw [if_pos hc]
        exact hg.fetches_continued hc
          (ih false _ hg.legible (fun _ => hu') (fun he => by cases he) (by omega))
      · rw [if_neg hc]
        exact hg.fetches_last hu' hc

/-- **Every reading of lines or to the end** takes off what is to come just what it would take off
the whole text, or waits for the rest of that. -/
theorem fetches_read (task : Nat) (h : w.Legible index bytes)
    (hu : wanted.inside = false → w.Unasked index) (hm : w.Minds index wanted)
    (hr : wanted.request ≠ .piece) :
    w.Fetches index bytes wanted (w.read task index wanted) := by
  obtain ⟨request, inside, done⟩ := wanted
  have hpieces := w.pieces_le index
  unfold read
  -- A request is one line, lines as long as they go on, or everything.
  cases request with
  | piece => exact absurd rfl hr
  | line =>
    have hline := gives_readLine task maxPieces inside h hu hm
      (Nat.lt_of_le_of_lt hpieces (by decide))
    simp only
    generalize w.readLine task index maxPieces inside = r at hline ⊢
    cases hline with
    | waits hg hin => exact .waits hg rfl rfl rfl fun _ => hin
    | line hg hu' => exact .line hg hu' rfl
  | continued =>
    have hline := gives_readLine task maxPieces inside h hu hm
      (Nat.lt_of_le_of_lt hpieces (by decide))
    simp only
    generalize w.readLine task index maxPieces inside = r at hline ⊢
    cases hline with
    | waits hg hin => exact .waits hg rfl rfl rfl fun _ => hin
    | @line w' hg hu' =>
      simp only
      by_cases hc : isContinued (splitLine (w.coming index bytes)).1 = true
      · have hstock := w'.load_le_stock index
        rw [if_pos hc]
        exact hg.fetches_continued hc
          (fetches_readContinued task _ false _ hg.legible (fun _ => hu') (fun he => by cases he) (by omega))
      · rw [if_neg hc]
        exact hg.fetches_last hu' hc
  | all =>
    refine fetches_readAll task maxPieces inside done h hu hm ?_
    rw [portions, maxPieces]
    split <;> omega

end World

end Shell
