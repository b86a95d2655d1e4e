/-
The two ends of a pipe.

One task writes parcels into a pipe, texts or bare bytes, and closes it. Another one reads from the input at
the other end, and asks for a piece, a line or all of the rest as often as it likes. Neither knows of the other.
Here one turn of each is described, whatever the other one has done before.

What the writer has still to put in and what is in the pipe make up the same bytes before and after its turn
(`Puts`). The reader takes texts off the front of what is to come (`Gets`), for each request what it may take
there (`Shares`). So all of them have something in them as long as there is something left, and after that all are
empty (`Served`). The reader can just as well be at a text or at a file of the host: a turn of it only ends in
another wait then.
-/
import Shell.Proofs.Channel.Calls
import Shell.Proofs.Text.Decoding
import Shell.Proofs.World.Fetching
import Shell.Proofs.World.Parts

set_option autoImplicit false

namespace Shell

open Shell.Text

namespace Delivery

/-! ## 1. Jobs -/

/-- What is put into a pipe at once: a text, or bytes. -/
inductive Parcel where
  | text (text : String)
  | raw (bytes : List UInt8)

/-- The bytes of a parcel. -/
def Parcel.bytes : Parcel → List UInt8
  | .text chars => Utf8.encode chars.toList
  | .raw data => data

def bytesOf (parcels : List Parcel) : List UInt8 := parcels.flatMap Parcel.bytes

/-- Goes on with a job, unless a write was refused. -/
def orFail (job : Job (List String)) : Option Abort → Job (List String)
  | none => job
  | some abort => .fail abort

/-- Writes parcels into a pipe, each when the one before it is in, and closes the pipe. -/
def writing : List Parcel → Job (List String)
  | [] => .closeWrite 0 (.finish [])
  | .text text :: parcels => .write (.pipe 0) text (orFail (writing parcels))
  | .raw bytes :: parcels => .send 0 bytes (orFail (writing parcels))

/-- Makes requests of an input, one after the other, and ends with all that it got. -/
def reading : List Request → List String → Job (List String)
  | [], got => .finish got
  | request :: requests, got =>
    .read 0 ⟨request, false, []⟩ fun text => reading requests (got ++ [text])

/-- A request in the course of being met, and then the others. -/
def awaiting (wanted : Wanted) (requests : List Request) (got : List String) : Job (List String) :=
  .read 0 wanted fun text => reading requests (got ++ [text])

theorem bytesOf_cons (parcel : Parcel) (parcels : List Parcel) :
    bytesOf (parcel :: parcels) = parcel.bytes ++ bytesOf parcels :=
  List.flatMap_cons

/-- Texts are written as the bytes of all of them. -/
theorem bytesOf_texts (texts : List String) :
    bytesOf (texts.map .text) = Utf8.encode (String.join texts).toList := by
  induction texts with
  | nil => rfl
  | cons text texts ih =>
    have hencode : Utf8.encode (text.toList ++ (String.join texts).toList) =
        Utf8.encode text.toList ++ Utf8.encode (String.join texts).toList := List.flatMap_append
    rw [List.map_cons, bytesOf_cons, ih, String.join_cons, String.toList_append, hencode]
    rfl

variable {w w₁ w' : World} {task : Nat} {unsent unsent' : List UInt8}

/-! ## 2. The writer -/

/-- A writer has worked on. The bytes in the pipe with those that it has still to write are what they were, and
nobody has been woken for nothing. -/
structure Pours (w : World) (unsent : List UInt8) (w' : World) (unsent' : List UInt8) : Prop where
  works : w.Works w'
  inputs : w'.inputs = w.inputs
  bytes : (w'.channel 0).pipe.buffer.toList ++ unsent' =
    (w.channel 0).pipe.buffer.toList ++ unsent
  posts : w'.posts 0 = w.posts 0
  quiet : unsent'.length < unsent.length ∨
    unsent'.length = unsent.length ∧ w'.queue.toList = w.queue.toList

theorem Pours.refl (w : World) (unsent : List UInt8) : Pours w unsent w unsent :=
  ⟨.refl w, rfl, rfl, rfl, .inr ⟨rfl, rfl⟩⟩

theorem Pours.trans {unsent₁ : List UInt8} (h : Pours w unsent w₁ unsent₁)
    (h' : Pours w₁ unsent₁ w' unsent') : Pours w unsent w' unsent' where
  works := h.works.trans h'.works
  inputs := h'.inputs.trans h.inputs
  bytes := h'.bytes.trans h.bytes
  posts := h'.posts.trans h.posts
  quiet := by
    rcases h.quiet with hlt | ⟨heq, hqueue⟩
    · refine .inl ?_
      rcases h'.quiet with hlt' | ⟨heq', -⟩ <;> omega
    · rcases h'.quiet with hlt' | ⟨heq', hqueue'⟩
      · exact .inl (by omega)
      · exact .inr ⟨by omega, hqueue'.trans hqueue⟩

/-- As many bytes as there is room for have gone into the pipe. -/
theorem pours_put {bytes : List UInt8} (more : List UInt8) (h0 : 0 < w.channels.size)
    (hb : bytes ≠ []) (hr : (w.channel 0).pipe.room ≠ 0) :
    Pours w (bytes ++ more) (w.put 0 bytes) (bytes.drop (w.channel 0).pipe.room ++ more) where
  works := World.works_put w 0 bytes
  inputs := World.inputs_change _
  bytes := by
    rw [World.put, World.pipe_change_self _ h0, Pipe.toList_accept, List.append_assoc,
      ← List.append_assoc (bytes.take _), List.take_append_drop]
  posts := World.posts_change _ h0
  quiet := by
    have hpos := List.length_pos_iff.mpr hb
    refine .inl ?_
    rw [List.length_append, List.length_append, List.length_drop]
    omega

/-- The ways a turn of a writer can go: it waits for room with something left to write, or it closes the pipe
when all is in. -/
inductive Puts (w : World) (task : Nat) (unsent : List UInt8) :
    World × Phase (List String) → Prop where
  | waits {w' : World} {bytes : List UInt8} {parcels : List Parcel}
      (h : Pours w unsent w' (bytes ++ bytesOf parcels)) (hb : bytes ≠ [])
      (ho : (w'.channel 0).pipe.IsOpen) (hf : (w'.channel 0).pipe.room = 0) :
      Puts w task unsent (w'.wait 0 task, .active (.send 0 bytes (orFail (writing parcels))))
  | ends {w' : World} (h : Pours w unsent w' []) :
      Puts w task unsent (w'.closeWrite 0, .ended (.ok []))

theorem Puts.prepend {r : World × Phase (List String)} (h : Pours w unsent w₁ unsent')
    (h' : Puts w₁ task unsent' r) : Puts w task unsent r := by
  cases h' with
  | waits hp hb ho hf => exact .waits (h.trans hp) hb ho hf
  | ends hp => exact .ends (h.trans hp)

/-- A bounded pipe into which not all bytes went is full. -/
theorem room_put {bytes : List UInt8} (h0 : 0 < w.channels.size)
    (hd : bytes.drop (w.channel 0).pipe.room ≠ []) :
    ((w.put 0 bytes).channel 0).pipe.room = 0 := by
  have hlt : (w.channel 0).pipe.room < bytes.length :=
    Nat.lt_of_not_le fun hn => hd (List.drop_eq_nil_of_le hn)
  rw [World.put, World.pipe_change_self _ h0, Pipe.room, Pipe.capacity_accept, Pipe.size_accept]
  rw [Pipe.room] at hlt ⊢
  omega

/-- Bytes are sent, and then the writer goes on as it does when they are in. -/
theorem puts_send {parcels : List Parcel} (bytes : List UInt8) (h0 : 0 < w.channels.size)
    (ho : (w.channel 0).pipe.IsOpen)
    (hrest : ∀ w : World, 0 < w.channels.size → (w.channel 0).pipe.IsOpen →
      Puts w task (bytesOf parcels) ((writing parcels).advance task w)) :
    Puts w task (bytes ++ bytesOf parcels)
      ((Job.send 0 bytes (orFail (writing parcels))).advance task w) := by
  have hsend := w.sends task 0 bytes
  unfold Job.advance
  generalize w.send task 0 bytes = r at hsend ⊢
  -- A reader is there, so the pipe takes all bytes, or some of them, or is full already.
  cases hsend with
  | nothing => exact hrest w h0 ho
  | refused _ hr =>
    rw [(Pipe.refusal?_eq_none_iff _).2 ho] at hr
    cases hr
  | full hb _ hf => exact .waits (.refl w _) hb ho hf
  | whole hb _ hr hd =>
    have hpours := pours_put (bytesOf parcels) h0 hb hr
    rw [hd, List.nil_append] at hpours
    refine .prepend hpours (hrest _ ?_ ((hpours.works.isOpen_iff 0).2 ho))
    rw [hpours.works.channels]
    exact h0
  | part _ hr hd =>
    have hb : bytes ≠ [] := by
      rintro rfl
      exact hd List.drop_nil
    have hpours := pours_put (bytesOf parcels) h0 hb hr
    exact .waits hpours hd ((hpours.works.isOpen_iff 0).2 ho) (room_put h0 hd)

/-- A text is written as its bytes are sent. -/
theorem advance_writing_cons (parcel : Parcel) (parcels : List Parcel) (task : Nat) (w : World) :
    (writing (parcel :: parcels)).advance task w =
      (Job.send 0 parcel.bytes (orFail (writing parcels))).advance task w := by
  cases parcel with
  | raw bytes =>
    rw [writing, Parcel.bytes]
  | text text =>
    rw [writing, Parcel.bytes, Job.advance, Job.advance, World.write]

/-- **A turn of the writer** that begins with a new parcel, or with the end. -/
theorem puts_writing (parcels : List Parcel) (h0 : 0 < w.channels.size)
    (ho : (w.channel 0).pipe.IsOpen) :
    Puts w task (bytesOf parcels) ((writing parcels).advance task w) := by
  induction parcels generalizing w with
  | nil => exact .ends (.refl w [])
  | cons parcel parcels ih =>
    rw [advance_writing_cons, bytesOf_cons]
    exact puts_send parcel.bytes h0 ho fun _ h0 ho => ih h0 ho

/-! ## 3. What a request is met with -/

theorem eq_nil_of_splitLine {text : List Char} (h : (splitLine text).1 = []) : text = [] := by
  have hsplit := splitLine_append text
  unfold splitLine at h hsplit
  split at h
  · exact h
  · exact absurd (List.append_eq_nil_iff.mp h).2 (List.cons_ne_nil _ _)

/-- A request takes something off every text that is not empty. -/
theorem eq_nil_of_split {request : Request} {text : List Char} (h : (request.split text).1 = []) :
    text = [] := by
  cases request with
  | piece => exact h
  | all => exact h
  | line => exact eq_nil_of_splitLine h
  | continued =>
    change (splitContinued text).1 = [] at h
    rw [splitContinued] at h
    split at h
    · exact eq_nil_of_splitLine (List.append_eq_nil_iff.mp h).1
    · exact eq_nil_of_splitLine h

/-- Whatever the request, an empty text is the end. -/
theorem eq_nil_of_takes {request : Request} {front rest : List Char} (h : request.Takes front rest)
    (hf : front = []) : rest = [] := by
  cases request with
  | piece => exact h hf
  | line | continued | all =>
    subst hf
    exact eq_nil_of_split (congrArg Prod.fst h)

/-- Requests share a text: each is met with the front of what those before it have left. -/
inductive Shares (text : List Char) : List Request → List String → List Char → Prop where
  | none : Shares text [] [] text
  | next {requests : List Request} {got : List String} {request : Request} {front rest : List Char}
      (h : Shares text requests got (front ++ rest)) (ht : request.Takes front rest) :
      Shares text (requests ++ [request]) (got ++ [String.ofList front]) rest

/-- Nothing of the text is lost, and nothing comes twice. -/
theorem Shares.join {text left : List Char} {requests : List Request} {got : List String}
    (h : Shares text requests got left) : got.flatMap String.toList ++ left = text := by
  induction h with
  | none => rfl
  | next _ _ ih =>
    rw [List.flatMap_append, List.flatMap_singleton, String.toList_ofList, List.append_assoc]
    exact ih

theorem Shares.length_eq {text left : List Char} {requests : List Request} {got : List String}
    (h : Shares text requests got left) : got.length = requests.length := by
  induction h with
  | none => rfl
  | next _ _ ih => rw [List.length_append, List.length_append, ih, List.length_singleton, List.length_singleton]

/-- The last request is met with what it takes off what the others have left. -/
theorem shares_concat {text left : List Char} {requests : List Request} {request : Request}
    {got : List String} (h : Shares text (requests ++ [request]) got left) :
    ∃ before front, got = before ++ [String.ofList front] ∧
      Shares text requests before (front ++ left) ∧ request.Takes front left := by
  generalize hall : requests ++ [request] = all at h
  cases h with
  | none => exact absurd hall (by simp)
  | next hs ht =>
    obtain ⟨rfl, hlast⟩ := List.append_inj' hall rfl
    obtain rfl := List.singleton_inj.mp hlast
    exact ⟨_, _, rfl, hs, ht⟩

theorem Shares.of_singleton {text left : List Char} {request : Request} {got : List String}
    (h : Shares text [request] got left) :
    ∃ front, got = [String.ofList front] ∧ text = front ++ left ∧ request.Takes front left := by
  obtain ⟨before, front, rfl, hs, ht⟩ := @shares_concat text left [] request got h
  have hjoin := hs.join
  obtain rfl := List.eq_nil_of_length_eq_zero hs.length_eq
  exact ⟨front, rfl, hjoin.symm, ht⟩

/-- The ways a request can be met: with a text that it may take off what is to come; or not yet, when a part of the
text has been read, and what the request takes off the rest goes behind that. -/
inductive Serves (w : World) (unsent : List UInt8) (wanted : Wanted) : World × World.Got → Prop where
  | text {w' : World} {text : List Char} (h : w.Gives 0 unsent text w')
      (ht : wanted.request.Takes text (w'.coming 0 unsent)) :
      Serves w unsent wanted (w', .text (wanted.before.reverse.flatten ++ text))
  | waiting {w' : World} {left : Wanted} {text : List Char} (h : w.Gives 0 unsent text w')
      (hr : left.request = wanted.request)
      (hb : left.before.reverse.flatten = wanted.before.reverse.flatten ++ text)
      (ht : ∀ front rest, w'.coming 0 unsent = front ++ rest → wanted.request.Takes front rest →
        wanted.request.Takes (text ++ front) rest)
      (hi : left.inside = true) (hm : w'.Minds 0 left) : Serves w unsent wanted (w', .waiting left)

theorem serves_read {wanted : Wanted} (task : Nat) (h : w.Legible 0 unsent)
    (hh : w.Answered 0 wanted.inside) (hm : w.Minds 0 wanted) :
    Serves w unsent wanted (w.read task 0 wanted) := by
  by_cases hr : wanted.request = .piece
  · obtain ⟨request, inside, done⟩ := wanted
    obtain rfl : request = .piece := hr
    have hpiece := World.gives_readPiece task inside h (fun hi => hh.unasked hi) hm
    unfold World.read
    simp only
    generalize w.readPiece task 0 inside = r at hpiece ⊢
    cases hpiece with
    | piece hg _ _ => exact .text hg fun he => absurd he (List.cons_ne_nil _ _)
    | ended hg hn _ => exact .text hg fun _ => hg.coming.symm.trans hn
    | waits hg hp => exact .waiting hg rfl rfl (fun _ _ _ ht => ht) rfl fun _ => hp
  · have hfetch := World.fetches_read task h (fun hi => hh.unasked hi) hm hr
    generalize w.read task 0 wanted = r at hfetch ⊢
    cases hfetch with
    | text hg _ => exact .text hg (Request.takes_of_split hr hg.coming rfl)
    | @waiting _ _ begun hg hrequest hb hs hi hm =>
      refine .waiting hg hrequest hb (fun front rest hc ht => ?_) hi hm
      rw [Request.takes_iff hr] at ht
      have hall : w.coming 0 unsent = (begun ++ front) ++ rest := by
        rw [hg.coming, hc, List.append_assoc]
      exact Request.takes_of_split hr hall (by rw [hs, hc, ht])

/-! ## 4. The reader -/

/-- What a reader of a text has got so far, and what is left: texts that are not empty and then empty ones, which
come when nothing is left. -/
structure Served (text : List Char) (got : List String) (left : List Char) : Prop where
  text : got.flatMap String.toList ++ left = text
  order : ∃ texts ends, got = texts ++ ends ∧ (∀ t ∈ texts, t ≠ "") ∧ (∀ t ∈ ends, t = "") ∧
    (ends ≠ [] → left = [])

theorem Served.next {text front left : List Char} {got : List String}
    (h : Served text got (front ++ left)) (hn : front = [] → left = []) :
    Served text (got ++ [String.ofList front]) left where
  text := by
    rw [List.flatMap_append, List.flatMap_singleton, String.toList_ofList, List.append_assoc]
    exact h.text
  order := by
    obtain ⟨texts, ends, rfl, htexts, hends, hleft⟩ := h.order
    -- An empty text is an end, and a text that is not empty comes before all ends.
    by_cases hf : front = []
    · subst hf
      refine ⟨texts, ends ++ [""], by rw [List.append_assoc], htexts, ?_, fun _ => hn rfl⟩
      intro t ht
      rcases List.mem_append.mp ht with ht | ht
      · exact hends t ht
      · exact List.mem_singleton.mp ht
    · -- Something came, so nothing had come to an end.
      have hnone : ends = [] := by
        by_contra hne
        exact hf (List.append_eq_nil_iff.mp (hleft hne)).1
      subst hnone
      refine ⟨texts ++ [String.ofList front], [], by simp, ?_, nofun, fun hne => absurd rfl hne⟩
      intro t ht
      rcases List.mem_append.mp ht with ht | ht
      · exact htexts t ht
      · rw [List.mem_singleton.mp ht]
        intro he
        have hempty := congrArg String.toList he
        rw [String.toList_ofList] at hempty
        exact hf hempty

/-- Whatever was asked for, texts come first and then the end. -/
theorem Shares.served {text left : List Char} {requests : List Request} {got : List String}
    (h : Shares text requests got left) : Served text got left := by
  induction h with
  | none => exact ⟨rfl, [], [], rfl, nofun, nofun, fun hne => absurd rfl hne⟩
  | next _ ht ih => exact ih.next (eq_nil_of_takes ht)

/-- The first of the requests have been met, and these are the others. -/
def Asks (w : World) (unsent : List UInt8) (text : List Char) (requests left : List Request)
    (got : List String) : Prop :=
  ∃ done, requests = done ++ left ∧ Shares text done got (w.coming 0 unsent)

/-- A part of what is wanted has been read. What the request takes off the rest goes behind it. -/
structure Awaits (w : World) (unsent : List UInt8) (text : List Char) (requests : List Request)
    (wanted : Wanted) (left : List Request) (got : List String) : Prop where
  minds : w.Minds 0 wanted
  shares : ∃ done, requests = done ++ wanted.request :: left ∧
    ∀ front rest, w.coming 0 unsent = front ++ rest → wanted.request.Takes front rest →
      Shares text (done ++ [wanted.request])
        (got ++ [String.ofList (wanted.before.reverse.flatten ++ front)]) rest

variable {text : List Char} {requests left : List Request} {got : List String} {total total' : Nat}

/-- This depends on what is pending and on what is to come. -/
theorem Awaits.congr {wanted : Wanted} (h : Awaits w unsent text requests wanted left got)
    (hp : (w'.input 0).pending = (w.input 0).pending)
    (hc : w'.coming 0 unsent' = w.coming 0 unsent) :
    Awaits w' unsent' text requests wanted left got where
  minds := by
    have hm := h.minds
    unfold World.Minds Input.IsInLine Input.pendingText at hm ⊢
    rw [hp]
    exact hm
  shares := by
    rw [hc]
    exact h.shares

/-- A new request. -/
theorem Asks.awaits {request : Request} (h : Asks w unsent text requests (request :: left) got) :
    Awaits w unsent text requests ⟨request, false, []⟩ left got where
  minds := fun he => by cases he
  shares := by
    obtain ⟨done, hr, hs⟩ := h
    have hnew : (⟨request, false, []⟩ : Wanted).before.reverse.flatten = [] := by
      cases request <;> rfl
    refine ⟨done, hr, fun front rest hc ht => ?_⟩
    rw [hc] at hs
    rw [hnew]
    exact hs.next ht

/-- The request has been met. -/
theorem Awaits.asks {wanted : Wanted} {front : List Char}
    (h : Awaits w unsent text requests wanted left got) (hg : w.Gives 0 unsent front w')
    (ht : wanted.request.Takes front (w'.coming 0 unsent)) :
    Asks w' unsent text requests left
      (got ++ [String.ofList (wanted.before.reverse.flatten ++ front)]) := by
  obtain ⟨done, hr, hs⟩ := h.shares
  exact ⟨done ++ [wanted.request], by rw [hr, List.append_assoc, List.singleton_append],
    hs front _ hg.coming ht⟩

/-- More has been read of what is wanted. -/
theorem Awaits.goOn {wanted wanted' : Wanted} {front : List Char}
    (h : Awaits w unsent text requests wanted left got) (hg : w.Gives 0 unsent front w')
    (hr : wanted'.request = wanted.request)
    (hb : wanted'.before.reverse.flatten = wanted.before.reverse.flatten ++ front)
    (ht : ∀ more rest, w'.coming 0 unsent = more ++ rest → wanted.request.Takes more rest →
      wanted.request.Takes (front ++ more) rest) (hm : w'.Minds 0 wanted') :
    Awaits w' unsent text requests wanted' left got where
  minds := hm
  shares := by
    obtain ⟨done, hdone, hs⟩ := h.shares
    rw [hr, hb]
    refine ⟨done, hdone, fun more rest hc hmore => ?_⟩
    rw [List.append_assoc]
    refine hs (front ++ more) rest ?_ (ht more rest hc hmore)
    rw [hg.coming, hc, List.append_assoc]

/-- The ways a turn of a reader can go that has so many requests left: it waits with no more of them left, or it has
all that it asked for. -/
inductive Gets (w : World) (task : Nat) (unsent : List UInt8) (text : List Char)
    (requests : List Request) (total : Nat) : World × Phase (List String) → Prop where
  | waits {w₁ w' : World} {wanted : Wanted} {left : List Request} {got : List String}
      (h : World.ReadsOn 0 w w₁) (hu : w₁.Unasked 0) (hp : w₁.Pauses task 0 w')
      (hr : w'.Legible 0 unsent) (ha : Awaits w' unsent text requests wanted left got)
      (hi : wanted.inside = true) (hl : left.length + 1 ≤ total) :
      Gets w task unsent text requests total (w', .active (awaiting wanted left got))
  | ends {w' : World} {got : List String} (h : World.ReadsOn 0 w w') (hu : w'.Unasked 0)
      (hr : w'.Legible 0 unsent) (hs : Shares text requests got (w'.coming 0 unsent))
      (hl : 0 < total ∨ w' = w) :
      Gets w task unsent text requests total (w', .ended (.ok got))

theorem Gets.prepend {r : World × Phase (List String)} (h : World.ReadsOn 0 w w₁)
    (hl : total' < total) (h' : Gets w₁ task unsent text requests total' r) :
    Gets w task unsent text requests total r := by
  cases h' with
  | waits hr hu hp hread ha hi hle => exact .waits (h.trans hr) hu hp hread ha hi (by omega)
  | ends hr hu hread hs _ => exact .ends (h.trans hr) hu hread hs (.inl (by omega))

/-- A request is met, and then the reader goes on as it does when it has the text. -/
theorem gets_read {wanted : Wanted} (h : w.Legible 0 unsent) (hh : w.Answered 0 wanted.inside)
    (ha : Awaits w unsent text requests wanted left got)
    (hrest : ∀ (w : World) (got : List String), w.Legible 0 unsent → w.Unasked 0 →
      Asks w unsent text requests left got →
      Gets w task unsent text requests left.length ((reading left got).advance task w)) :
    Gets w task unsent text requests (left.length + 1)
      ((awaiting wanted left got).advance task w) := by
  have hserve := serves_read task h hh ha.minds
  have hhalt := World.halts_read task hh
  unfold awaiting Job.advance
  generalize w.read task 0 wanted = r at hserve hhalt ⊢
  cases hserve with
  | waiting hg hr hb ht hi hm =>
    obtain ⟨w₁, hreads, hu, hp⟩ := hhalt.exists_pause
    exact .waits hreads hu hp hg.legible (ha.goOn hg hr hb ht hm) hi (Nat.le_refl _)
  | @text w' front hg ht =>
    obtain ⟨hreads, hu⟩ := World.Halts.reads hhalt
    exact .prepend hreads (Nat.lt_succ_self _) (hrest w' _ hg.legible hu (ha.asks hg ht))

/-- **A turn of the reader** that begins with a new request, or with the end. -/
theorem gets_reading (left : List Request) {got : List String} (h : w.Legible 0 unsent)
    (hu : w.Unasked 0) (ha : Asks w unsent text requests left got) :
    Gets w task unsent text requests left.length ((reading left got).advance task w) := by
  induction left generalizing w got with
  | nil =>
    obtain ⟨done, hdone, hs⟩ := ha
    rw [List.append_nil] at hdone
    subst hdone
    exact .ends (.refl w 0) hu h hs (.inr rfl)
  | cons request left ih =>
    exact gets_read h hu.answered ha.awaits fun w got h hu ha => ih h hu ha

end Delivery

end Shell
