/-
What a job reads and writes.

`Job.Uses S input output` says of a job that it reads nothing but its input, and that it writes nothing but
its output and sinks. Its pipelines read and write the same at their ends, have at least one stage and some
room in their pipes, and each stage uses what it is given. After a pipeline the job goes on with results of
`S` alone, so nothing need be known of what it would do with any other.

A turn of such a job is work, and then its end, the start of a pipeline, or a wait for bytes of its input or
for room in its output (`Job.Uses.turn`). In this it is like the turn of a stage that starts no others.
-/
import Shell.Proofs.Job.Ends
import Shell.Proofs.Job.Rank
import Shell.Proofs.Pipeline.Stage
import Shell.Proofs.World.Carrying

set_option autoImplicit false

namespace Shell

variable {ρ : Type} {S : Except Abort ρ → Prop}

/-! ## 1. Outputs and requests -/

/-- What is written to this output may be written to the other one: a sink, or the same pipe. -/
def Output.Covers (output target : Output) : Prop := ∀ pipe, target = .pipe pipe → output = .pipe pipe

theorem Output.Covers.refl (output : Output) : output.Covers output := fun _ => id

theorem Output.covers_sink (output : Output) (index : Nat) : output.Covers (.sink index) := nofun

namespace World

variable {w w₁ w' : World} {task input : Nat} {output target : Output}

theorem Carries.of_covers {held held' : Nat} (h : w.Carries input target held held' w')
    (ho : output.Covers target) : w.Carries input output held held' w' :=
  ⟨⟨h.alike, h.input, fun c hs hc => h.pipe c hs fun ht => hc (ho c ht)⟩, h.goes⟩

theorem Clear.of_covers (h : w.Clear input output) (ho : output.Covers target) : w.Clear input target :=
  fun pipe ht => h pipe (ho pipe ht)

theorem request_readAll {tries : Nat} {inside : Bool} {done : List (List Char)} {left : Wanted}
    (h : w.readAll task input tries inside done = (w', .waiting left)) : left.request = .all := by
  induction tries generalizing w inside done with
  | zero => cases h
  | succ tries ih =>
    unfold readAll at h
    rcases hr : w.readPiece task input inside with ⟨w₁, - | (- | ⟨c, piece⟩)⟩ <;> rw [hr] at h
    · cases h
      rfl
    · cases h
    · exact ih h

theorem request_readContinued {lines : Nat} {inside : Bool} {done : List (List Char)} {left : Wanted}
    (h : w.readContinued task input lines inside done = (w', .waiting left)) :
    left.request = .continued := by
  induction lines generalizing w inside done with
  | zero => cases h
  | succ lines ih =>
    unfold readContinued at h
    rcases hr : w.readLine task input maxPieces inside with ⟨w₁, - | line⟩ <;> rw [hr] at h
    · cases h
      rfl
    · simp only at h
      split at h
      · exact ih h
      · cases h

/-- What is left of a write that has to wait. -/
theorem ne_nil_of_send {pipe : Nat} {bytes rest : List UInt8}
    (h : w.send task pipe bytes = (w', .waiting rest)) : rest ≠ [] := by
  have hs := w.sends task pipe bytes
  rw [h] at hs
  cases hs with
  | full hb _ _ => exact hb
  | part _ _ hd => exact hd

theorem ne_nil_of_write {text : String} {rest : List UInt8}
    (h : w.write task target text = (w', .waiting rest)) : rest ≠ [] := by
  cases target with
  | sink index => cases h
  | pipe pipe => exact ne_nil_of_send h

/-- A reader that waits goes on with the same request. -/
theorem request_of_waiting {wanted left : Wanted} (h : w.read task input wanted = (w', .waiting left)) :
    left.request = wanted.request := by
  unfold read at h
  cases hrequest : wanted.request with
  | piece =>
    rcases hr : w.readPiece task input wanted.inside with ⟨w₁, - | text⟩ <;>
      simp only [hrequest, hr] at h <;> cases h
    rfl
  | line =>
    rcases hr : w.readLine task input maxPieces wanted.inside with ⟨w₁, - | text⟩ <;>
      simp only [hrequest, hr] at h <;> cases h
    rfl
  | continued =>
    rcases hr : w.readLine task input maxPieces wanted.inside with ⟨w₁, - | line⟩ <;>
      simp only [hrequest, hr] at h
    · cases h
      rfl
    · split at h
      · exact request_readContinued h
      · cases h
  | all =>
    simp only [hrequest] at h
    exact request_readAll h

theorem request_of_reading {turns : Nat} {wanted left : Wanted} {number last : Option Nat}
    (h : w.copy task input target turns wanted number = (w', .reading left last)) :
    left.request = wanted.request := by
  induction turns generalizing w wanted number with
  | zero =>
    cases h
    rfl
  | succ turns ih =>
    rcases hr : w.read task input wanted with ⟨w₁, (- | ⟨c, text⟩) | rest⟩
    · rw [copy, hr] at h
      cases h
    · obtain ⟨line, last', hcopy⟩ := copy_of_text target turns number hr (List.cons_ne_nil c text)
      rw [hcopy] at h
      rcases hwrite : w₁.write task target line with ⟨w₂, _ | _ | _⟩ <;> rw [hwrite] at h
      · exact (ih h :)
      · cases h
      · cases target <;> cases h
    · rw [copy, hr] at h
      cases h
      exact request_of_waiting hr

theorem ne_nil_of_copy {turns pipe : Nat} {wanted : Wanted} {number last : Option Nat} {rest : List UInt8}
    (h : w.copy task input target turns wanted number = (w', .writing pipe rest last)) : rest ≠ [] := by
  induction turns generalizing w wanted number with
  | zero => cases h
  | succ turns ih =>
    rcases hr : w.read task input wanted with ⟨w₁, (- | ⟨c, text⟩) | left⟩
    · rw [copy, hr] at h
      cases h
    · obtain ⟨line, last', hcopy⟩ := copy_of_text target turns number hr (List.cons_ne_nil c text)
      rw [hcopy] at h
      rcases hwrite : w₁.write task target line with ⟨w₂, _ | _ | left⟩ <;> rw [hwrite] at h
      · exact ih h
      · cases h
      · cases target with
        | sink index => cases h
        | pipe pipe =>
          cases h
          exact ne_nil_of_write hwrite
    · rw [copy, hr] at h
      cases h

end World

/-! ## 2. Jobs and their streams

A job reads the input and writes the output that it was given, and otherwise only sinks. The stages that it starts
do the same with their own. -/

/-- A job that reads one input and writes one output and sinks, if stages end in one of the ways `S`. -/
inductive Job.Uses (S : Except Abort ρ → Prop) : Nat → Output → Job ρ → Prop where
  | finish {input : Nat} {output : Output} {result : ρ} : Uses S input output (.finish result)
  | fail {input : Nat} {output : Output} {abort : Abort} : Uses S input output (.fail abort)
  | read {input : Nat} {output : Output} {wanted : Wanted} {next : String → Job ρ}
      (h : ∀ text, Uses S input output (next text)) : Uses S input output (.read input wanted next)
  | write {input : Nat} {output target : Output} {text : String} {next : Option Abort → Job ρ}
      (ho : output.Covers target) (h : Uses S input output (next none))
      (hr : ∀ abort, target.Refuses abort → Uses S input output (next (some abort))) :
      Uses S input output (.write target text next)
  | copy {input : Nat} {output target : Output} {wanted : Wanted} {number : Option Nat}
      {next : Except Abort (Option Nat) → Job ρ} (ho : output.Covers target)
      (hw : wanted.request.IsSingle) (h : ∀ last, Uses S input output (next (.ok last)))
      (hr : ∀ abort, target.Refuses abort → Uses S input output (next (.error abort))) :
      Uses S input output (.copy input target wanted number next)
  | count {input : Nat} {output : Output} {next : Nat → Job ρ} (h : ∀ n, Uses S input output (next n)) :
      Uses S input output (.count next)
  | openSink {input : Nat} {output : Output} {next : Nat → Job ρ}
      (h : ∀ index, Uses S input output (next index)) : Uses S input output (.openSink next)
  | sinkText {input index : Nat} {output : Output} {next : String → Job ρ}
      (h : ∀ text, Uses S input output (next text)) : Uses S input output (.sinkText index next)
  | pipeline {input stages capacity : Nat} {output target : Output}
      {stage : Nat → Nat → Output → Job ρ} {next : Except Abort ρ → Job ρ} (ho : output.Covers target)
      (hs : 1 ≤ stages) (hc : 1 ≤ capacity)
      (hstage : ∀ index input output, Uses S input output (stage index input output))
      (hnext : ∀ r, S r → Uses S input output (next r)) :
      Uses S input output (.pipeline stages capacity input target stage next)

/-- What a task is at between its turns: it has still to do a job, or to put bytes into its pipe before. -/
inductive Job.Busy (S : Except Abort ρ → Prop) (input : Nat) (output : Output) : Job ρ → Prop where
  | rests {job : Job ρ} (h : job.Uses S input output) : Busy S input output job
  | sends {pipe : Nat} {bytes : List UInt8} {next : Option Abort → Job ρ} (ho : output = .pipe pipe)
      (hb : bytes ≠ []) (h : (next none).Uses S input output)
      (hr : ∀ abort, output.Refuses abort → (next (some abort)).Uses S input output) :
      Busy S input output (.send pipe bytes next)

/-! ## 3. Turns

A turn is work up to the point where the job ends, starts a pipeline or waits. So it is enough to look at the last
thing that happens. -/

namespace World

/-- What a task needs of the world: it does not read from the host, nor from the pipe that it writes. -/
structure Admits (w : World) (input : Nat) (output : Output) : Prop where
  supply : (w.input input).supply ≠ .host
  clear : w.Clear input output

variable {w w₁ w' : World} {task input : Nat} {output : Output}

theorem Admits.of_works (h : w.Admits input output) (hw : w.Works w') : w'.Admits input output where
  supply := by
    rw [hw.supply]
    exact h.supply
  clear := h.clear.of_alike hw.toAlike

/-- The ways a turn of a task can go: it ends, it starts a pipeline, or it waits for bytes or for room. -/
inductive UserTurn (S : Except Abort ρ → Prop) (w : World) (task input : Nat) (output : Output) :
    World × Phase ρ → Prop where
  | ends {w' : World} {result : Except Abort ρ} (hw : w.Works w') :
      UserTurn S w task input output (w', .ended result)
  | starts {w' : World} {stages capacity : Nat} {target : Output} {stage : Nat → Nat → Output → Job ρ}
      {next : Except Abort ρ → Job ρ} (hw : w.Works w') (ho : output.Covers target) (hs : 1 ≤ stages)
      (hc : 1 ≤ capacity) (hstage : ∀ index input output, (stage index input output).Uses S input output)
      (hnext : ∀ r, S r → (next r).Uses S input output) :
      UserTurn S w task input output (w', .starting stages capacity input target stage next)
  | reads {w' : World} {pipe : Nat} {job : Job ρ} (hw : w.Works w')
      (hs : (w'.input input).supply = .pipe pipe)
      (he : (w'.channel pipe).pipe.isWaiting = true) (hj : job.Busy S input output) :
      UserTurn S w task input output (w'.wait pipe task, .active job)
  | writes {w' : World} {pipe : Nat} {job : Job ρ} (hw : w.Works w') (ho : output = .pipe pipe)
      (hopen : (w'.channel pipe).pipe.IsOpen) (hf : (w'.channel pipe).pipe.room = 0)
      (hj : job.Busy S input output) :
      UserTurn S w task input output (w'.wait pipe task, .active job)

/-- A turn that begins with work. -/
theorem UserTurn.prepend {r : World × Phase ρ} (hw : w.Works w₁)
    (h : w₁.UserTurn S task input output r) : w.UserTurn S task input output r := by
  cases h with
  | ends hw' => exact .ends (hw.trans hw')
  | starts hw' ho hs hc hstage hnext => exact .starts (hw.trans hw') ho hs hc hstage hnext
  | reads hw' hs he hj => exact .reads (hw.trans hw') hs he hj
  | writes hw' ho hopen hf hj => exact .writes (hw.trans hw') ho hopen hf hj

/-- A turn that ends with a wait for bytes. -/
theorem UserTurn.of_waits {job : Job ρ} (hn : (w.input input).supply ≠ .host)
    (hs : w.Supplies task input (w', none)) (hj : job.Uses S input output) :
    w.UserTurn S task input output (w', .active job) := by
  cases hs with
  | waits hw hp he => exact .reads hw hp he (.rests hj)
  | host _ hh _ => exact absurd hh hn

end World

open World in
/-- A turn of a job is work, and then its end, the start of a pipeline, or a wait. -/
theorem Job.Uses.turn {job : Job ρ} {input : Nat} {output : Output} (hj : job.Uses S input output)
    {w : World} (task : Nat) (hs : w.Admits input output) :
    w.UserTurn S task input output (job.advance task w) := by
  induction hj generalizing w with
  | finish => exact .ends (.refl w)
  | fail => exact .ends (.refl w)
  | @read input output wanted next h ih =>
    have hm := w.meets_read task input wanted
    unfold advance
    generalize w.read task input wanted = r at hm ⊢
    cases hm with
    | text hsup => exact .prepend hsup.works (ih _ (hs.of_works hsup.works))
    | waiting hsup => exact .of_waits hs.supply hsup (.read h)
  | @write input output target text next ho h hr ih ihr =>
    have hwr := w.writes_write task target text
    unfold advance
    rcases hwrite : w.write task target text with ⟨w₁, _ | abort | rest⟩
    · rw [hwrite] at hwr
      cases hwr with
      | all hw _ _ => exact .prepend hw (ih (hs.of_works hw))
    · have hrefuses := refuses_of_write hwrite
      rw [hwrite] at hwr
      cases hwr with
      | refused _ => exact ihr _ hrefuses hs
    · rw [hwrite] at hwr
      cases hwr with
      | waits hw hopen hf =>
        have hout := ho _ rfl
        exact .writes hw hout hopen hf
          (.sends hout (ne_nil_of_write hwrite) h fun abort ha => hr abort (hout ▸ ha))
  | @copy input output target wanted number next ho hwanted h hr ih ihr =>
    have hc := w.copies task input target (w.stock input) wanted number
    unfold advance
    rcases hcopy : w.copy task input target (w.stock input) wanted number with
      ⟨w₁, last | abort | ⟨left, last⟩ | ⟨pipe, rest, last⟩⟩
    · rw [hcopy] at hc
      cases hc with
      | all hw => exact .prepend hw (ih _ (hs.of_works hw))
    · have hrefuses := refuses_of_copy hcopy
      rw [hcopy] at hc
      cases hc with
      | refused hw _ _ => exact .prepend hw (ihr _ hrefuses (hs.of_works hw))
    -- The copy has stopped, and as the streams are apart it is for want of bytes.
    · have hrequest := request_of_reading hcopy
      rw [hcopy] at hc
      exact .of_waits hs.supply (hc.of_stock (hs.clear.of_covers ho).apart)
        (.copy ho (by rwa [hrequest]) h hr)
    · rw [hcopy] at hc
      cases hc with
      | writing hw htarget hopen hf =>
        have hout := ho pipe htarget
        have hr' : ∀ abort, output.Refuses abort → (next (.error abort)).Uses S input output :=
          fun abort ha => hr abort (by rw [htarget, ← hout]; exact ha)
        exact .writes hw hout hopen hf
          (.sends hout (ne_nil_of_copy hcopy) (.copy ho hwanted h hr) hr')
  | @count input output next h ih =>
    have hw := works_aside w (Nat.le_succ _) w.sinks
    exact .prepend hw (ih _ (hs.of_works hw))
  | @openSink input output next h ih =>
    have hw := works_aside w (Nat.le_refl _) (w.sinks.push [])
    exact .prepend hw (ih _ (hs.of_works hw))
  | sinkText h ih => exact ih _ hs
  | pipeline ho hstages hc hstage hnext => exact .starts (.refl w) ho hstages hc hstage hnext

open World in
/-- **Every turn of a task** is work, and then its end, the start of a pipeline, or a wait. -/
theorem Job.Busy.turn {job : Job ρ} {input : Nat} {output : Output} (hj : job.Busy S input output)
    {w : World} (task : Nat) (hs : w.Admits input output) :
    w.UserTurn S task input output (job.advance task w) := by
  cases hj with
  | rests h => exact h.turn task hs
  | @sends pipe bytes next ho hb h hr =>
    have hwr := w.writes_send task pipe bytes
    unfold advance
    rcases hsend : w.send task pipe bytes with ⟨w₁, _ | abort | rest⟩
    · rw [hsend] at hwr
      cases hwr with
      | all hw _ _ => exact .prepend hw (h.turn task (hs.of_works hw))
    · have hrefuses := refuses_of_send hsend
      rw [hsend] at hwr
      cases hwr with
      | refused _ => exact (hr _ (ho ▸ hrefuses)).turn task hs
    · rw [hsend] at hwr
      cases hwr with
      | waits hw hopen hf => exact .writes hw ho hopen hf (.sends ho (ne_nil_of_send hsend) h hr)

/-! ## 4. Turns that come to the same job

A job that neither ends nor comes to a lower rank is a copy, or waits for what it has waited for. Then either bytes
have moved or nothing at all has changed. -/

/-- The bytes that a job holds back until there is room for them. -/
def Job.held : Job ρ → Nat
  | .send _ bytes _ => bytes.length
  | _ => 0

/-- What is left of a job that waits again is of a lower rank, unless the job had nothing else to do. -/
theorem Job.rank_of_advance {job rest : Job ρ} {task : Nat} {w w' : World}
    (h : job.advance task w = (w', .active rest)) : rest.rank ≤ job.rank := by
  have hw := job.within_advance task w
  rw [h] at hw
  cases hw with
  | active h => exact h

section

variable {w w₁ w' : World} {task input : Nat} {output target : Output} {rest : Job ρ} {job : Job ρ}

/-- A job of a lower rank does not come to the same rank again. -/
theorem Job.not_same_rank {next : Job ρ} (h : next.advance task w = (w', .active rest))
    (hlt : next.rank < job.rank) (hr : rest.rank = job.rank) : False :=
  absurd hr (ne_of_lt (lt_of_le_of_lt (rank_of_advance h) hlt))

open World in
/-- A task that can only wait again has carried data on, or nothing has happened. -/
theorem Job.Uses.carries (hj : job.Uses S input output) (hs : w.Admits input output)
    (ha : job.advance task w = (w', .active rest)) (hr : rest.rank = job.rank) :
    w.Carries input output 0 rest.held w' := by
  cases hj with
  | finish | fail | pipeline => cases ha
  | @read _ _ wanted next h =>
    have hm := w.meets_read task input wanted
    unfold advance at ha
    rcases hread : w.read task input wanted with ⟨w₁, text | left⟩ <;> rw [hread] at ha hm
    · exact (not_same_rank ha (rank_lt_iSup_add_one next _) hr).elim
    · obtain ⟨rfl, hrest⟩ := Prod.mk.inj ha
      obtain rfl := Phase.active.inj hrest
      cases hm with
      | waiting hsup => exact carries_of_waits hs.supply (sheds_of_waiting hs.supply hread) hsup output
  | @write _ _ target text next ho h hrefused =>
    unfold advance at ha
    rcases hwrite : w.write task target text with ⟨w₁, _ | abort | left⟩ <;> rw [hwrite] at ha
    · exact (not_same_rank ha (rank_lt_iSup_add_one next _) hr).elim
    · exact (not_same_rank ha (rank_lt_iSup_add_one next _) hr).elim
    · cases target with
      | sink index => exact (not_same_rank ha (rank_lt_iSup_add_one next _) hr).elim
      -- What is left of the write is of a lower rank than the write.
      | pipe pipe =>
        obtain ⟨-, hrest⟩ := Prod.mk.inj ha
        obtain rfl := Phase.active.inj hrest
        exact absurd hr (ne_of_lt (lt_add_one (⨆ refusal, (next refusal).rank)))
  | @copy _ _ target wanted number next ho hwanted h hrefused =>
    have hc := w.copies task input target (w.stock input) wanted number
    have hclear := hs.clear.of_covers ho
    unfold advance at ha
    rcases hcopy : w.copy task input target (w.stock input) wanted number with
      ⟨w₁, last | abort | ⟨left, last⟩ | ⟨pipe, bytes, last⟩⟩ <;> rw [hcopy] at ha hc
    · exact (not_same_rank ha (rank_lt_iSup_add_one next _) hr).elim
    · exact (not_same_rank ha (rank_lt_iSup_add_one next _) hr).elim
    · obtain ⟨rfl, hrest⟩ := Prod.mk.inj ha
      obtain rfl := Phase.active.inj hrest
      exact (carries_of_reading hs.supply hclear hwanted hcopy (hc.of_stock hclear.apart)).of_covers ho
    · obtain ⟨rfl, hrest⟩ := Prod.mk.inj ha
      exact (carries_of_writing hs.supply hclear hwanted hcopy).of_covers ho
  | @count _ _ next h =>
    unfold advance at ha
    exact (not_same_rank ha (rank_lt_iSup_add_one next _) hr).elim
  | @openSink _ _ next h =>
    unfold advance at ha
    exact (not_same_rank ha (rank_lt_iSup_add_one next _) hr).elim
  | @sinkText _ _ _ next h =>
    unfold advance at ha
    exact (not_same_rank ha (rank_lt_iSup_add_one next _) hr).elim

theorem Job.Uses.held (hj : job.Uses S input output) : job.held = 0 := by
  cases hj <;> rfl

/-- Bytes that were held back have gone, or will not be written any more. -/
theorem World.Carries.after {held held' : Nat} (h : w₁.Carries input output 0 held' w')
    (hf : w.Fills output w₁) (hc : w.Clear input output) (hheld : 0 < held) :
    w.Carries input output held held' w' := by
  have hburden := hf.burden_eq hc
  refine ⟨(hf.touches input).trans h.toTouches, ?_⟩
  cases h.goes with
  | reads hlt => exact .reads (hburden ▸ hlt)
  | writes _ hlt => exact absurd hlt (Nat.not_lt_zero _)
  | still _ hb _ => exact .writes (hb.trans hburden) hheld

open World in
/-- **A task that comes to a job of the same rank has carried data on**, or nothing has happened. -/
theorem Job.Busy.carries (hj : job.Busy S input output) (hs : w.Admits input output)
    (ha : job.advance task w = (w', .active rest)) (hr : rest.rank = job.rank) :
    w.Carries input output job.held rest.held w' := by
  cases hj with
  | rests h =>
    rw [h.held]
    exact h.carries hs ha hr
  | @sends pipe bytes next ho hb h hrefused =>
    have hheld : 0 < bytes.length := List.length_pos_iff.mpr hb
    -- What follows the bytes comes to the same rank, so it has that rank.
    have hfollows {next' : Job ρ} {w₁ : World} (hnext : next'.Uses S input output)
        (hle : next'.rank ≤ (Job.send pipe bytes next).rank) (hf : w.Fills output w₁)
        (ha : next'.advance task w₁ = (w', .active rest)) :
        w.Carries input output bytes.length rest.held w' := by
      have hsame : rest.rank = next'.rank := le_antisymm (rank_of_advance ha) (hr ▸ hle)
      have hadmits : w₁.Admits input output :=
        ⟨by rw [hf.alike.supply]; exact hs.supply, hs.clear.of_alike hf.alike⟩
      exact (hnext.carries hadmits ha hsame).after hf hs.clear hheld
    have hsends := w.sends task pipe bytes
    have hfills := w.fills_send task pipe bytes
    rw [← ho] at hfills
    unfold advance at ha
    rcases hsend : w.send task pipe bytes with ⟨w₁, _ | abort | left⟩ <;> rw [hsend] at ha hsends hfills
    · exact hfollows h (rank_le_iSup next none) hfills ha
    · have hrefuses := refuses_of_send hsend
      exact hfollows (hrefused abort (ho ▸ hrefuses)) (rank_le_iSup next (some abort)) hfills ha
    · obtain ⟨rfl, hrest⟩ := Prod.mk.inj ha
      obtain rfl := Phase.active.inj hrest
      refine ⟨hfills.touches input, ?_⟩
      cases hsends with
      | full => exact .still (pipe_wait w pipe task) (hfills.burden_eq hs.clear) rfl
      | part _ hroom _ =>
        refine .writes (hfills.burden_eq hs.clear) ?_
        show (bytes.drop (w.channel pipe).pipe.room).length < bytes.length
        rw [List.length_drop]
        omega

end

end Shell
