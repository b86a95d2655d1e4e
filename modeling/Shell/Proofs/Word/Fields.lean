/-
Fields are what lies between delimiters.

Splitting goes over an expansion once, with the field that is being read and a note of what the last
delimiter was. What it is meant to find is said here without that: take away the white space at both
ends, cut at every longest delimiter, and forget the last piece if there is nothing in it (`Cut`,
`kept`). A delimiter is a run of white space, or one other character of IFS with the white space around it.

The two meet in symbols. A character is one of three things to splitting, and quoted text is a mark,
which makes a field of it even if it is empty, and its characters. On symbols splitting is a machine
(`Splitting.step`) that a longest delimiter brings to one and the same state wherever it begins
(`Cut.fields_foldl`). That no character is lost, and that quoted text is never cut, is seen on the machine alone.
-/
import Mathlib.Data.List.DropRight
import Mathlib.Data.Nat.Find
import Shell.Field

set_option autoImplicit false

namespace Shell.Field

/-! ## 1. Symbols -/

/-- What splitting sees of an expansion. -/
inductive Symbol where
  /-- An unquoted blank, tab or newline of IFS. -/
  | space
  /-- Any other unquoted character of IFS. -/
  | separator
  /-- A character that belongs to a field. -/
  | content (c : Char)
  /-- The beginning of quoted text. -/
  | mark
  deriving DecidableEq, Repr

namespace Symbol

def isSpace : Symbol → Bool
  | space => true
  | _ => false

/-- Whether a symbol is part of a delimiter. -/
def delimits : Symbol → Bool
  | space | separator => true
  | content _ | mark => false

/-- The character that a field has of a symbol. -/
def text : Symbol → List Char
  | content c => [c]
  | _ => []

/-- What an unquoted character is. -/
def ofChar (ifs : List Char) (c : Char) : Symbol :=
  if ifs.contains c then if Field.isSpace c then space else separator else content c

end Symbol

open Shell.Field.Symbol

/-- A segment without boundaries, as splitting sees it. -/
def Segment.symbols (ifs : String) : Segment → List Symbol
  | .plain text => text.toList.map (Symbol.ofChar ifs.toList)
  | .quoted text => mark :: text.toList.map content
  | .boundary => []

/-- Segments without boundaries, as splitting sees them. -/
def symbols (ifs : String) (segments : List Segment) : List Symbol :=
  segments.flatMap (Segment.symbols ifs)

/-- The characters that fields have of some symbols. -/
def contents (symbols : List Symbol) : List Char := symbols.flatMap Symbol.text

/-! ## 2. Cutting at the longest delimiters -/

/-- A run of white space, or another character of IFS with the white space around it. -/
inductive IsDelimiter : List Symbol → Prop where
  | spaces (n : Nat) : IsDelimiter (.replicate (n + 1) space)
  | separator (before after : Nat) :
      IsDelimiter (.replicate before space ++ separator :: .replicate after space)

/-- A delimiter that is the longest one where it begins, with `rest` after it. -/
structure IsLongest (delimiter rest : List Symbol) : Prop where
  isDelimiter : IsDelimiter delimiter
  longest : ∀ other, IsDelimiter other → other <+: delimiter ++ rest →
    other.length ≤ delimiter.length

/-- Symbols and the pieces between their longest delimiters. -/
inductive Cut : List Symbol → List (List Symbol) → Prop where
  | whole {piece : List Symbol} (hp : ∀ x ∈ piece, x.delimits = false) : Cut piece [piece]
  | cons {piece delimiter rest : List Symbol} {pieces : List (List Symbol)}
      (hp : ∀ x ∈ piece, x.delimits = false) (hd : IsLongest delimiter rest)
      (hr : Cut rest pieces) : Cut (piece ++ (delimiter ++ rest)) (piece :: pieces)

/-- Symbols without the white space at both ends. -/
def trim (symbols : List Symbol) : List Symbol :=
  (symbols.dropWhile Symbol.isSpace).rdropWhile Symbol.isSpace

/-- The pieces without the last one, if that has neither a character nor a mark. -/
def kept (pieces : List (List Symbol)) : List (List Symbol) :=
  if pieces.getLast? = some [] then pieces.dropLast else pieces

namespace IsDelimiter

/-- White space after a delimiter belongs to it. -/
theorem append_space {d : List Symbol} (h : IsDelimiter d) : IsDelimiter (d ++ [space]) := by
  cases h with
  | spaces n => exact List.replicate_succ' ▸ spaces (n + 1)
  | separator before after =>
    rw [List.append_assoc, List.cons_append, ← List.replicate_succ']
    exact separator before (after + 1)

/-- A symbol that delimits is a delimiter. -/
theorem singleton {x : Symbol} (h : x.delimits = true) : IsDelimiter [x] := by
  cases x with
  | space => exact spaces 0
  | separator => exact separator 0 0
  | content _ => cases h
  | mark => cases h

/-- A delimiter begins with a symbol that delimits. -/
theorem head?_append {d : List Symbol} (h : IsDelimiter d) (rest : List Symbol) :
    (d ++ rest).head? = some .space ∨ (d ++ rest).head? = some .separator := by
  cases h with
  | spaces n => exact .inl rfl
  | separator before after =>
    cases before with
    | zero => exact .inr rfl
    | succ n => exact .inl rfl

end IsDelimiter

namespace IsLongest

variable {d rest : List Symbol}

/-- What could make a delimiter longer does not follow it. -/
theorem head_ne (h : IsLongest d rest) {x : Symbol} (hx : IsDelimiter (d ++ [x])) :
    rest.head? ≠ some x := by
  intro hr
  obtain ⟨rest', rfl⟩ : ∃ rest', rest = x :: rest' := by
    cases rest with
    | nil => cases hr
    | cons y rest' => exact ⟨rest', by cases hr; rfl⟩
  have hle := h.longest (d ++ [x]) hx ⟨rest', by simp⟩
  rw [List.length_append, List.length_singleton] at hle
  omega

/-- After a longest delimiter comes no white space. -/
theorem head_ne_space (h : IsLongest d rest) : rest.head? ≠ some space :=
  h.head_ne h.isDelimiter.append_space

end IsLongest

/-- Where a symbol delimits, a longest delimiter begins. -/
theorem exists_isLongest {x : Symbol} (hx : x.delimits = true) (s : List Symbol) :
    ∃ d rest, x :: s = d ++ rest ∧ d ≠ [] ∧ IsLongest d rest := by
  classical
  let n := Nat.findGreatest (fun n => IsDelimiter ((x :: s).take n)) (x :: s).length
  have hone : 1 ≤ (x :: s).length := Nat.le_add_left 1 s.length
  have hn : IsDelimiter ((x :: s).take n) :=
    Nat.findGreatest_spec (P := fun n => IsDelimiter ((x :: s).take n)) hone (.singleton hx)
  have hpos : 1 ≤ n :=
    Nat.le_findGreatest (P := fun n => IsDelimiter ((x :: s).take n)) hone (.singleton hx)
  have hlen : ((x :: s).take n).length = n := List.length_take_of_le (Nat.findGreatest_le _)
  refine ⟨(x :: s).take n, (x :: s).drop n, (List.take_append_drop ..).symm, ?_, hn, ?_⟩
  · intro he
    rw [he, List.length_nil] at hlen
    omega
  · intro other ho hp
    rw [List.take_append_drop] at hp
    rw [hlen]
    refine Nat.le_findGreatest hp.length_le ?_
    rwa [← List.prefix_iff_eq_take.mp hp]

/-- Symbols can be cut. -/
theorem exists_cut (s : List Symbol) : ∃ pieces, Cut s pieces := by
  induction hn : s.length using Nat.strong_induction_on generalizing s with
  | h n ih =>
    have hpiece : ∀ x ∈ s.takeWhile (!·.delimits), x.delimits = false :=
      fun x hx => by simpa using List.mem_takeWhile_imp hx
    have hsplit := s.takeWhile_append_dropWhile (p := (!·.delimits))
    cases hd : s.dropWhile (!·.delimits) with
    | nil =>
      rw [hd, List.append_nil] at hsplit
      exact ⟨[s], .whole (hsplit ▸ hpiece)⟩
    | cons x rest =>
      have hx : x.delimits = true := by
        have := List.head_dropWhile_not (p := (!·.delimits)) (l := s) (by simp [hd])
        simpa [hd] using this
      obtain ⟨d, rest', hcut, hne, hlong⟩ := exists_isLongest hx rest
      -- A delimiter is not empty, so what follows it is shorter than all.
      have hshort : rest'.length < n := by
        rw [← hn, ← hsplit, hd, hcut]
        have := List.length_pos_iff.mpr hne
        simp only [List.length_append]
        omega
      obtain ⟨pieces, hpieces⟩ := ih _ hshort rest' rfl
      rw [← hsplit, hd, hcut]
      exact ⟨_, .cons hpiece hlong hpieces⟩

/-- There is always a piece. -/
theorem Cut.ne_nil {s : List Symbol} {pieces : List (List Symbol)} (h : Cut s pieces) :
    pieces ≠ [] := by
  cases h <;> exact List.cons_ne_nil _ _

/-- Only the last piece can be forgotten. -/
theorem kept_cons {pieces : List (List Symbol)} (h : pieces ≠ []) (piece : List Symbol) :
    kept (piece :: pieces) = piece :: kept pieces := by
  unfold kept
  rw [List.getLast?_cons_of_ne_nil h, List.dropLast_cons_of_ne_nil h]
  split <;> rfl

/-! ## 3. Splitting as a machine over symbols -/

namespace Splitting

/-- What a symbol does to splitting. -/
def step (s : Splitting) : Symbol → Splitting
  | space => if s.current.isSome then { s.close with afterSpace := true } else s
  | separator =>
    let s := if s.current.isNone && !s.afterSpace then { s with fields := [] :: s.fields } else s.close
    { s with afterSpace := false }
  | content c => s.add [c]
  | mark => s.add []

/-- **A character is its symbol** to splitting. -/
theorem char_eq (ifs : List Char) (s : Splitting) (c : Char) :
    s.char ifs c = s.step (Symbol.ofChar ifs c) := by
  unfold char Symbol.ofChar
  split
  · split <;> rfl
  · rfl

/-- A symbol that delimits ends the field that is read, or stands for an empty one, or does
nothing. -/
theorem step_cases {x : Symbol} (hx : x.delimits = true) (s : Splitting) :
    s.step x = s ∨ (s.current = none ∧ s.step x = ⟨[] :: s.fields, none, false⟩) ∨
      ∃ after, s.step x = { s.close with afterSpace := after } := by
  obtain ⟨fields, current, after⟩ := s
  cases x with
  | space =>
    cases current with
    | none => exact .inl rfl
    | some cs => exact .inr (.inr ⟨true, rfl⟩)
  | separator =>
    cases current with
    | none =>
      cases after with
      | false => exact .inr (.inl ⟨rfl, rfl⟩)
      | true => exact .inr (.inr ⟨false, rfl⟩)
    | some cs => exact .inr (.inr ⟨false, rfl⟩)
  | content c => cases hx
  | mark => cases hx

/-- Characters are added one after the other. -/
theorem add_add (s : Splitting) (cs ds : List Char) : (s.add cs).add ds = s.add (cs ++ ds) := by
  simp [add]

/-- A symbol that does not delimit is added to the field. -/
theorem step_eq_add {x : Symbol} (hx : x.delimits = false) (s : Splitting) : s.step x = s.add x.text := by
  cases x with
  | space | separator => cases hx
  | content c => rfl
  | mark => rfl

/-- Symbols that do not delimit make the field longer. -/
theorem foldl_piece {piece : List Symbol} (hp : ∀ x ∈ piece, x.delimits = false) (cs : List Char)
    (s : Splitting) : piece.foldl step (s.add cs) = s.add (cs ++ contents piece) := by
  induction piece generalizing cs with
  | nil => simp [contents]
  | cons x piece ih =>
    rw [List.foldl_cons, step_eq_add (hp x List.mem_cons_self), add_add,
      ih fun y hy => hp y (List.mem_cons_of_mem _ hy)]
    simp [contents]

/-- A piece with something in it opens a field. -/
theorem foldl_piece_between {piece : List Symbol} (hp : ∀ x ∈ piece, x.delimits = false)
    (hne : piece ≠ []) (fields : List (List Char)) (after : Bool) :
    piece.foldl step ⟨fields, none, after⟩ = ⟨fields, some (contents piece).reverse, false⟩ := by
  cases piece with
  | nil => exact absurd rfl hne
  | cons x piece =>
    rw [List.foldl_cons, step_eq_add (hp x List.mem_cons_self),
      foldl_piece fun y hy => hp y (List.mem_cons_of_mem _ hy)]
    simp [add, contents]

/-- White space between fields is nothing. -/
theorem foldl_spaces (n : Nat) {s : Splitting} (h : s.current = none) :
    (List.replicate n space).foldl step s = s := by
  induction n with
  | zero => rfl
  | succ n ih => simpa [List.replicate_succ, step, h] using ih

/-- A segment is its symbols. -/
theorem segment_eq {segment : Segment} (h : segment ≠ .boundary) (ifs : String) (s : Splitting) :
    s.segment ifs.toList segment = (segment.symbols ifs).foldl step s := by
  cases segment with
  | plain text =>
    show text.toList.foldl (char ifs.toList) s = (text.toList.map _).foldl step s
    rw [List.foldl_map]
    exact congrArg (fun f => text.toList.foldl f s)
      (funext fun s => funext fun c => char_eq ifs.toList s c)
  | quoted text =>
    have hcontents : contents (text.toList.map content) = text.toList := by
      simp [contents, List.flatMap_map, Symbol.text]
    have hp : ∀ x ∈ text.toList.map content, x.delimits = false := by
      simp [Symbol.delimits]
    show s.add text.toList = (text.toList.map content).foldl step (s.add [])
    rw [foldl_piece hp, List.nil_append, hcontents]
  | boundary => exact absurd rfl h

/-- So are all segments. -/
theorem foldl_segments {segments : List Segment} (h : .boundary ∉ segments) (ifs : String)
    (s : Splitting) :
    segments.foldl (segment ifs.toList) s = (symbols ifs segments).foldl step s := by
  induction segments generalizing s with
  | nil => rfl
  | cons segment segments ih =>
    obtain ⟨hs, hr⟩ := not_or.mp fun hm => h (List.mem_cons.mpr hm)
    have hsymbols : symbols ifs (segment :: segments) =
        segment.symbols ifs ++ symbols ifs segments := List.flatMap_cons
    rw [List.foldl_cons, segment_eq (Ne.symm hs), ih hr, hsymbols, List.foldl_append]

/-- After a field a delimiter ends it. Only white space alone is noted, and then no other
delimiter can follow at once. -/
theorem foldl_delimiter {d rest : List Symbol} (h : IsLongest d rest) (fields : List (List Char))
    (cs : List Char) : ∃ after, d.foldl step ⟨fields, some cs, false⟩ = ⟨cs.reverse :: fields, none, after⟩ ∧
      (after = true → rest.head? ≠ some separator) := by
  have hclosed (n : Nat) : (List.replicate (n + 1) space).foldl step ⟨fields, some cs, false⟩ =
      ⟨cs.reverse :: fields, none, true⟩ := foldl_spaces n (s := ⟨_, none, true⟩) rfl
  have hd := h.isDelimiter
  cases hd with
  | spaces n => exact ⟨true, hclosed n, fun _ => h.head_ne (.separator (n + 1) 0)⟩
  | separator before after =>
    refine ⟨false, ?_, nofun⟩
    rw [List.foldl_append, List.foldl_cons]
    cases before with
    | zero => exact foldl_spaces after (s := ⟨_, none, false⟩) rfl
    | succ n =>
      rw [hclosed]
      exact foldl_spaces after (s := ⟨_, none, false⟩) rfl

/-- Where no field is open, a delimiter that is not white space alone stands for an empty one. -/
theorem foldl_delimiter_between {d rest : List Symbol} (h : IsDelimiter d)
    (hh : (d ++ rest).head? ≠ some space) (fields : List (List Char)) :
    d.foldl step ⟨fields, none, false⟩ = ⟨[] :: fields, none, false⟩ := by
  cases h with
  | spaces n => exact absurd rfl hh
  | separator before after =>
    cases before with
    | zero => exact foldl_spaces after (s := ⟨_, none, false⟩) rfl
    | succ n => exact absurd rfl hh

end Splitting

open Splitting

/-- **What the machine finds are the pieces.** White space must not come first, and after white
space that was noted no other delimiter may. -/
theorem Cut.fields_foldl {s : List Symbol} {pieces : List (List Symbol)} (h : Cut s pieces)
    {fields : List (List Char)} {after : Bool} (hs : s.head? ≠ some space)
    (ha : after = true → s.head? ≠ some separator) :
    (s.foldl step ⟨fields, none, after⟩).close.fields =
      ((kept pieces).map contents).reverse ++ fields := by
  induction h generalizing fields after with
  | @whole piece hp =>
    by_cases hne : piece = []
    · subst hne
      rfl
    · rw [foldl_piece_between hp hne]
      have hkept : kept [piece] = [piece] := if_neg fun he => hne (Option.some.inj he)
      simp [close, hkept]
  | @cons piece d rest pieces hp hd hr ih =>
    rw [kept_cons hr.ne_nil, List.foldl_append, List.foldl_append]
    have hstart := hd.head_ne_space
    by_cases hne : piece = []
    · subst hne
      -- Nothing is open: the delimiter is a separator, and no white space before it has been noted.
      have hafter : after = false := by
        by_contra ht
        rcases hd.isDelimiter.head?_append rest with hspace | hsep
        · exact hs hspace
        · exact ha (Bool.of_not_eq_false ht) hsep
      subst hafter
      rw [List.foldl_nil, foldl_delimiter_between hd.isDelimiter hs,
        ih hstart fun he => Bool.noConfusion he]
      simp [contents]
    · obtain ⟨noted, hdelim, hnoted⟩ := foldl_delimiter hd fields (contents piece).reverse
      rw [foldl_piece_between hp hne, hdelim, ih hstart hnoted]
      simp

/-- White space is white space. -/
theorem eq_replicate_space {t : List Symbol} (h : ∀ x ∈ t, x.isSpace = true) :
    t = .replicate t.length space := by
  refine List.eq_replicate_iff.mpr ⟨rfl, fun x hx => ?_⟩
  have hx := h x hx
  cases x with
  | space => rfl
  | separator => cases hx
  | content _ => cases hx
  | mark => cases hx

/-- White space at the end does no more than end a field. -/
theorem fields_foldl_spaces (n : Nat) (s : Splitting) :
    ((List.replicate n space).foldl step s).close.fields = s.close.fields := by
  obtain ⟨fields, current, after⟩ := s
  cases current with
  | none => rw [foldl_spaces n rfl]
  | some cs =>
    cases n with
    | zero => rfl
    | succ n =>
      have hclosed : (List.replicate (n + 1) space).foldl step ⟨fields, some cs, after⟩ =
          ⟨cs.reverse :: fields, none, true⟩ := foldl_spaces n (s := ⟨_, none, true⟩) rfl
      rw [hclosed]
      rfl

/-- White space at the ends makes no field. -/
theorem fields_trim (s : List Symbol) :
    ((trim s).foldl step {}).close.fields = (s.foldl step {}).close.fields := by
  have hfront := s.takeWhile_append_dropWhile (p := Symbol.isSpace)
  have hback := List.rdropWhile_append_rtakeWhile (p := Symbol.isSpace)
    (l := s.dropWhile Symbol.isSpace)
  have hf := eq_replicate_space (t := s.takeWhile Symbol.isSpace) fun x hx =>
    List.mem_takeWhile_imp hx
  have hb := eq_replicate_space (t := (s.dropWhile Symbol.isSpace).rtakeWhile Symbol.isSpace)
    fun x hx => List.mem_rtakeWhile_imp hx
  conv_rhs => rw [← hfront, ← hback, hf, hb]
  rw [List.foldl_append, List.foldl_append, fields_foldl_spaces,
    foldl_spaces (s.takeWhile Symbol.isSpace).length (s := {}) rfl]
  rfl

/-- A text without white space at its ends does not start with any. -/
theorem head?_trim_ne (s : List Symbol) : (trim s).head? ≠ some space := by
  intro h
  obtain ⟨rest, hrest⟩ : ∃ rest, trim s = space :: rest := by
    cases ht : trim s with
    | nil => rw [ht] at h; cases h
    | cons x rest => rw [ht] at h; cases h; exact ⟨rest, rfl⟩
  -- What is left of the front begins with something else.
  have hpre : trim s <+: s.dropWhile Symbol.isSpace := List.rdropWhile_prefix _ _
  obtain ⟨more, hmore⟩ := hpre
  rw [hrest] at hmore
  have hne : s.dropWhile Symbol.isSpace ≠ [] := hmore ▸ List.cons_ne_nil _ _
  have hnot := List.head_dropWhile_not (p := Symbol.isSpace) (l := s) hne
  simp [← hmore, Symbol.isSpace] at hnot

/-! ## 4. What is kept of the characters -/

namespace Splitting

/-- The characters of all fields so far. -/
def read (s : Splitting) : List Char := s.fields.reverse.flatten ++ (s.current.getD []).reverse

/-- Closing the last field keeps what has been read. -/
theorem read_close (s : Splitting) : s.close.read = s.read := by
  obtain ⟨fields, current, after⟩ := s
  cases current <;> simp [close, read]

/-- After that, what has been read is in the fields. -/
theorem flatten_fields_close (s : Splitting) : s.close.fields.reverse.flatten = s.read := by
  have hnone : s.close.current = none := by
    obtain ⟨fields, current, after⟩ := s
    cases current <;> rfl
  rw [← read_close, read, hnone, Option.getD_none, List.reverse_nil, List.append_nil]

/-- What is added is read. -/
theorem read_add (s : Splitting) (cs : List Char) : (s.add cs).read = s.read ++ cs := by
  simp [add, read]

/-- Of a symbol its text is read. -/
theorem read_step (s : Splitting) (x : Symbol) : (s.step x).read = s.read ++ x.text := by
  have hdelim (hx : x.delimits = true) (ht : x.text = []) : (s.step x).read = s.read ++ x.text := by
    rw [ht, List.append_nil]
    rcases step_cases hx s with he | ⟨hc, he⟩ | ⟨after, he⟩
    · rw [he]
    · simp [he, read, hc]
    · rw [he]
      exact read_close s
  cases x with
  | space => exact hdelim rfl rfl
  | separator => exact hdelim rfl rfl
  | content c => exact read_add s [c]
  | mark => exact read_add s []

/-- Of a segment what is not a delimiter is read. -/
theorem read_segment (ifs : String) (s : Splitting) (segment : Segment) :
    (s.segment ifs.toList segment).read = s.read ++ contents (segment.symbols ifs) := by
  cases segment with
  | plain text =>
    show (text.toList.foldl (char ifs.toList) s).read = s.read ++ contents (text.toList.map _)
    induction text.toList generalizing s with
    | nil => simp [contents]
    | cons c cs ih =>
      rw [List.foldl_cons, ih, char_eq, read_step]
      simp [contents]
  | quoted text =>
    refine (read_add s text.toList).trans ?_
    simp [Segment.symbols, contents, List.flatMap_map, Symbol.text]
  | boundary => exact (read_close s).trans (List.append_nil _).symm

/-- So it is with all segments. -/
theorem read_foldl (ifs : String) (segments : List Segment) (s : Splitting) :
    (segments.foldl (segment ifs.toList) s).read = s.read ++ contents (symbols ifs segments) := by
  induction segments generalizing s with
  | nil => simp [contents, symbols]
  | cons segment segments ih =>
    rw [List.foldl_cons, ih, read_segment]
    simp [contents, symbols]

/-- The field that began with some characters after some other fields is being read, or has
ended with more characters. -/
def Holds (fields : List (List Char)) (cs : List Char) (s : Splitting) : Prop :=
  (∃ more : List Char, s.current = some (more.reverse ++ cs.reverse) ∧ s.fields = fields) ∨
    ∃ (more : List Char) (later : List (List Char)), s.fields = later ++ (cs ++ more) :: fields

variable {fields : List (List Char)} {cs : List Char} {s : Splitting}

/-- A field that was there is still there when all are closed. -/
theorem Holds.ended (h : Holds fields cs s.close) (hn : s.close.current = none) :
    ∃ (more : List Char) (later : List (List Char)), s.close.fields = later ++ (cs ++ more) :: fields := by
  rcases h with ⟨more, hc, _⟩ | h
  · rw [hn] at hc
    cases hc
  · exact h

/-- Closing the last field takes none away. -/
theorem Holds.close (h : Holds fields cs s) : Holds fields cs s.close := by
  obtain ⟨now, current, after⟩ := s
  rcases h with ⟨more, rfl, rfl⟩ | ⟨more, later, rfl⟩
  · exact .inr ⟨more, [], by simp [Splitting.close]⟩
  · cases current with
    | none => exact .inr ⟨more, later, rfl⟩
    | some last => exact .inr ⟨more, last.reverse :: later, rfl⟩

/-- Characters go to the end of a field. -/
theorem Holds.add (h : Holds fields cs s) (ds : List Char) : Holds fields cs (s.add ds) := by
  rcases h with ⟨more, hc, hf⟩ | h
  · exact .inl ⟨more ++ ds, by simp [Splitting.add, hc], hf⟩
  · exact .inr h

/-- A symbol goes to the end of a field, or ends it. -/
theorem Holds.step (h : Holds fields cs s) (x : Symbol) : Holds fields cs (s.step x) := by
  have hdelim (hx : x.delimits = true) : Holds fields cs (s.step x) := by
    rcases step_cases hx s with he | ⟨hc, he⟩ | ⟨after, he⟩
    · rwa [he]
    · -- No field is open, so this one has ended, and an empty one comes after it.
      rw [he]
      rcases h with ⟨more, ho, _⟩ | ⟨more, later, hf⟩
      · rw [hc] at ho
        cases ho
      · exact .inr ⟨more, [] :: later, congrArg ([] :: ·) hf⟩
    · rw [he]
      exact h.close
  cases x with
  | space => exact hdelim rfl
  | separator => exact hdelim rfl
  | content c => exact h.add [c]
  | mark => exact h.add []

/-- So does a segment. -/
theorem Holds.segment (h : Holds fields cs s) (ifs : String) (segment : Segment) :
    Holds fields cs (s.segment ifs.toList segment) := by
  cases segment with
  | boundary => exact h.close
  | quoted text => exact h.add text.toList
  | plain text =>
    show Holds fields cs (text.toList.foldl (char ifs.toList) s)
    induction text.toList generalizing s with
    | nil => exact h
    | cons c rest ih => exact ih (char_eq ifs.toList s c ▸ h.step _)

/-- So do all segments. -/
theorem Holds.foldl (h : Holds fields cs s) (ifs : String) (segments : List Segment) :
    Holds fields cs (segments.foldl (Splitting.segment ifs.toList) s) := by
  induction segments generalizing s with
  | nil => exact h
  | cons segment segments ih => exact ih (h.segment ifs segment)

/-- The same with other fields before. -/
def onto (s : Splitting) (fields : List (List Char)) : Splitting :=
  { s with fields := s.fields ++ fields }

/-- Fields that came before do not matter for the last one. -/
theorem close_onto (s : Splitting) (before : List (List Char)) :
    (s.onto before).close = s.close.onto before := by
  obtain ⟨fields, current, after⟩ := s
  cases current <;> rfl

/-- Nor for a character. -/
theorem char_onto (ifs : List Char) (s : Splitting) (before : List (List Char)) (c : Char) :
    (s.onto before).char ifs c = (s.char ifs c).onto before := by
  obtain ⟨fields, current, after⟩ := s
  rw [char_eq, char_eq]
  cases Symbol.ofChar ifs c with
  | space => cases current <;> rfl
  | separator => cases current <;> cases after <;> rfl
  | content c => rfl
  | mark => rfl

/-- Nor for a segment. -/
theorem segment_onto (ifs : List Char) (s : Splitting) (before : List (List Char))
    (segment : Segment) :
    (s.onto before).segment ifs segment = (s.segment ifs segment).onto before := by
  cases segment with
  | plain text => exact List.foldl_hom (·.onto before) fun s c => char_onto ifs s before c
  | quoted text => rfl
  | boundary =>
    show { (s.onto before).close with afterSpace := false } = _
    rw [close_onto]
    rfl

/-- Nor for all segments. -/
theorem foldl_segment_onto (ifs : List Char) (before : List (List Char)) (segments : List Segment)
    (s : Splitting) :
    segments.foldl (segment ifs) (s.onto before) = (segments.foldl (segment ifs) s).onto before :=
  List.foldl_hom (·.onto before) fun s x => segment_onto ifs s before x

end Splitting

/-! ## 5. What splitting finds -/

/-- The fields are those that have been closed, in their order. -/
theorem split_eq (segments : List Segment) (ifs : String) :
    split segments ifs =
      (segments.foldl (segment ifs.toList) {}).close.fields.reverse.map String.ofList := rfl

theorem flatMap_toList_map_ofList (texts : List (List Char)) :
    (texts.map String.ofList).flatMap String.toList = texts.flatten := by
  rw [List.flatMap_map]
  simp [List.flatMap_def]

/-- A boundary ends what is before it and leaves nothing behind for what is after it. -/
theorem split_append_boundary (s t : List Segment) (ifs : String) :
    split (s ++ .boundary :: t) ifs = split s ifs ++ split t ifs := by
  let first := (s.foldl (segment ifs.toList) {}).close
  have hnone : first.current = none := by
    show (s.foldl (segment ifs.toList) {}).close.current = none
    obtain ⟨fields, current, after⟩ := s.foldl (segment ifs.toList) {}
    cases current <;> rfl
  have hstart : ((s.foldl (segment ifs.toList) {}).segment ifs.toList .boundary) =
      Splitting.onto {} first.fields := by
    show (⟨first.fields, first.current, false⟩ : Splitting) = ⟨[] ++ first.fields, none, false⟩
    rw [hnone, List.nil_append]
  rw [split_eq, List.foldl_append, List.foldl_cons, hstart, foldl_segment_onto, close_onto]
  simp [Splitting.onto, first, split_eq]

/-- **Splitting finds the pieces** of any cut at longest delimiters. -/
theorem split_eq_of_cut {segments : List Segment} {ifs : String} {pieces : List (List Symbol)}
    (hb : .boundary ∉ segments) (hc : Cut (trim (symbols ifs segments)) pieces) :
    split segments ifs = (kept pieces).map fun piece => String.ofList (contents piece) := by
  rw [split_eq, foldl_segments hb, ← fields_trim, hc.fields_foldl (head?_trim_ne _) fun h => Bool.noConfusion h]
  simp

/-- The text that fields have together is what segments have apart from what delimits. -/
theorem join_split (segments : List Segment) (ifs : String) :
    (split segments ifs).flatMap String.toList = contents (symbols ifs segments) := by
  rw [split_eq, flatMap_toList_map_ofList, flatten_fields_close, read_foldl]
  rfl

/-- Quoted text stands in one field, behind all that has been read before it. -/
theorem split_quoted (before after : List Segment) (text ifs : String) :
    ∃ left p q right, split (before ++ .quoted text :: after) ifs = left ++ (p ++ text ++ q) :: right ∧
      (left ++ [p]).flatMap String.toList = contents (symbols ifs before) := by
  have hread := read_foldl ifs before {}
  generalize hs : before.foldl (segment ifs.toList) {} = s at hread
  have hholds : Holds s.fields ((s.current.getD []).reverse ++ text.toList) (s.add text.toList) :=
    .inl ⟨[], by simp [Splitting.add], rfl⟩
  have hlast := (hholds.foldl ifs after).close
  have hnone : (after.foldl (segment ifs.toList) (s.add text.toList)).close.current = none := by
    obtain ⟨fields, current, noted⟩ := after.foldl (segment ifs.toList) (s.add text.toList)
    cases current <;> rfl
  obtain ⟨more, later, hfields⟩ := hlast.ended hnone
  have hsplit : split (before ++ .quoted text :: after) ifs =
      (after.foldl (segment ifs.toList) (s.add text.toList)).close.fields.reverse.map
        String.ofList := by
    rw [split_eq, List.foldl_append, List.foldl_cons, hs]
    rfl
  refine ⟨s.fields.reverse.map String.ofList, String.ofList (s.current.getD []).reverse,
    String.ofList more, later.reverse.map String.ofList, ?_, ?_⟩
  · rw [hsplit, hfields]
    simp [String.ofList_append, String.append_assoc]
  · rw [List.flatMap_append, flatMap_toList_map_ofList]
    simpa [Splitting.read] using hread

/-- **Splitting finds what lies between delimiters.** A boundary ends a field and joins nothing.
Without boundaries, the fields are the pieces between the longest delimiters, once the white space at both
ends has been taken away and an empty last piece has been forgotten; and the symbols can always be cut so. All
characters that do not delimit are kept, in their order and with none added, and quoted
text stands in one field, where it stood. -/
theorem split_finds_pieces (ifs : String) :
    (∀ s t, split (s ++ .boundary :: t) ifs = split s ifs ++ split t ifs) ∧
    (∀ segments, .boundary ∉ segments →
      (∃ pieces, Cut (trim (symbols ifs segments)) pieces) ∧
      ∀ pieces, Cut (trim (symbols ifs segments)) pieces →
        split segments ifs = (kept pieces).map fun piece => String.ofList (contents piece)) ∧
    (∀ segments, (split segments ifs).flatMap String.toList = contents (symbols ifs segments)) ∧
    ∀ before text after, ∃ left p q right,
      split (before ++ .quoted text :: after) ifs = left ++ (p ++ text ++ q) :: right ∧
        (left ++ [p]).flatMap String.toList = contents (symbols ifs before) :=
  ⟨fun s t => split_append_boundary s t ifs,
    fun _ hb => ⟨exists_cut _, fun _ hc => split_eq_of_cut hb hc⟩,
    fun segments => join_split segments ifs,
    fun before text after => split_quoted before after text ifs⟩

/-- A delimiter with white space on both sides, a quoted text without characters between two
delimiters, and two delimiters at the end, of which the last ends the field between them. -/
theorem split_between_colons :
    .boundary ∉ [Segment.plain " a :", .quoted "", .plain " : b c::"] ∧
      ∃ pieces, Cut (trim (symbols " :" [.plain " a :", .quoted "", .plain " : b c::"])) pieces ∧
        (kept pieces).map (fun piece => String.ofList (contents piece)) = ["a", "", "b", "c", ""] := by
  have hb : .boundary ∉ [Segment.plain " a :", .quoted "", .plain " : b c::"] := by decide
  obtain ⟨⟨pieces, hc⟩, hall⟩ := (split_finds_pieces " :").2.1 _ hb
  have hrun : split [.plain " a :", .quoted "", .plain " : b c::"] " :" =
      ["a", "", "b", "c", ""] := by decide
  exact ⟨hb, pieces, hc, (hall pieces hc).symm.trans hrun⟩

end Shell.Field
