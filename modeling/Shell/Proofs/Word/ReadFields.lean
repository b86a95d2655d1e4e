/-
`read` cuts a line as field splitting does, but for two things.

`read` takes one field after the other from the front of a line: up to the next character of IFS, of which it drops
that one and the white space behind it. So it takes a delimiter that has its white space behind the separator, or
has none, or is white space alone, but not white space with a separator behind it: that separator is left, and
stands for an empty field (`Mixed`). And the last name gets what is left of the line, with a separator that comes at
the very end of it, where splitting forgets that separator (`Closes`).

Both are seen along the cut of the line at its longest delimiters: `takeFields` goes from piece to piece of it.
-/
import Mathlib.Data.List.TakeDrop
import Shell.Builtin.Run
import Shell.Proofs.Word.Fields
import Shell.Session

set_option autoImplicit false

namespace Shell.Read

open Shell.Field Shell.Text

variable {ifs : List Char}

/-! ## 1. The characters of a line as symbols -/

theorem isSpace_ofChar (c : Char) : (Symbol.ofChar ifs c).isSpace = isMargin ifs c := by
  unfold Symbol.ofChar isMargin
  cases ifs.contains c
  · rfl
  · cases h : Field.isSpace c <;> simp [Symbol.isSpace]

theorem delimits_ofChar (c : Char) : (Symbol.ofChar ifs c).delimits = ifs.contains c := by
  unfold Symbol.ofChar
  cases ifs.contains c
  · rfl
  · cases h : Field.isSpace c <;> simp [Symbol.delimits]

theorem contents_map_ofChar {cs : List Char} (h : ∀ c ∈ cs, ifs.contains c = false) :
    contents (cs.map (Symbol.ofChar ifs)) = cs := by
  induction cs with
  | nil => rfl
  | cons c cs ih =>
    have hc : Symbol.ofChar ifs c = .content c := if_neg (Bool.eq_false_iff.mp (h c List.mem_cons_self))
    rw [List.map_cons, hc]
    exact congrArg (c :: ·) (ih fun d hd => h d (List.mem_cons_of_mem _ hd))

theorem trim_map_ofChar (line : List Char) :
    Field.trim (line.map (Symbol.ofChar ifs)) = (trimBy (isMargin ifs) line).map (Symbol.ofChar ifs) := by
  have hspace : Symbol.isSpace ∘ Symbol.ofChar ifs = isMargin ifs := funext isSpace_ofChar
  unfold Field.trim trimBy trimEnd
  rw [List.rdropWhile, List.dropWhile_map, hspace, ← List.map_reverse, List.dropWhile_map, hspace, List.map_reverse]

theorem isMargin_iff {c : Char} : isMargin ifs c = true ↔ Symbol.ofChar ifs c = .space := by
  rw [← isSpace_ofChar]
  cases Symbol.ofChar ifs c <;> simp [Symbol.isSpace]

/-! ## 2. One field -/

/-- A field is taken off together with the separator behind it and the white space after that. -/
theorem cutField_append {field spaces rest : List Char} {c : Char} (hfield : ∀ d ∈ field, ifs.contains d = false)
    (hc : ifs.contains c = true) (hspaces : ∀ d ∈ spaces, isMargin ifs d = true)
    (hrest : ∀ d ∈ rest.head?, isMargin ifs d = false) :
    cutField ifs (field ++ c :: (spaces ++ rest)) = (field, rest) := by
  have hkeep : ∀ d ∈ field, (!ifs.contains d) = true := fun d hd => by rw [hfield d hd]; rfl
  have hstop : ¬ (!ifs.contains c) = true := by rw [hc]; decide
  have hall : rest.dropWhile (isMargin ifs) = rest := by
    cases rest with
    | nil => rfl
    | cons d rest => exact List.dropWhile_cons_of_neg (Bool.eq_false_iff.mp (hrest d rfl))
  unfold cutField
  rw [List.span_eq_takeWhile_dropWhile, List.takeWhile_append_of_pos hkeep, List.dropWhile_append_of_pos hkeep,
    List.takeWhile_cons_of_neg (p := fun d => !ifs.contains d) hstop,
    List.dropWhile_cons_of_neg (p := fun d => !ifs.contains d) hstop, List.append_nil]
  show (field, (spaces ++ rest).dropWhile (isMargin ifs)) = (field, rest)
  rw [List.dropWhile_append_of_pos hspaces, hall]

theorem cutField_of_no_separator {field : List Char} (hfield : ∀ d ∈ field, ifs.contains d = false) :
    cutField ifs field = (field, []) := by
  have hkeep : ∀ d ∈ field, (!ifs.contains d) = true := fun d hd => by rw [hfield d hd]; rfl
  unfold cutField
  rw [List.span_eq_takeWhile_dropWhile, List.takeWhile_eq_self_iff.mpr hkeep, List.dropWhile_eq_nil_iff.mpr hkeep]
  rfl

theorem takeFields_nil (count : Nat) : takeFields ifs count [] = List.replicate (count + 1) [] := by
  induction count with
  | zero => rfl
  | succ count ih => exact congrArg ([] :: ·) ih

/-- White space that is not there is not taken away. -/
theorem trimEnd_of_getLast? {line : List Char} (hback : (line.map (Symbol.ofChar ifs)).getLast? ≠ some .space) :
    trimEnd (isMargin ifs) line = line := by
  have h : ∀ d ∈ line.getLast?, isMargin ifs d = false := fun d hd => by
    refine Bool.eq_false_iff.mpr fun hmargin => hback ?_
    rw [List.getLast?_map, Option.mem_def.mp hd, Option.map_some, isMargin_iff.mp hmargin]
  unfold trimEnd
  cases hr : line.reverse with
  | nil => rw [List.dropWhile_nil, ← hr, List.reverse_reverse]
  | cons d rest =>
    have hlast : line.getLast? = some d := by rw [← List.head?_reverse, hr, List.head?_cons]
    rw [List.dropWhile_cons_of_neg (Bool.eq_false_iff.mp (h d hlast)), ← hr, List.reverse_reverse]

/-- The first piece is taken off with a longest delimiter, unless that has white space before a separator. -/
theorem cutField_of_delimiter {field delimiter rest : List Char} (hfield : ∀ c ∈ field, ifs.contains c = false)
    (hd : IsLongest (delimiter.map (Symbol.ofChar ifs)) (rest.map (Symbol.ofChar ifs)))
    (hmixed : ∀ before after, delimiter.map (Symbol.ofChar ifs) ≠
      .replicate (before + 1) .space ++ .separator :: .replicate after .space) :
    cutField ifs (field ++ (delimiter ++ rest)) = (field, rest) := by
  -- White space in the symbols is white space in the line.
  have hspaces {n : Nat} {spaces : List Char} (h : spaces.map (Symbol.ofChar ifs) = .replicate n .space) :
      ∀ c ∈ spaces, isMargin ifs c = true := fun c hc =>
    isMargin_iff.mpr (List.eq_of_mem_replicate (h ▸ List.mem_map_of_mem hc))
  have hrest : ∀ c ∈ rest.head?, isMargin ifs c = false := fun c hc => by
    refine Bool.eq_false_iff.mpr fun hmargin => hd.head_ne_space ?_
    rw [List.head?_map, Option.mem_def.mp hc, Option.map_some, isMargin_iff.mp hmargin]
  -- One separator and the white space after it are cut off, whichever separator it is.
  have hone (c : Char) (spaces : List Char) (hc : ifs.contains c = true) (n : Nat)
      (hs : spaces.map (Symbol.ofChar ifs) = .replicate n .space) :
      cutField ifs (field ++ (c :: spaces ++ rest)) = (field, rest) :=
    cutField_append hfield hc (hspaces hs) hrest
  have hdelimiter := hd.isDelimiter
  generalize hx : delimiter.map (Symbol.ofChar ifs) = x at hdelimiter hmixed
  -- A delimiter without white space before its separator is such a one, and so is white space alone.
  cases hdelimiter with
  | spaces n =>
    obtain ⟨c, spaces, rfl, hc, hs⟩ := List.map_eq_cons_iff.mp (hx.trans List.replicate_succ)
    refine hone c spaces ?_ n hs
    rw [← delimits_ofChar, hc]
    rfl
  | separator before after =>
    cases before with
    | succ before => exact absurd rfl (hmixed before after)
    | zero =>
      obtain ⟨c, spaces, rfl, hc, hs⟩ := List.map_eq_cons_iff.mp hx
      refine hone c spaces ?_ after hs
      rw [← delimits_ofChar, hc]
      rfl

/-! ## 3. All fields -/

/-- The number of fields that symbols make. -/
def fieldCount (s : List Symbol) : Nat := (s.foldl Splitting.step {}).close.fields.length

/-- White space stands between one of the first `count` fields and a separator. -/
def MixedSymbols (count : Nat) (s : List Symbol) : Prop :=
  ∃ before c spaces after, s = before ++ .content c :: (spaces ++ .separator :: after) ∧ spaces ≠ [] ∧
    (∀ x ∈ spaces, x = .space) ∧ fieldCount (before ++ [.content c]) ≤ count

theorem fieldCount_of_cut {s : List Symbol} {pieces : List (List Symbol)} (h : Cut s pieces)
    (hs : s.head? ≠ some .space) : fieldCount s = (kept pieces).length := by
  unfold fieldCount
  rw [h.fields_foldl hs fun h => Bool.noConfusion h]
  simp

/-- A piece and a delimiter before other symbols are one more field before them. -/
theorem fieldCount_append {piece d rest : List Symbol} (hp : ∀ x ∈ piece, x.delimits = false)
    (hd : IsLongest d rest) (hs : (piece ++ (d ++ rest)).head? ≠ some .space) :
    fieldCount (piece ++ (d ++ rest)) = fieldCount rest + 1 := by
  obtain ⟨pieces, hc⟩ := exists_cut rest
  rw [fieldCount_of_cut (.cons hp hd hc) hs, fieldCount_of_cut hc hd.head_ne_space, kept_cons hc.ne_nil]
  rfl

/-- What delimiter is the longest one is seen from the front of what is behind it. -/
theorem isLongest_front {d rest front : List Symbol} (h : IsLongest d rest) (hf : front <+: rest) :
    IsLongest d front where
  isDelimiter := h.isDelimiter
  longest other ho hp := h.longest other ho (hp.trans (List.prefix_append_right_inj d |>.mpr hf))

theorem head?_append_delimiter {d : List Symbol} (h : IsDelimiter d) (piece rest other : List Symbol) :
    (piece ++ (d ++ rest)).head? = (piece ++ (d ++ other)).head? := by
  have hd : d ≠ [] := by
    rintro rfl
    rcases h.head?_append [] with h | h <;> cases h
  obtain ⟨x, d, rfl⟩ := List.exists_cons_of_ne_nil hd
  cases piece <;> rfl

theorem MixedSymbols.cons {piece d rest : List Symbol} {count : Nat} (h : MixedSymbols count rest)
    (hp : ∀ x ∈ piece, x.delimits = false) (hd : IsLongest d rest)
    (hs : (piece ++ (d ++ rest)).head? ≠ some .space) : MixedSymbols (count + 1) (piece ++ (d ++ rest)) := by
  obtain ⟨before, c, spaces, after, rfl, hne, hspaces, hcount⟩ := h
  refine ⟨piece ++ (d ++ before), c, spaces, after, by simp, hne, hspaces, ?_⟩
  have hfront : before ++ [Symbol.content c] <+: before ++ .content c :: (spaces ++ .separator :: after) :=
    (List.prefix_append_right_inj before).mpr ⟨_, rfl⟩
  rw [head?_append_delimiter hd.isDelimiter piece _ (before ++ [Symbol.content c])] at hs
  rw [List.append_assoc, List.append_assoc, fieldCount_append hp (isLongest_front hd hfront) hs]
  exact Nat.add_le_add_right hcount 1

/-- White space with a separator behind it, behind the first field. -/
theorem mixedSymbols_of_delimiter {field : List Char} {s delimiter rest : List Symbol} {before after : Nat}
    (hfield : ∀ c ∈ field, ifs.contains c = false)
    (hd : delimiter = .replicate (before + 1) .space ++ .separator :: .replicate after .space)
    (hs : s = field.map (Symbol.ofChar ifs) ++ (delimiter ++ rest)) (hfront : s.head? ≠ some .space) (count : Nat) :
    MixedSymbols (count + 1) s := by
  rw [hd] at hs
  obtain rfl := hs
  -- The line starts with no white space, so there is a character before the delimiter.
  rcases List.eq_nil_or_concat field with rfl | ⟨front, c, rfl⟩
  · exact absurd rfl hfront
  · rw [List.concat_eq_append] at hfield ⊢
    have hc : Symbol.ofChar ifs c = .content c := if_neg (Bool.eq_false_iff.mp (hfield c (by simp)))
    have hone : fieldCount (front.map (Symbol.ofChar ifs) ++ [.content c]) = 1 := by
      have hp : ∀ x ∈ (front ++ [c]).map (Symbol.ofChar ifs), x.delimits = false := by
        intro x hx
        obtain ⟨d, hd, rfl⟩ := List.mem_map.mp hx
        rw [delimits_ofChar]
        exact hfield d hd
      rw [List.map_append, List.map_singleton, hc] at hp
      unfold fieldCount
      rw [Splitting.foldl_piece_between hp (by simp)]
      rfl
    refine ⟨front.map (Symbol.ofChar ifs), c, .replicate (before + 1) .space, .replicate after .space ++ rest, ?_,
      by simp, fun x hx => List.eq_of_mem_replicate hx, by omega⟩
    rw [List.map_append, List.map_singleton, hc]
    simp

/-- What stands behind the last field of a line: nothing, or a separator that is not white space, with the white
space between the field and it. -/
def Closes (ifs line last tail : List Char) : Prop :=
  last ++ tail <:+ line ∧
    (tail = [] ∧ (∀ d ∈ line.getLast?, ifs.contains d = false) ∨
      ∃ spaces d, tail = spaces ++ [d] ∧ (∀ e ∈ spaces, isMargin ifs e = true) ∧
        ifs.contains d = true ∧ isMargin ifs d = false ∧ (last = [] → spaces = []))

/-- What closes the end of a line closes the line. -/
theorem Closes.of_suffix {line rest last tail : List Char} (h : Closes ifs rest last tail) (hs : rest <:+ line)
    (hne : rest ≠ []) : Closes ifs line last tail := by
  have hlast : line.getLast? = rest.getLast? := by
    obtain ⟨front, rfl⟩ := hs
    exact List.getLast?_append_of_ne_nil front hne
  exact ⟨h.1.trans hs, h.2.imp_left fun ⟨ht, he⟩ => ⟨ht, hlast ▸ he⟩⟩

/-- A separator behind the last field, at the end of the line. -/
theorem closes_separator {field delimiter : List Char} {before : Nat}
    (hd : delimiter.map (Symbol.ofChar ifs) = .replicate before .space ++ [.separator])
    (hfront : field = [] → before = 0) : Closes ifs (field ++ delimiter) field delimiter := by
  obtain ⟨spaces, last, rfl, hspaces, hlast⟩ := List.map_eq_append_iff.mp hd
  obtain ⟨d, rest, rfl, hd', hrest⟩ := List.map_eq_cons_iff.mp hlast
  obtain rfl := List.map_eq_nil_iff.mp hrest
  refine ⟨List.suffix_rfl, .inr ⟨spaces, d, rfl, fun e he => ?_, ?_, ?_, fun h => ?_⟩⟩
  · exact isMargin_iff.mpr (List.eq_of_mem_replicate (hspaces ▸ List.mem_map_of_mem he))
  · rw [← delimits_ofChar, hd']
    rfl
  · rw [← isSpace_ofChar, hd']
    rfl
  · rw [hfront h] at hspaces
    exact List.map_eq_nil_iff.mp hspaces

/-- Only where there is nothing is nothing found. -/
theorem kept_eq_nil_iff {s : List Symbol} {pieces : List (List Symbol)} (h : Cut s pieces) :
    kept pieces = [] ↔ s = [] := by
  refine ⟨fun hk => ?_, ?_⟩
  · cases h with
    | whole hp =>
      by_contra hne
      have hkept : kept [s] = [s] := if_neg fun he => hne (Option.some.inj he)
      rw [hkept] at hk
      cases hk
    | cons hp hd hr =>
      rw [kept_cons hr.ne_nil] at hk
      cases hk
  · rintro rfl
    exact List.eq_nil_of_length_eq_zero (fieldCount_of_cut h nofun).symm

/-- A delimiter at the end of a line that does not end with white space. -/
theorem eq_of_isDelimiter {d piece : List Symbol} (h : IsDelimiter d) (hback : (piece ++ d).getLast? ≠ some .space) :
    ∃ before, d = .replicate before .space ++ [.separator] := by
  have hlast (front : List Symbol) (n : Nat) : (front ++ .replicate (n + 1) .space).getLast? = some .space := by
    rw [List.replicate_succ', ← List.append_assoc, List.getLast?_concat]
  cases h with
  | spaces n => exact absurd (hlast piece n) hback
  | separator before after =>
    cases after with
    | zero => exact ⟨before, rfl⟩
    | succ n =>
      have hend := hlast (piece ++ (.replicate before .space ++ [.separator])) n
      simp only [List.append_assoc, List.singleton_append] at hend
      exact absurd hend hback

/-- What `read` takes of a line for one more name than `count`, where the line has the fields `found`. -/
structure Fits (ifs : List Char) (count : Nat) (line : List Char) (found : List (List Char)) : Prop where
  /-- With fewer fields than names, the rest of the names get nothing. -/
  few : found.length ≤ count → takeFields ifs count line = found ++ List.replicate (count + 1 - found.length) []
  /-- With as many, the last one comes with what closes the line. -/
  all : found.length = count + 1 → ∃ init last tail, found = init ++ [last] ∧
    takeFields ifs count line = init ++ [last ++ tail] ∧ Closes ifs line last tail

namespace Fits

variable {count : Nat} {field delimiter rest : List Char}

theorem nil : Fits ifs count [] [] := ⟨fun _ => takeFields_nil count, nofun⟩

/-- A field that goes up to the end of the line. -/
theorem whole (hfield : ∀ c ∈ field, ifs.contains c = false)
    (hback : (field.map (Symbol.ofChar ifs)).getLast? ≠ some .space) : Fits ifs count field [field] := by
  cases count with
  | zero =>
    refine ⟨nofun, fun _ => ⟨[], field, [], rfl, ?_, ⟨[], List.append_nil field⟩, .inl ⟨rfl, fun c hc => ?_⟩⟩⟩
    · exact congrArg ([·]) ((trimEnd_of_getLast? hback).trans (List.append_nil field).symm)
    · exact hfield c (List.mem_of_getLast? hc)
  | succ count =>
    refine ⟨fun _ => ?_, nofun⟩
    show (cutField ifs field).1 :: takeFields ifs count (cutField ifs field).2 = _
    rw [cutField_of_no_separator hfield, takeFields_nil]
    rfl

/-- The last name gets a field with the separator behind it. -/
theorem closed {before : Nat} (hd : delimiter.map (Symbol.ofChar ifs) = .replicate before .space ++ [.separator])
    (hfront : ((field ++ delimiter).map (Symbol.ofChar ifs)).head? ≠ some .space)
    (hback : ((field ++ delimiter).map (Symbol.ofChar ifs)).getLast? ≠ some .space) :
    Fits ifs 0 (field ++ delimiter) [field] := by
  refine ⟨nofun, fun _ => ⟨[], field, delimiter, rfl, congrArg ([·]) (trimEnd_of_getLast? hback), ?_⟩⟩
  refine closes_separator hd fun hnil => ?_
  cases before with
  | zero => rfl
  | succ n =>
    rw [hnil, List.nil_append, hd] at hfront
    exact absurd rfl hfront

/-- A field with a delimiter behind it, in front of the rest of the line. -/
theorem cons {found : List (List Char)} (hcut : cutField ifs (field ++ (delimiter ++ rest)) = (field, rest))
    (hrest : rest = [] → found = []) (h : Fits ifs count rest found) :
    Fits ifs (count + 1) (field ++ (delimiter ++ rest)) (field :: found) := by
  have hstep : takeFields ifs (count + 1) (field ++ (delimiter ++ rest)) = field :: takeFields ifs count rest := by
    rw [takeFields, hcut]
  refine ⟨fun hlen => ?_, fun hlen => ?_⟩
  · rw [hstep, h.few (Nat.le_of_succ_le_succ hlen), List.length_cons, Nat.add_sub_add_right, List.cons_append]
  · have hlen := Nat.succ.inj hlen
    obtain ⟨init, last, tail, hfound, htake, hcloses⟩ := h.all hlen
    refine ⟨field :: init, last, tail, congrArg (field :: ·) hfound, hstep.trans (congrArg (field :: ·) htake), ?_⟩
    refine hcloses.of_suffix ⟨field ++ delimiter, List.append_assoc ..⟩ fun hnil => ?_
    rw [hrest hnil] at hlen
    cases hlen

end Fits

/-- **`read` goes from piece to piece of a line**, as long as no white space comes before a separator. -/
theorem takeFields_of_cut {s : List Symbol} {pieces : List (List Symbol)} (h : Cut s pieces) {line : List Char}
    {count : Nat} (hline : line.map (Symbol.ofChar ifs) = s) (hfront : s.head? ≠ some .space)
    (hback : s.getLast? ≠ some .space) (hm : ¬ MixedSymbols count s) :
    Fits ifs count line ((kept pieces).map contents) := by
  have hplain {field : List Char} {piece : List Symbol} (hf : field.map (Symbol.ofChar ifs) = piece)
      (hp : ∀ x ∈ piece, x.delimits = false) : ∀ c ∈ field, ifs.contains c = false := fun c hc => by
    rw [← delimits_ofChar]
    exact hp _ (hf ▸ List.mem_map_of_mem hc)
  induction h generalizing line count with
  | @whole piece hp =>
    have hfield := hplain hline hp
    by_cases hne : piece = []
    · obtain rfl := hne
      obtain rfl := List.map_eq_nil_iff.mp hline
      exact .nil
    · have hkept : kept [piece] = [piece] := if_neg fun he => hne (Option.some.inj he)
      have hcontents : contents piece = line := hline ▸ contents_map_ofChar hfield
      rw [hkept, List.map_singleton, hcontents]
      exact .whole hfield (hline ▸ hback)
  | @cons piece d rest pieces hp hd hr ih =>
    rw [kept_cons hr.ne_nil, List.map_cons]
    obtain ⟨field, others, rfl, hf, hothers⟩ := List.map_eq_append_iff.mp hline
    obtain ⟨delimiter, after, rfl, hdelimiter, hafter⟩ := List.map_eq_append_iff.mp hothers
    have hfield := hplain hf hp
    have hcontents : contents piece = field := hf ▸ contents_map_ofChar hfield
    rw [hcontents]
    cases count with
    | zero =>
      cases hkept : kept pieces with
      | cons next others => exact ⟨nofun, nofun⟩
      | nil =>
        -- There is one field only, and what is behind it is a delimiter at the end of the line.
        obtain rfl := (kept_eq_nil_iff hr).mp hkept
        obtain rfl := List.map_eq_nil_iff.mp hafter
        rw [List.append_nil] at hline hfront hback ⊢
        obtain ⟨before, hbefore⟩ := eq_of_isDelimiter hd.isDelimiter hback
        rw [List.append_nil] at hline
        exact .closed (hdelimiter.trans hbefore) (hline ▸ hfront) (hline ▸ hback)
    | succ count =>
      have hcut : cutField ifs (field ++ (delimiter ++ after)) = (field, after) := by
        refine cutField_of_delimiter hfield (by rwa [hdelimiter, hafter]) fun before behind hmixed => ?_
        -- White space before the separator would be between the first field and it.
        exact hm (mixedSymbols_of_delimiter hfield (hdelimiter.symm.trans hmixed) (by rw [hf]) hfront count)
      have hback' : rest.getLast? ≠ some .space := by
        cases rest with
        | nil => exact nofun
        | cons x rest => rwa [← List.append_assoc, List.getLast?_append_of_ne_nil _ (List.cons_ne_nil _ _)] at hback
      refine .cons hcut (fun hnil => ?_) (ih hafter hd.head_ne_space hback' fun hmixed => hm (hmixed.cons hp hd hfront))
      rw [(kept_eq_nil_iff hr).mpr (by rw [← hafter, hnil]; rfl)]
      rfl

/-! ## 4. A line and its fields -/

/-- White space of IFS stands between a field, which is not yet that of the last of so many names, and a separator
that is not white space. The character `c` ends the field, and `d` is the separator. -/
def Mixed (ifs : String) (names : Nat) (line : List Char) : Prop :=
  ∃ before c spaces d after, line = before ++ c :: (spaces ++ d :: after) ∧ ifs.toList.contains c = false ∧
    spaces ≠ [] ∧ (∀ e ∈ spaces, isMargin ifs.toList e = true) ∧ ifs.toList.contains d = true ∧
    isMargin ifs.toList d = false ∧ (Field.split [.plain (String.ofList (before ++ [c]))] ifs).length < names

theorem length_split_plain (ifs : String) (line : List Char) :
    (Field.split [.plain (String.ofList line)] ifs).length = fieldCount (line.map (Symbol.ofChar ifs.toList)) := by
  have hsymbols : symbols ifs [.plain (String.ofList line)] = line.map (Symbol.ofChar ifs.toList) := by
    simp [symbols, Segment.symbols]
  rw [split_eq, Splitting.foldl_segments (by simp), hsymbols]
  simp [fieldCount]

/-- White space at the front of a line is no field. -/
theorem fieldCount_append_spaces {front : List Char} (hfront : ∀ c ∈ front, isMargin ifs c = true)
    (s : List Symbol) : fieldCount (front.map (Symbol.ofChar ifs) ++ s) = fieldCount s := by
  have hspaces : front.map (Symbol.ofChar ifs) = .replicate front.length .space := by
    refine List.eq_replicate_iff.mpr ⟨List.length_map _, fun x hx => ?_⟩
    obtain ⟨c, hc, rfl⟩ := List.mem_map.mp hx
    exact isMargin_iff.mp (hfront c hc)
  unfold fieldCount
  rw [List.foldl_append, hspaces, Splitting.foldl_spaces _ rfl]

/-- A mixed delimiter between the ends of a line is one in the whole line. -/
theorem mixed_of_trim {ifs : String} {line : List Char} {count : Nat}
    (h : MixedSymbols count ((trimBy (isMargin ifs.toList) line).map (Symbol.ofChar ifs.toList))) :
    Mixed ifs (count + 1) line := by
  obtain ⟨before, c, spaces, after, hs, hne, hspaces, hcount⟩ := h
  obtain ⟨before, others, htrim, rfl, hothers⟩ := List.map_eq_append_iff.mp hs
  obtain ⟨c', others, rfl, hc, hbehind⟩ := List.map_eq_cons_iff.mp hothers
  obtain ⟨spaces, others, rfl, rfl, hseparator⟩ := List.map_eq_append_iff.mp hbehind
  obtain ⟨d, after, rfl, hd, rfl⟩ := List.map_eq_cons_iff.mp hseparator
  -- The white space that was cut off is put back at both ends. It makes no field.
  have hfront := line.takeWhile_append_dropWhile (p := isMargin ifs.toList)
  have hback := List.rdropWhile_append_rtakeWhile (p := isMargin ifs.toList) (l := line.dropWhile (isMargin ifs.toList))
  have htrimmed : (line.dropWhile (isMargin ifs.toList)).rdropWhile (isMargin ifs.toList) =
    before ++ c' :: (spaces ++ d :: after) := htrim
  have hcontains : ifs.toList.contains c' = false := by rw [← delimits_ofChar, hc]; rfl
  have hcontent : [c'].map (Symbol.ofChar ifs.toList) = [.content c] := congrArg ([·]) hc
  refine ⟨line.takeWhile (isMargin ifs.toList) ++ before, c', spaces, d,
    after ++ (line.dropWhile (isMargin ifs.toList)).rtakeWhile (isMargin ifs.toList), ?_, hcontains,
    by simpa using hne, fun e he => isMargin_iff.mpr (hspaces _ (List.mem_map_of_mem he)), ?_, ?_, ?_⟩
  · conv_lhs => rw [← hfront, ← hback, htrimmed]
    simp
  · rw [← delimits_ofChar, hd]
    rfl
  · rw [← isSpace_ofChar, hd]
    rfl
  · rw [length_split_plain, List.append_assoc, List.map_append,
      fieldCount_append_spaces fun c hc => List.mem_takeWhile_imp hc, List.map_append, hcontent]
    exact Nat.lt_succ_of_le hcount

theorem getLast?_trim_ne (s : List Symbol) : (Field.trim s).getLast? ≠ some .space := by
  intro h
  have hne : Field.trim s ≠ [] := by
    intro hnil
    rw [hnil] at h
    cases h
  have hnot := List.rdropWhile_last_not Symbol.isSpace (s.dropWhile Symbol.isSpace) hne
  rw [List.getLast?_eq_some_getLast hne] at h
  exact hnot (congrArg Symbol.isSpace (Option.some.inj h))

/-- **The values for names, next to the fields of a line.** With fewer fields than names they are the fields and
empty texts, and with as many they are the fields, the last one with what closes the line. -/
theorem fields_eq {ifs : String} {names : Nat} {line : List Char} (hn : names ≠ 0) (hm : ¬ Mixed ifs names line)
    {parts : List String} (hparts : parts = Field.split [.plain (String.ofList line)] ifs) :
    (parts.length < names → (fields ifs.toList names line).map String.ofList =
      parts ++ List.replicate (names - parts.length) "") ∧
    (parts.length = names → ∃ init last tail, parts = init ++ [String.ofList last] ∧
      (fields ifs.toList names line).map String.ofList = init ++ [String.ofList (last ++ tail)] ∧
      Closes ifs.toList (trimBy (isMargin ifs.toList) line) last tail) := by
  obtain ⟨count, rfl⟩ := Nat.exists_eq_succ_of_ne_zero hn
  -- The line without the white space at its ends is what splitting cuts.
  have hsymbols : Field.trim (symbols ifs [.plain (String.ofList line)]) =
      (trimBy (isMargin ifs.toList) line).map (Symbol.ofChar ifs.toList) := by
    rw [← trim_map_ofChar]
    simp [symbols, Segment.symbols]
  obtain ⟨pieces, hcut⟩ := exists_cut (Field.trim (symbols ifs [.plain (String.ofList line)]))
  have hsplit : parts = ((kept pieces).map contents).map String.ofList := by
    rw [hparts, split_eq_of_cut (by simp) hcut, List.map_map]
    rfl
  have hlength : parts.length = ((kept pieces).map contents).length := by rw [hsplit, List.length_map]
  have hmixed : ¬ MixedSymbols count (Field.trim (symbols ifs [.plain (String.ofList line)])) :=
    fun h => hm (mixed_of_trim (hsymbols ▸ h))
  -- Taking a field for each name but the last finds the same pieces, since the line is not mixed.
  have hfits : Fits ifs.toList count (trimBy (isMargin ifs.toList) line) ((kept pieces).map contents) :=
    takeFields_of_cut hcut hsymbols.symm (head?_trim_ne _) (getLast?_trim_ne _) hmixed
  refine ⟨fun hlt => ?_, fun heq => ?_⟩
  · show (takeFields ifs.toList count (trimBy (isMargin ifs.toList) line)).map String.ofList = _
    rw [hfits.few (hlength ▸ Nat.le_of_lt_succ hlt), List.map_append, List.map_replicate, hlength, hsplit]
  · obtain ⟨init, last, tail, hfound, htake, hcloses⟩ := hfits.all (hlength ▸ heq)
    refine ⟨init.map String.ofList, last, tail, ?_, ?_, hcloses⟩
    · rw [hsplit, hfound, List.map_append, List.map_singleton]
    · show (takeFields ifs.toList count (trimBy (isMargin ifs.toList) line)).map String.ofList = _
      rw [htake, List.map_append, List.map_singleton]

/-! ## 5. Names -/

theorem not_startsWith_of_isValid {name : String} (h : Name.isValid name.toList = true) :
    name.startsWith "-" = false := by
  refine Bool.eq_false_iff.mpr fun hstart => ?_
  obtain ⟨rest, hname⟩ := String.startsWith_string_iff.mp hstart
  have hdash (rest : List Char) : Name.isIdentifier ('-' :: rest) = false := rfl
  rw [← hname] at h
  cases rest with
  | nil => exact absurd h (by decide)
  | cons c rest =>
    have h : (Name.isIdentifier ('-' :: c :: rest) || ((c :: rest).getLast? == some '\n' &&
        Name.isIdentifier ('-' :: (c :: rest).dropLast))) = true := h
    rw [hdash, hdash, Bool.and_false] at h
    exact absurd h (by decide)

/-- Names are taken as they come. -/
theorem readArgs_of_isValid (request : Request) {names : List String}
    (h : ∀ name ∈ names, Name.isValid name.toList = true) :
    readArgs request names = .ok { request with names := request.names.reverse ++ names } := by
  induction names generalizing request with
  | nil => rw [readArgs, List.append_nil]
  | cons name names ih =>
    have hvalid := h name List.mem_cons_self
    have hstart := not_startsWith_of_isValid hvalid
    have hflag : name ≠ "-r" := by
      rintro rfl
      exact absurd hvalid (by decide)
    rw [readArgs, if_neg fun hr => hflag hr.1, hstart, Bool.false_and, if_neg Bool.false_ne_true, if_pos hvalid,
      ih _ fun n hn => h n (List.mem_cons_of_mem _ hn)]
    simp

theorem length_takeFields (count : Nat) (line : List Char) : (takeFields ifs count line).length = count + 1 := by
  induction count generalizing line with
  | zero => rfl
  | succ count ih => exact congrArg (· + 1) (ih _)

/-- Names get the values beside them, and other variables stay. -/
theorem get?_foldl_set {names : List String} (hdistinct : names.Nodup) {values : List (List Char)}
    (hlength : values.length = names.length) (env : Environment) :
    let after := (names.zip values).foldl (fun env (name, value) => env.set name (String.ofList value)) env
    (∀ (i : Nat) name, names[i]? = some name → after.get? name = (values.map String.ofList)[i]?) ∧
    (∀ name, name ∉ names → after.get? name = env.get? name) ∧ { after with vars := env.vars } = env := by
  induction names generalizing values env with
  | nil => exact ⟨nofun, fun _ _ => rfl, rfl⟩
  | cons first names ih =>
    obtain ⟨value, values, rfl⟩ := List.exists_cons_of_length_eq_add_one hlength
    obtain ⟨hfirst, hrest⟩ := List.nodup_cons.mp hdistinct
    obtain ⟨hset, hothers, henv⟩ := ih hrest (Nat.succ.inj hlength) (env.set first (String.ofList value))
    refine ⟨fun i name hi => ?_, fun name hname => ?_, congrArg (fun e => { e with vars := env.vars }) henv⟩
    · cases i with
      | zero =>
        obtain rfl := Option.some.inj hi
        exact (hothers first hfirst).trans ((Table.get?_insert _ _ _ _).trans (if_pos rfl))
      | succ i => exact hset i name hi
    · obtain ⟨hne, hmem⟩ := not_or.mp fun h => hname (List.mem_cons.mpr h)
      exact (hothers name hmem).trans ((Table.get?_insert _ _ _ _).trans (if_neg fun he => hne he.symm))

/-- The line that a text with a newline at its end is, or without one. -/
theorem line_append {text : List Char} (h : '\n' ∉ text) (ended : Bool) :
    line true (text ++ if ended then ['\n'] else []) = (text, ended) := by
  unfold line
  cases ended with
  | true => simp
  | false =>
    have hlast : text.getLast? ≠ some '\n' := fun he => h (List.mem_of_getLast? he)
    simp [hlast]

/-! ## 6. Reading a line into names -/

/-- `read` with proper arguments asks for a line, and goes on with the variables that it sets. -/
theorem run_read {args : List String} {request : Request} (h : readArgs {} args = .ok request) (run : Runner)
    (c : Context) (s : State) (next : Except Abort Outcome → State → Job Ending) :
    Builtin.run run .read args c s next =
      .read c.input ⟨if request.raw then .line else .continued, false, []⟩ fun text =>
        next (.ok (.status (status (Read.line request.raw text.toList).2)))
          { s with env := assign s.env request.names (Read.line request.raw text.toList).1 } := by
  have hfollow : Call.follow .read args = .builtin .read args := by
    unfold Call.follow
    rfl
  unfold Builtin.run
  rw [hfollow]
  show Builtin.runRead args c s next = _
  unfold Builtin.runRead
  rw [h]
  rfl

/-- **`read -r` cuts a line into its fields.** It asks for a line and goes on with the same state but for the values of
the names, which are the fields of the line by the separators of the shell: with fewer fields than names the rest of
the names get empty texts, and with as many the last name gets the last field and what closes the line behind it.
Lines are left out where white space stands between a separator and one of the fields before that of the last name. -/
theorem read_splits {names : List String} (hne : names ≠ []) (hdistinct : names.Nodup)
    (hvalid : ∀ name ∈ names, Name.isValid name.toList = true) (run : Runner) (c : Context) (s : State)
    (next : Except Abort Outcome → State → Job Ending) :
    ∃ k : String → Job Ending, Builtin.run run .read ("-r" :: names) c s next = .read c.input ⟨.line, false, []⟩ k ∧
      ∀ (line : List Char) (ended : Bool), '\n' ∉ line → ∃ (after : Environment) (values : List String),
        k (String.ofList (line ++ if ended then ['\n'] else [])) =
          next (.ok (.status (status ended))) { s with env := after } ∧
        values.length = names.length ∧ (∀ (i : Nat) name, names[i]? = some name → after.get? name = values[i]?) ∧
        (∀ name, name ∉ names → after.get? name = s.env.get? name) ∧ { after with vars := s.env.vars } = s.env ∧
        let ifs := Expansion.separators s.env
        let parts := Field.split [.plain (String.ofList line)] ifs
        ¬ Mixed ifs names.length line →
          (parts.length < names.length → values = parts ++ List.replicate (names.length - parts.length) "") ∧
          (parts.length = names.length → ∃ init last tail, parts = init ++ [String.ofList last] ∧
            values = init ++ [String.ofList (last ++ tail)] ∧
            Closes ifs.toList (trimBy (isMargin ifs.toList) line) last tail) := by
  have hargs : readArgs {} ("-r" :: names) = .ok ⟨true, names⟩ := by
    rw [readArgs, if_pos ⟨rfl, rfl⟩, readArgs_of_isValid _ hvalid]
    rfl
  have hcount : names.length ≠ 0 := fun h => hne (List.eq_nil_of_length_eq_zero h)
  -- There is a value for each name, the last of which has the rest.
  have hlength (line : List Char) :
      (fields (Expansion.separators s.env).toList names.length line).length = names.length :=
    (length_takeFields _ _).trans (Nat.succ_pred_eq_of_ne_zero hcount)
  refine ⟨_, run_read hargs run c s next, fun line ended hline => ?_⟩
  -- The names are different, so each has its own value afterwards.
  obtain ⟨hset, hothers, henv⟩ := get?_foldl_set hdistinct (hlength line) s.env
  have hassign : assign s.env names line = _ := if_neg (by simpa using hne)
  rw [← hassign] at hset hothers henv
  refine ⟨assign s.env names line, (fields (Expansion.separators s.env).toList names.length line).map String.ofList,
    ?_, ?_, hset, hothers, henv, fun hm => fields_eq hcount hm rfl⟩
  · show next (.ok (.status (status (Read.line true (String.ofList _).toList).2))) _ = _
    rw [String.toList_ofList, line_append hline]
  · rw [List.length_map, hlength]

/-- A shell in which only `:` separates fields. -/
def colonsOnly : State where
  env := { vars := ⟨[("IFS", ":")]⟩ }

theorem colonsOnly_isMargin (c : Char) : ¬ isMargin ":".toList c = true := by
  intro h
  obtain ⟨hc, hspace⟩ := Bool.and_eq_true_iff.mp h
  obtain rfl : c = ':' := by simpa using hc
  exact absurd hspace (by decide)

theorem colonsOnly_not_mixed (names : Nat) (line : List Char) : ¬ Mixed ":" names line := by
  rintro ⟨before, c, spaces, d, after, -, -, hne, hspaces, -⟩
  obtain ⟨e, spaces, rfl⟩ := List.exists_cons_of_ne_nil hne
  exact colonsOnly_isMargin e (hspaces e List.mem_cons_self)

/-- One field for two names, and two fields of which the last one is closed by a separator. -/
theorem colonsOnly_splits :
    ["x", "y"] ≠ [] ∧ ["x", "y"].Nodup ∧ (∀ name ∈ ["x", "y"], Name.isValid name.toList = true) ∧
    ∀ next : Except Abort Outcome → State → Job Ending, ∃ k : String → Job Ending,
      Builtin.run (Execution.sequence 0) .read ["-r", "x", "y"] ({} : Session).context colonsOnly next =
        .read 0 ⟨.line, false, []⟩ k ∧
      (∃ after : Environment, k "a" = next (.ok (.status 1)) { colonsOnly with env := after } ∧
        after.get? "x" = some "a" ∧ after.get? "y" = some "") ∧
      ∃ after : Environment, k "a:b:\n" = next (.ok (.status 0)) { colonsOnly with env := after } ∧
        after.get? "x" = some "a" ∧ after.get? "y" = some "b:" := by
  have hne : ["x", "y"] ≠ [] := by decide
  have hdistinct : ["x", "y"].Nodup := by decide
  have hvalid : ∀ name ∈ ["x", "y"], Name.isValid name.toList = true := by decide
  refine ⟨hne, hdistinct, hvalid, fun next => ?_⟩
  obtain ⟨k, hrun, hk⟩ := read_splits hne hdistinct hvalid (Execution.sequence 0) ({} : Session).context colonsOnly next
  refine ⟨k, hrun, ?_, ?_⟩
  · obtain ⟨after, values, hafter, -, hset, -, -, hvalues⟩ := hk "a".toList false (by decide)
    have hone := (hvalues (colonsOnly_not_mixed _ _)).1 (by decide)
    refine ⟨after, hafter, (hset 0 "x" rfl).trans ?_, (hset 1 "y" rfl).trans ?_⟩ <;> rw [hone] <;> decide
  · obtain ⟨after, values, hafter, -, hset, -, -, hvalues⟩ := hk "a:b:".toList true (by decide)
    obtain ⟨init, last, tail, hparts, hall, -, hcloses⟩ := (hvalues (colonsOnly_not_mixed _ _)).2 (by decide)
    have hfields : Field.split [.plain (String.ofList "a:b:".toList)] (Expansion.separators colonsOnly.env) =
        ["a"] ++ [String.ofList ['b']] := by decide
    obtain ⟨rfl, hlast⟩ := List.append_inj' (hfields.symm.trans hparts) rfl
    obtain rfl : ['b'] = last := String.ofList_injective (List.singleton_inj.mp hlast)
    -- The line closes with the separator, and no white space is one of them.
    have htail : tail = [':'] := by
      rcases hcloses with ⟨-, hnone⟩ | ⟨spaces, d, rfl, hspaces, hd⟩
      · exact absurd (hnone ':' (by decide)) (by decide)
      · have hd : ":".toList.contains d = true := hd.1
        obtain rfl : d = ':' := by simpa using hd
        cases spaces with
        | nil => rfl
        | cons e spaces => exact absurd (hspaces e List.mem_cons_self) (colonsOnly_isMargin e)
    subst htail
    refine ⟨after, hafter, (hset 0 "x" rfl).trans ?_, (hset 1 "y" rfl).trans ?_⟩ <;> rw [hall] <;> decide

/-- The tree of `read -r x`. -/
def readOne : Sequence :=
  ⟨[⟨⟨false, .simple 1 (some ⟨1, [.literal "read"]⟩) [⟨1, [.literal "-r"]⟩, ⟨1, [.literal "x"]⟩] [], []⟩, []⟩]⟩

/-- The line `a:` has one field between colons, which is `a`, and one name gets all of it. -/
theorem closedLine_kept :
    Field.split [.plain "a:"] ":" = ["a"] ∧
      (({ vars := [("IFS", ":")] } : Session).runScript readOne (.ofText "a:\n")).env.get? "x" = some "a:" := by
  decide +kernel

end Shell.Read
