/-
What follows what has been read.

A turn of reading takes some characters and leaves the rest of the text. What it takes does not depend on the rest,
but for the next character: a name after a dollar sign goes on as long as there are characters of a name, a backslash
in double quotes stands for itself before most of them, and an operator is the longest that fits. So the rest of the
text may be replaced by any other that starts with the same character (`Reading.Took.follow`, `Tokens.Took.follow`).

Outside of double quotes the rest may also be replaced by one that starts with a backslash: a backslash is no
character of a name and opens nothing (`Reading.MayFollow`).
-/
import Shell.Proofs.Token.Layout

set_option autoImplicit false

namespace Shell

open Shell.Text

/-! ## 1. Regions -/

namespace Scan

variable {opener closer : Char} {missing : ScriptError} {quotation : Quotation} {depth : Nat}
  {content cs : List Char} {place start : Place} {what : Delimited} {region : Region}

/-- The scan finds the region in the text, and finds it whatever follows it. -/
def Region.FoundBy (scan : List Char → Except ScriptError Region) (cs : List Char) (region : Region) : Prop :=
  ∃ used, cs = used ++ region.rest ∧ ∀ rest, scan (used ++ rest) = .ok (region.before rest)

/-- A region that has been taken is found whatever follows it. -/
theorem Region.Taken.foundBy {scan : List Char → Except ScriptError Region} {closing : List Char}
    (h : region.Taken scan closing content place cs) : region.FoundBy scan cs := by
  obtain ⟨used, -, htext, -, hfound⟩ := h
  exact ⟨used ++ closing, htext, hfound⟩

theorem balanced_found (h : balanced opener closer missing quotation depth content place cs = .ok region) :
    region.FoundBy (balanced opener closer missing quotation depth content place) cs :=
  (balanced_takes h).foundBy

theorem expression_found (h : expression what missing quotation depth content place cs = .ok region) :
    region.FoundBy (expression what missing quotation depth content place) cs :=
  (expression_takes h).foundBy

theorem singleQuoted_found (h : singleQuoted start content place cs = .ok region) :
    region.FoundBy (singleQuoted start content place) cs :=
  (singleQuoted_takes h).foundBy

theorem backquoted_found (h : backquoted start content place cs = .ok region) :
    region.FoundBy (backquoted start content place) cs :=
  (backquoted_takes h).foundBy

end Scan

/-! ## 2. Expansions -/

namespace Opening

variable {place : Place} {c : Char} {cs : List Char} {opening : Opening}

/-- The expansion with another text after it. -/
def before (opening : Opening) (rest : List Char) : Opening := { opening with rest := rest }

/-- The text goes on with the same character as another one, or with a backslash. -/
def Meets (cs rest : List Char) : Prop := rest.head? = cs.head? ∨ rest.head? = some '\\'

theorem Meets.not {cs rest : List Char} (h : Meets cs rest) {p : Char → Bool} (hp : p '\\' = false)
    (hcs : ∀ c ∈ cs.head?, p c = false) : ∀ c ∈ rest.head?, p c = false := by
  intro c hmem
  rcases h with h | h
  · exact hcs c (h ▸ hmem)
  · obtain rfl := Option.some.inj (h.symm.trans hmem)
    exact hp

theorem Meets.prepend {cs rest : List Char} (h : Meets cs rest) (used : List Char) :
    Meets (used ++ cs) (used ++ rest) := by
  cases used with
  | nil => exact h
  | cons c used => exact .inl rfl

theorem plainExtent_cons (c : Char) (cs : List Char) :
    plainExtent (c :: cs) =
      if isLetter c || c == '_' then 1 + (cs.takeWhile fun d => isAlphanumeric d || d == '_').length
      else if isDigit c || Braced.isSpecial c then 1 else 0 := rfl

/-- A name goes on no further. -/
theorem plainExtent_meets {rest : List Char} (h : Meets (cs.drop (plainExtent cs)) rest) :
    plainExtent (cs.take (plainExtent cs) ++ rest) = plainExtent cs := by
  -- If no name starts here, none starts with the other rest.
  have hnone : plainExtent cs = 0 → plainExtent rest = 0 := by
    intro hzero
    rw [hzero, List.drop_zero] at h
    have hhead : ∀ c ∈ rest.head?, (isLetter c || c == '_' || (isDigit c || Braced.isSpecial c)) = false := by
      refine h.not (by decide) fun c hmem => ?_
      obtain ⟨cs, rfl⟩ := List.head?_eq_some_iff.mp (Option.mem_def.mp hmem)
      rw [plainExtent_cons] at hzero
      grind
    cases rest with
    | nil => rfl
    | cons c rest =>
      have hc := hhead c rfl
      rw [plainExtent_cons]
      grind
  cases cs with
  | nil => exact hnone rfl
  | cons c cs =>
    by_cases hletter : (isLetter c || c == '_') = true
    · -- A name: what follows it is no character of a name, and neither is a backslash.
      have hextent := fun cs => (plainExtent_cons c cs).trans (if_pos hletter)
      have hrun := List.prefix_iff_eq_take.mp (List.takeWhile_prefix (fun d => isAlphanumeric d || d == '_') (l := cs))
      rw [hextent, Nat.add_comm, List.drop_succ_cons] at h
      rw [hextent, Nat.add_comm, List.take_succ_cons, List.cons_append, hextent, ← hrun, Nat.add_comm,
        takeWhile_append_of_head? (fun _ => List.mem_takeWhile_imp) (h.not (by decide) head?_drop_takeWhile)]
    · have hextent := fun cs => (plainExtent_cons c cs).trans (if_neg hletter)
      -- One digit or special character is taken, whatever follows.
      by_cases hdigit : (isDigit c || Braced.isSpecial c) = true
      · have hone := fun cs => (hextent cs).trans (if_pos hdigit)
        rw [hone, List.take_succ_cons, List.cons_append, hone]
      · have hzero := (hextent cs).trans (if_neg hdigit)
        rw [hzero, List.take_zero, List.nil_append, hnone hzero]

theorem plainExtent_le : plainExtent cs ≤ cs.length := by
  cases cs with
  | nil => exact Nat.le_refl _
  | cons c cs =>
    have hrun := (List.takeWhile_sublist (fun d => isAlphanumeric d || d == '_') (l := cs)).length_le
    rw [plainExtent_cons, List.length_cons]
    split
    · omega
    · split <;> omega

theorem plain_follow (place : Place) {rest : List Char} (h : Meets (plain place cs).rest rest) :
    plain place (cs.take (plainExtent cs) ++ rest) = (plain place cs).before rest := by
  have hlength : (cs.take (plainExtent cs)).length = plainExtent cs := List.length_take_of_le plainExtent_le
  unfold plain before
  simp only [plainExtent_meets h, List.take_left' hlength, List.drop_left' hlength]

/-- **What is opened** is over where it ends: the same is opened whatever follows, unless a name goes on. -/
theorem at?_follow (h : at? place c cs = .ok (some opening)) : ∃ used, cs = used ++ opening.rest ∧
    ∀ rest, Meets opening.rest rest → at? place c (used ++ rest) = .ok (some (opening.before rest)) := by
  simp only [at?_eq_some_iff] at h ⊢
  cases h with
  | arithmetic hr =>
    obtain ⟨used, rfl, hfound⟩ := Scan.expression_found hr
    exact ⟨'(' :: '(' :: used, rfl, fun rest _ => .arithmetic (hfound rest)⟩
  | command hb hr =>
    obtain ⟨used, rfl, hfound⟩ := Scan.balanced_found hr
    -- The first character of the region is its own, so no second parenthesis comes with the text that follows.
    have hsome : used ≠ [] := by
      rintro rfl
      have hlength := Scan.balanced_length hr
      simp only [List.nil_append, List.length_nil] at hlength
      omega
    refine ⟨'(' :: used, rfl, fun rest _ => .command ?_ (hfound rest)⟩
    rwa [List.head?_append_of_ne_nil _ hsome] at hb ⊢
  | braced hr =>
    obtain ⟨used, rfl, hfound⟩ := Scan.balanced_found hr
    exact ⟨'\x7b' :: used, rfl, fun rest _ => .braced (hfound rest)⟩
  | plain hp hb =>
    refine ⟨cs.take (plainExtent cs), (List.take_append_drop _ _).symm, fun rest hrest => ?_⟩
    rw [← plain_follow place hrest]
    -- Nothing that is opened by more than a dollar sign.
    have hhead {d : Char} (hd : d ≠ '\\') (hne : cs.head? ≠ some d) :
        (cs.take (plainExtent cs) ++ rest).head? ≠ some d := by
      have hmeets := Meets.prepend hrest (cs.take (plainExtent cs))
      rw [plain, List.take_append_drop] at hmeets
      intro hmem
      have hnot := hmeets.not (p := (· == d)) (beq_false_of_ne hd.symm) fun c hc => ?_
      · simpa using hnot d hmem
      · rw [beq_eq_false_iff_ne]
        rintro rfl
        exact hne hc
    exact .plain (hhead (by decide) hp) (hhead (by decide) hb)
  | backquoted hr =>
    obtain ⟨used, hused, hfound⟩ := Scan.backquoted_found hr
    exact ⟨used, hused, fun rest _ => .backquoted (hfound rest)⟩

end Opening

/-! ## 3. Words -/

namespace Reading

variable {stop : Char → Bool} {r : Reading} {place : Place} {c : Char} {cs : List Char} {turn : Turn}
  {piece : Piece}

/-- What may follow in place of what does: a text that starts with the same character, or, outside of double quotes
and if anything follows at all, with a backslash. At the end of the text a backslash would stand for itself. -/
def MayFollow (r : Reading) (cs rest : List Char) : Prop :=
  rest.head? = cs.head? ∨ r.outer = none ∧ cs ≠ [] ∧ rest.head? = some '\\'

theorem MayFollow.meets {rest : List Char} (h : r.MayFollow cs rest) : Opening.Meets cs rest := by
  rcases h with h | ⟨-, -, h⟩
  · exact .inl h
  · exact .inr h

theorem expand_follow (h : r.expand place c cs = .ok turn) : ∃ used, cs = used ++ turn.2.2 ∧
    ∀ rest, Opening.Meets turn.2.2 rest → r.expand place c (used ++ rest) = .ok (turn.1, turn.2.1, rest) := by
  simp only [expand_eq_ok_iff] at h ⊢
  cases h with
  | character hd hq => exact ⟨[], rfl, fun rest _ => .character hd hq⟩
  | dollar ho hp =>
    obtain ⟨used, hused, hfollow⟩ := Opening.at?_follow ho
    exact ⟨used, hused, fun rest hrest => .dollar (hfollow rest hrest) ((readPart_rest _ _).trans hp)⟩
  | part ho hp =>
    obtain ⟨used, hused, hfollow⟩ := Opening.at?_follow ho
    exact ⟨used, hused, fun rest hrest => .part (hfollow rest hrest) ((readPart_rest _ _).trans hp)⟩

/-- **A turn is the same whatever follows it**, but for the next character. -/
theorem Took.follow (ht : Took stop r place c cs turn) : ∃ used, cs = used ++ turn.2.2 ∧
    ∀ rest, turn.1.MayFollow turn.2.2 rest → Took stop r place c (used ++ rest) (turn.1, turn.2.1, rest) := by
  -- A turn looks at the next character only where it takes nothing behind its own.
  cases ht with
  | last hs =>
    refine ⟨[], rfl, fun rest hrest => ?_⟩
    rcases hrest with hhead | ⟨-, hne, -⟩
    · obtain rfl := List.head?_eq_none_iff.mp hhead
      exact .last hs
    · exact absurd rfl hne
  | continued hs => exact ⟨['\n'], rfl, fun rest _ => .continued hs⟩
  | @escaped d ds ho hs hd => exact ⟨[d], rfl, fun rest _ => .escaped ho hs hd⟩
  | @escapedInside d ds ho hd he => exact ⟨[d], rfl, fun rest _ => .escapedInside ho hd he⟩
  | kept ho hd he =>
    refine ⟨[], rfl, fun rest hrest => ?_⟩
    rcases hrest with hhead | ⟨houtside, -, -⟩
    · obtain ⟨ds, rfl⟩ := List.head?_eq_some_iff.mp hhead
      exact .kept ho hd he
    · exact absurd houtside ho
  | single ho hs hr =>
    obtain ⟨used, hused, hfound⟩ := Scan.singleQuoted_found hr
    exact ⟨used, hused, fun rest _ => .single ho hs (hfound rest)⟩
  | entered ho hs => exact ⟨[], rfl, fun rest _ => .entered ho hs⟩
  | left ho => exact ⟨[], rfl, fun rest _ => .left ho⟩
  | expanded hb hq hs he =>
    obtain ⟨used, hused, hfollow⟩ := expand_follow he
    exact ⟨used, hused, fun rest hrest => .expanded hb hq hs (hfollow rest hrest.meets)⟩

end Reading

theorem head?_append_congr {used cs rest : List Char} (h : rest.head? = cs.head?) :
    (used ++ rest).head? = (used ++ cs).head? := by
  cases used with
  | nil => exact h
  | cons c used => rfl

/-- **A word is the same whatever follows it**, if that starts with the same character. -/
theorem readParts_follow {stop : Char → Bool} {r : Reading} {place : Place} {cs : List Char} {piece : Piece}
    (h : readParts stop r place cs = .ok piece) : ∃ used, cs = used ++ piece.rest ∧
      ∀ rest, rest.head? = piece.rest.head? →
        readParts stop r place (used ++ rest) = .ok { piece with rest := rest } := by
  induction h using readParts_induction with
  | ended ho hc =>
    refine ⟨[], rfl, fun rest hrest => ?_⟩
    exact readParts_of_over ho (hrest ▸ hc)
  | @turn _ _ _ c _ _ _ ht _ _ ih =>
    obtain ⟨used, hused, hfollow⟩ := ht.follow
    obtain ⟨used', hused', hfollow'⟩ := ih
    refine ⟨c :: (used ++ used'), ?_, fun rest hrest => ?_⟩
    · rw [hused, hused', List.cons_append, List.append_assoc]
    · have ht' := hfollow (used' ++ rest) (.inl (by rw [hused']; exact head?_append_congr hrest))
      rw [List.cons_append, List.append_assoc, readParts_of_took ht']
      exact hfollow' rest hrest

/-! ## 4. Tokens -/

/-- Which operator a text starts with depends on no more than two characters. -/
theorem operatorAt?_follow {c : Char} {cs : List Char} {op : Operator} (h : operatorAt? (c :: cs) = some op) :
    ∃ used, cs = used ++ cs.drop (op.text.length - 1) ∧ used.length = op.text.length - 1 ∧
      ∀ rest, rest.head? = (cs.drop (op.text.length - 1)).head? → operatorAt? (c :: (used ++ rest)) = some op := by
  obtain ⟨htext, -⟩ := operatorAt?_text h
  cases hop : op.text.toList with
  | nil => cases op <;> cases hop
  | cons d used =>
    rw [hop, List.cons_append] at htext
    obtain ⟨rfl, hused⟩ := List.cons.inj htext
    have hlength : used.length = op.text.length - 1 := by
      rw [← String.length_toList, hop]
      rfl
    refine ⟨used, hused, hlength, fun rest hrest => ?_⟩
    rw [operatorAt?_cons, head?_append_congr hrest, ← hused, ← operatorAt?_cons, h]

theorem Tokens.Took.follow {ts : Tokens} {place : Place} {c : Char} {cs : List Char} {turn : Turn}
    (ht : Took ts place c cs turn) : ∃ used, cs = used ++ turn.2.2 ∧
      ∀ rest, rest.head? = turn.2.2.head? → Took ts place c (used ++ rest) (turn.1, turn.2.1, rest) := by
  cases ht with
  | blank hc => exact ⟨[], rfl, fun rest _ => .blank hc⟩
  | continued => exact ⟨['\n'], rfl, fun rest _ => .continued⟩
  | newline => exact ⟨[], rfl, fun rest _ => .newline⟩
  | comment =>
    have hsplit : cs = cs.takeWhile (· ≠ '\n') ++ cs.drop (cs.takeWhile (· ≠ '\n')).length :=
      (List.prefix_iff_eq_append.mp (List.takeWhile_prefix _)).symm
    refine ⟨cs.takeWhile (· ≠ '\n'), hsplit, fun rest hrest => ?_⟩
    -- The comment ends where it did: at a newline, or at the end of the text.
    have hrun : (cs.takeWhile (· ≠ '\n') ++ rest).takeWhile (· ≠ '\n') = cs.takeWhile (· ≠ '\n') := by
      refine takeWhile_append_of_head? (fun _ => List.mem_takeWhile_imp) fun d hd => ?_
      rw [hrest] at hd
      exact head?_drop_takeWhile d hd
    have htook : Took ts place '#' (cs.takeWhile (· ≠ '\n') ++ rest) _ := .comment
    rwa [hrun, List.drop_left] at htook
  | arithmetic hs hr hp =>
    obtain ⟨used, rfl, hfound⟩ := Scan.expression_found hr
    exact ⟨'(' :: used, rfl, fun rest _ => .arithmetic hs (hfound rest) hp⟩
  | @operator _ _ op ho hs =>
    obtain ⟨used, hused, hlength, hfollow⟩ := operatorAt?_follow ho
    refine ⟨used, hused, fun rest hrest => ?_⟩
    have hhead : (used ++ rest).head? = cs.head? := by
      rw [head?_append_congr hrest, ← hused]
    have htook : Took ts place c (used ++ rest) _ := .operator (hfollow rest hrest) (hhead ▸ hs)
    rwa [List.drop_left' hlength] at htook
  | @word _ _ piece hm hc hb hp =>
    obtain ⟨used, hused, hfollow⟩ := readParts_follow hp
    cases used with
    | nil =>
      have hlt := readWord_length hm hp
      rw [hused, List.nil_append] at hlt
      exact absurd hlt (Nat.lt_irrefl _)
    | cons d used =>
      obtain ⟨rfl, rfl⟩ := List.cons.inj hused
      refine ⟨used, rfl, fun rest hrest => ?_⟩
      have hb' : ¬ (c = '\\' ∧ (used ++ rest).head? = some '\n') := by
        rwa [head?_append_congr hrest]
      exact .word hm hc hb' (hfollow rest hrest)

/-! ## 5. Turn after turn -/

/-- Turns of a reader, one after another: what it has read, the place, and the text that is left come to be the
last ones. -/
inductive LeadsTo {σ : Type} (took : σ → Place → Char → List Char → σ × Place × List Char → Prop) :
    σ × Place × List Char → σ × Place × List Char → Prop where
  | here {last : σ × Place × List Char} : LeadsTo took last last
  | turn {s : σ} {place : Place} {c : Char} {cs : List Char} {next last : σ × Place × List Char}
      (first : took s place c cs next) (more : LeadsTo took next last) : LeadsTo took (s, place, c :: cs) last

/-- **What turns lead to is the same whatever follows.** -/
theorem LeadsTo.follow {σ : Type} {took : σ → Place → Char → List Char → σ × Place × List Char → Prop}
    {P : σ → List Char → List Char → Prop}
    (hmay : ∀ s cs rest, rest.head? = cs.head? → P s cs rest)
    (htook : ∀ {s place c cs next}, took s place c cs next → ∃ used, cs = used ++ next.2.2 ∧
      ∀ rest, P next.1 next.2.2 rest → took s place c (used ++ rest) (next.1, next.2.1, rest))
    {first last : σ × Place × List Char} (h : LeadsTo took first last) :
    ∃ used, first.2.2 = used ++ last.2.2 ∧ (used = [] → first = last) ∧
      ∀ rest, P last.1 last.2.2 rest →
        LeadsTo took (first.1, first.2.1, used ++ rest) (last.1, last.2.1, rest) := by
  induction h with
  | here => exact ⟨[], rfl, fun _ => rfl, fun rest _ => .here⟩
  | @turn s place c cs next last hfirst more ih =>
    obtain ⟨used, rfl, hfollow⟩ := htook hfirst
    obtain ⟨used', hused, hsame, hmore⟩ := ih
    refine ⟨c :: (used ++ used'), ?_, nofun, fun rest hrest => ?_⟩
    · rw [hused, List.cons_append, List.append_assoc]
    -- What follows the first turn is what the other turns take, or the rest.
    · have hnext : P next.1 next.2.2 (used' ++ rest) := by
        cases used' with
        | nil =>
          obtain rfl := hsame rfl
          exact hrest
        | cons d used' =>
          refine hmay _ _ _ ?_
          rw [hused]
          rfl
      have hfirst' := hfollow (used' ++ rest) hnext
      rw [← List.append_assoc] at hfirst'
      exact .turn hfirst' (hmore rest hrest)

theorem LeadsTo.follow_word {stop : Char → Bool} {first last : Reading.Turn}
    (h : LeadsTo (Reading.Took stop) first last) :
    ∃ used, first.2.2 = used ++ last.2.2 ∧ ∀ rest, last.1.MayFollow last.2.2 rest →
      LeadsTo (Reading.Took stop) (first.1, first.2.1, used ++ rest) (last.1, last.2.1, rest) := by
  obtain ⟨used, hused, -, hfollow⟩ :=
    h.follow (P := Reading.MayFollow) (fun _ _ _ hhead => .inl hhead) fun htook => htook.follow
  exact ⟨used, hused, hfollow⟩

theorem LeadsTo.follow_tokens {first last : Tokens.Turn} (h : LeadsTo Tokens.Took first last) :
    ∃ used, first.2.2 = used ++ last.2.2 ∧ ∀ rest, rest.head? = last.2.2.head? →
      LeadsTo Tokens.Took (first.1, first.2.1, used ++ rest) (last.1, last.2.1, rest) := by
  obtain ⟨used, hused, -, hfollow⟩ :=
    h.follow (P := fun _ cs rest => rest.head? = cs.head?) (fun _ _ _ hhead => hhead) fun htook => htook.follow
  exact ⟨used, hused, hfollow⟩

/-- Reading a word goes on from where turns lead to. -/
theorem LeadsTo.readParts {stop : Char → Bool} {first last : Reading.Turn}
    (h : LeadsTo (Reading.Took stop) first last) :
    Shell.readParts stop first.1 first.2.1 first.2.2 = Shell.readParts stop last.1 last.2.1 last.2.2 := by
  induction h with
  | here => rfl
  | turn first _ ih =>
    rw [readParts_of_took first]
    exact ih

/-- Reading tokens goes on from where turns lead to. -/
theorem LeadsTo.tokensFrom {first last : Tokens.Turn} (h : LeadsTo Tokens.Took first last) :
    Shell.tokensFrom first.1 first.2.1 first.2.2 = Shell.tokensFrom last.1 last.2.1 last.2.2 := by
  induction h with
  | here => rfl
  | turn first _ ih =>
    rw [tokensFrom_of_took first]
    exact ih

end Shell
