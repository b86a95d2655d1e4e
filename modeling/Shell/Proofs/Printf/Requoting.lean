/-
What `%q` writes, read again.

A text without control characters comes back: as a word of its own behind a command name, without
expansions, and with the text as it was (`readsBack_printfValue`). Its characters are written as they are or
behind a backslash, and an empty text as two quotes.

A text with a control character never comes back. Its form starts with `$'`, and to the reader of words a
dollar sign before a quote is a dollar sign. So the word that is read, if one is read at all, has one dollar sign
more at its start than the text (`not_literal_of_isControl`).
-/
import Shell.Proofs.Printf.Passes
import Shell.Proofs.Token.Literals

set_option autoImplicit false

namespace Shell

open Text Text.Quoted

/-! ## 1. The form of a text -/

/-- `%q` alone writes the form of its argument and nothing else. -/
theorem Printf.format_quoted (memory : Nat) (v : String) :
    Printf.format memory "%q" [v] = .ok (String.ofList (printfValue v.toList), []) := by
  have hspec : Printf.takeSpec? ['q'] = some (⟨{}, .none, .none, .quoted⟩, 1) := by decide
  exact Printf.format_of_convert rfl hspec rfl

/-- The characters that mean something to the reader of tokens. -/
def isSign (c : Char) : Bool := isMetacharacter c || isGuard c || c == '#'

/-- A character that `%q` leaves as it is means nothing. -/
theorem isSign_eq_false {c : Char} (h : ¬ (!isSafe c && c.toNat < 128) = true) : isSign c = false := by
  refine Bool.eq_false_iff.mpr fun hs => h ?_
  simp only [isSign, isMetacharacter, isGuard, Bool.or_eq_true, beq_iff_eq] at hs
  casesm* _ ∨ _
  all_goals
    subst c
    decide

theorem of_isSign_eq_false {c : Char} (h : isSign c = false) :
    isMetacharacter c = false ∧ isGuard c = false ∧ c ≠ '#' := by
  simpa [isSign, and_assoc] using h

theorem ne_newline_of_isControl_eq_false {c : Char} (h : isControl c = false) : c ≠ '\n' := by
  rintro rfl
  exact absurd h (by decide)

/-- Without control characters, the form of a text that is not empty is written character by
character. -/
theorem printfValue_eq_flatMap {v : List Char} (hne : v ≠ []) (h : ∀ c ∈ v, isControl c = false) :
    printfValue v = v.flatMap escapedChar := by
  have hcontrol : v.any isControl = false := by simpa using h
  unfold printfValue
  rw [if_neg (by simpa using hne), hcontrol]
  split
  · next hsafe =>
    have hsame : ∀ c ∈ v, escapedChar c = [c] := by
      intro c hc
      simp [escapedChar, List.all_eq_true.mp hsafe c hc]
    rw [List.flatMap_congr hsame]
    simp
  · rfl

/-! ## 2. Texts without control characters -/

/-- What is written for a character is read as the character. -/
theorem Reading.exists_reads_escapedChar {c : Char} (h : c ≠ '\n') (r : Reading) (ho : r.outer = none) :
    ∃ r', r.Reads (escapedChar c) [c] r' := by
  unfold escapedChar
  split
  · exact ⟨_, reads_escaped ho h⟩
  · next hc =>
    obtain ⟨hm, hg, -⟩ := of_isSign_eq_false (isSign_eq_false hc)
    exact ⟨_, reads_plain ho hm hg⟩

theorem beginsWord_flatMap_escapedChar {v : List Char} (hne : v ≠ []) (h : ∀ c ∈ v, c ≠ '\n') :
    BeginsWord (v.flatMap escapedChar) := by
  obtain ⟨c, v, rfl⟩ := List.exists_cons_of_ne_nil hne
  have hc := h c List.mem_cons_self
  rw [List.flatMap_cons]
  unfold escapedChar
  split
  · exact ⟨'\\', _, rfl, rfl, by decide, fun hn => hc (Option.some.inj hn.2)⟩
  · next hs =>
    obtain ⟨hm, hg, hne⟩ := of_isSign_eq_false (isSign_eq_false hs)
    refine ⟨c, _, rfl, hm, hne, ?_⟩
    rintro ⟨rfl, -⟩
    exact absurd hg (by decide)

/-- A written text, behind the word `:` and a blank, is read as one more word, which has no expansions
and stands for the text `v`. -/
def ReadsBack (origin : Place) (written v : List Char) : Prop :=
  ∃ colon start stop text parts,
    tokenize (':' :: ' ' :: written) origin =
      .ok [⟨.word ":" [.literal ":"], colon⟩, ⟨.word text parts, start⟩, ⟨.endOfInput, stop⟩] ∧
    WordPart.literalTexts? parts = some (String.ofList v)

/-- The tokens before the argument. -/
def afterColon (origin : Place) : Tokens := ⟨[⟨.word ":" [.literal ":"], origin⟩], false⟩

theorem tokensFrom_colon (origin : Place) (written : List Char) :
    tokensFrom {} origin (':' :: ' ' :: written) =
      tokensFrom (afterColon origin) (origin.advance [':', ' ']) written := by
  have hcolon : ({} : Reading).Reads [':'] [':'] ((({} : Reading).plain ':').skip [':']) :=
    Reading.reads_plain rfl rfl rfl
  have hread := hcolon.readParts (c := ' ') rfl origin written
  have hpush (rest : List Char) (place : Place) : ({} : Tokens).pushWord origin
      (((({} : Reading).plain ':').skip [':']).finish rest place) = afterColon origin := by
    unfold Tokens.pushWord
    rfl
  rw [tokensFrom_word ⟨':', _, rfl, rfl, by decide, by simp⟩, ← List.singleton_append, hread]
  show tokensFrom (({} : Tokens).pushWord origin _) _ (' ' :: written) = _
  rw [hpush, tokensFrom_of_took (.blank (.inl rfl))]
  rfl

theorem readsBack_of_reads {written v : List Char} (hb : BeginsWord written) {r' : Reading}
    (hr : ({} : Reading).Reads written v r') (hsize : written.length + 2 ≤ maxScriptSize)
    (origin : Place) : ReadsBack origin written v := by
  have hword : tokensFrom {} origin (':' :: ' ' :: written) = .ok
      [⟨.word ":" [.literal ":"], origin⟩,
        ⟨.word (String.ofList r'.text.reverse) r'.flushed.reverse, origin.advance [':', ' ']⟩,
        ⟨.endOfInput, (origin.advance [':', ' ']).advance written⟩] := by
    rw [tokensFrom_colon, tokensFrom_word hb, hr.readParts_last]
    show tokensFrom ((afterColon origin).pushWord _ _) _ [] = _
    rw [Tokens.pushWord_argument rfl rfl, tokensFrom]
    rfl
  refine ⟨_, _, _, _, _, tokenize_eq_ok_iff.mpr ⟨hsize, hword⟩, ?_⟩
  have hliteral := hr.literal [] rfl
  obtain ⟨text, htext, hv⟩ := Option.map_eq_some_iff.mp hliteral
  rw [htext, ← String.ofList_toList (s := text), hv, List.nil_append]

/-- A text without control characters is read back from its form, if that is not too long. -/
theorem readsBack_printfValue {v : List Char} (h : ∀ c ∈ v, isControl c = false)
    (hsize : (printfValue v).length + 2 ≤ maxScriptSize) (origin : Place) :
    ReadsBack origin (printfValue v) v := by
  by_cases hne : v = []
  · subst hne
    have hempty : ({} : Reading).Reads ['\'', '\''] [] _ := Reading.reads_singleQuoted rfl List.not_mem_nil
    exact readsBack_of_reads ⟨'\'', _, rfl, rfl, by decide, by decide⟩ hempty hsize origin
  · have hline : ∀ c ∈ v, c ≠ '\n' := fun c hc => ne_newline_of_isControl_eq_false (h c hc)
    rw [printfValue_eq_flatMap hne h] at hsize ⊢
    obtain ⟨r', hr⟩ := Reading.exists_reads_flatMap (r := {})
      (fun c hc r ho => Reading.exists_reads_escapedChar (hline c hc) r ho) rfl
    exact readsBack_of_reads (beginsWord_flatMap_escapedChar hne hline) hr hsize origin

/-! ## 3. Texts with control characters -/

theorem isControl_of_isSafe {c : Char} (h : isSafe c = true) : isControl c = false := by
  have hrange (h : 32 ≤ c.toNat ∧ c.toNat < 127) : isControl c = false := by
    simp only [isControl, Bool.or_eq_false_iff, decide_eq_false_iff_not]
    omega
  simp only [isSafe, isAsciiLetter, isAsciiDigit, Bool.or_eq_true, between_iff, Char.reduceToNat] at h
  rcases h with ((h | h) | h) | h
  · exact hrange (by omega)
  · exact hrange (by omega)
  · exact hrange (by omega)
  · have hall : ("_@%+=:,./-".toList.all fun d => !isControl d) = true := by decide
    have hnone := List.all_eq_true.mp hall c (by simpa using h)
    simpa using hnone

theorem printfValue_of_isControl {v : List Char} {c : Char} (hc : c ∈ v) (h : isControl c = true) :
    printfValue v = '$' :: '\'' :: v.flatMap controlChar ++ ['\''] := by
  have hsafe : v.all isSafe = false := by
    refine List.all_eq_false.mpr ⟨c, hc, fun hs => ?_⟩
    rw [isControl_of_isSafe hs] at h
    cases h
  unfold printfValue
  rw [if_neg (by simpa using List.ne_nil_of_mem hc), hsafe, if_neg Bool.false_ne_true,
    if_pos (List.any_eq_true.mpr ⟨c, hc, h⟩)]

/-- A dollar sign before a single quote stands for itself. -/
theorem dollar_quote (place : Place) (cs : List Char) :
    (({} : Reading).expand place '$' ('\'' :: cs)) =
      .ok (((({} : Reading).skip ['$']).plain '$'), place.after '$', '\'' :: cs) := by
  have hopening : Opening.at? place '$' ('\'' :: cs) = .ok (some (Opening.plain place ('\'' :: cs))) := rfl
  exact Reading.expand_eq_ok_iff.mpr (.dollar hopening (readPart_eq_ok_iff.mpr (.dollar rfl)))

/-- A word that begins with a dollar sign and a single quote is a dollar sign, the text up to the next
single quote, and more. -/
theorem parts_of_dollar_quote {place : Place} {cs : List Char} {piece : Piece}
    (h : readParts isMetacharacter {} place ('$' :: '\'' :: cs) = .ok piece) :
    ∃ content rest more, cs = content ++ '\'' :: rest ∧
      piece.parts = .literal "$" :: .singleQuoted (String.ofList content) :: more := by
  -- A quote opens no expansion, so the dollar sign is taken as it is.
  have hdollar : ({} : Reading).Took isMetacharacter place '$' ('\'' :: cs) _ :=
    .expanded (by decide) (by decide) (fun _ => ⟨rfl, by decide⟩) (dollar_quote place cs)
  rw [readParts_of_took hdollar, readParts_cons] at h
  cases hs : ((({} : Reading).skip ['$']).plain '$').step isMetacharacter (place.after '$') '\'' cs with
  | error e =>
    rw [hs] at h
    cases h
  | ok turn? =>
    rw [hs] at h
    cases turn? with
    | none => cases (Reading.step_eq_none_iff.mp hs).2
    | some turn =>
      have htook := Reading.step_eq_some_iff.mp hs
      -- The quote can only be taken as the start of a quoted region.
      cases htook with
      | @single _ region ho hstop hr =>
        obtain ⟨used, hcontent, hcs, -⟩ := Scan.singleQuoted_cuts hr
        rw [List.reverse_nil, List.nil_append] at hcontent
        obtain ⟨more, hmore⟩ := readParts_outermost h
        exact ⟨region.content, region.rest, more, by rw [hcs, hcontent, List.append_assoc]; rfl,
          hmore.symm⟩
      | expanded hb hq hs he => exact absurd rfl (hs rfl).2

/-- What stands between the quotes of a text with a control character, up to the first one,
begins with as many dollar signs as the text. With another before it, it is no beginning of the text. -/
theorem not_literal_of_isControl {v content rest more : List Char} {c : Char} (hc : c ∈ v)
    (h : isControl c = true) (hv : v.flatMap controlChar ++ ['\''] = content ++ '\'' :: rest) :
    v ≠ '$' :: content ++ more := by
  induction v generalizing content with
  | nil => cases hc
  | cons d v ih =>
    rintro heq
    obtain ⟨rfl, rfl⟩ := List.cons.inj heq
    have hmem : c ∈ content ++ more := by
      refine (List.mem_cons.mp hc).resolve_left ?_
      rintro rfl
      exact absurd h (by decide)
    -- The dollar sign is written as it is, so the same holds of what is behind it.
    cases content with
    | nil => cases (List.cons.inj hv).1
    | cons e content =>
      obtain ⟨rfl, hv'⟩ := List.cons.inj hv
      exact ih hmem hv' rfl

/-- A text with a control character is never read back from its form. -/
theorem not_readsBack_of_isControl {v : List Char} {c : Char} (hc : c ∈ v) (h : isControl c = true)
    (origin : Place) : ¬ ReadsBack origin (printfValue v) v := by
  rintro ⟨colon, start, stop, text, parts, htokens, hliteral⟩
  have hfrom := (tokenize_eq_ok_iff.mp htokens).2
  rw [tokensFrom_colon, printfValue_of_isControl hc h, List.cons_append, List.cons_append,
    tokensFrom_word ⟨'$', _, rfl, rfl, by decide, by simp⟩] at hfrom
  split at hfrom
  · cases hfrom
  · next piece hpiece =>
    rw [Tokens.pushWord_argument rfl rfl] at hfrom
    obtain ⟨pieces, htokens, -⟩ := tokensFrom_laidOut hfrom
    obtain rfl : parts = piece.parts := by
      have hsecond := (List.cons.inj (List.cons.inj htokens).2).1
      exact (Lexeme.word.inj (Token.mk.inj hsecond).1).2
    obtain ⟨content, rest, more, hcs, hparts⟩ := parts_of_dollar_quote hpiece
    have hv : literal? piece.parts = some v := by
      rw [literal?, hliteral, Option.map_some, String.toList_ofList]
    rw [hparts, literal?_cons, literal?_cons] at hv
    cases hm : literal? more with
    | none => simp [hm, WordPart.literalText?] at hv
    | some behind =>
      have hv : '$' :: content ++ behind = v := by simpa [hm, WordPart.literalText?] using hv
      exact not_literal_of_isControl hc h hcs hv.symm

/-! ## 4. Which texts are read back -/

/-- **A text is read back from what `%q` writes of it exactly if it has no control characters**, and
if what is written is not too large for a script. -/
theorem quoted_readsBack_iff (memory : Nat) (origin : Place) (v : String) :
    ∃ written, Printf.format memory "%q" [v] = .ok (written, []) ∧
      (ReadsBack origin written.toList v.toList ↔
        (∀ c ∈ v.toList, isControl c = false) ∧ written.toList.length + 2 ≤ maxScriptSize) := by
  refine ⟨_, Printf.format_quoted memory v, ?_⟩
  rw [String.toList_ofList]
  constructor
  · intro hback
    refine ⟨fun c hc => Bool.eq_false_iff.mpr fun h => not_readsBack_of_isControl hc h origin hback, ?_⟩
    obtain ⟨colon, start, stop, text, parts, htokens, -⟩ := hback
    exact (tokenize_eq_ok_iff.mp htokens).1
  · rintro ⟨h, hsize⟩
    exact readsBack_printfValue h hsize origin

/-- A newline is written as `$'\n'`, which is not read as a newline. -/
theorem newline_not_readsBack :
    Printf.format 1000 "%q" ["\n"] = .ok ("$'\\n'", []) ∧
      ¬ ∀ v written : String, Printf.format 1000 "%q" [v] = .ok (written, []) →
        ReadsBack ⟨1, 1⟩ written.toList v.toList := by
  refine ⟨Printf.format_quoted 1000 "\n", fun h => ?_⟩
  exact not_readsBack_of_isControl (v := ['\n']) List.mem_cons_self rfl ⟨1, 1⟩
    (h "\n" _ (Printf.format_quoted 1000 "\n"))

end Shell
