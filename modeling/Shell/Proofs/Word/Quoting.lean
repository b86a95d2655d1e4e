/-
Quoting in every mix.

A text can be written bare, with a backslash before a character, in single quotes or in double quotes, and
a word can be put together from texts written in any of these ways (`Fragment`). Each kind of fragment says
which texts it can hold. However they are mixed, the word is read as one word, it stands for the texts one
after the other, and it is expanded to this one field: no separators cut it, and if there is no character
in it, it is an empty field and not none (`fragments_readBack`).
-/
import Shell.Proofs.Printf.Requoting
import Shell.Proofs.Token.DoubleQuotes
import Shell.Proofs.Word.Literal

set_option autoImplicit false

namespace Shell

/-- A text and one of the ways to write it, which it can be written in. -/
inductive Fragment where
  /-- As it is: some characters, none of which means anything. -/
  | bare (text : List Char) (hne : text ≠ []) (h : ∀ c ∈ text, isSign c = false)
  /-- A character behind a backslash. Behind it a newline is no character. -/
  | escaped (c : Char) (h : c ≠ '\n')
  | singleQuoted (text : List Char) (h : '\'' ∉ text)
  | doubleQuoted (text : List Char)

namespace Fragment

/-- How a character is written between double quotes. -/
def doubleQuotedChar (c : Char) : List Char := if isDoubleQuoteEscape c then ['\\', c] else [c]

/-- What is written. -/
def written : Fragment → List Char
  | bare text _ _ => text
  | escaped c _ => ['\\', c]
  | singleQuoted text _ => '\'' :: text ++ ['\'']
  | doubleQuoted text => '"' :: text.flatMap doubleQuotedChar ++ ['"']

/-- What it stands for. -/
def text : Fragment → List Char
  | bare text _ _ => text
  | escaped c _ => [c]
  | singleQuoted text _ => text
  | doubleQuoted text => text

/-! ## 1. One fragment -/

theorem inside_flatMap_doubleQuotedChar (text : List Char) :
    Inside (text.flatMap doubleQuotedChar) text := by
  induction text with
  | nil => exact .nil
  | cons c text ih =>
    rw [List.flatMap_cons]
    unfold doubleQuotedChar
    split
    · next hc => exact .escaped hc ih
    · next hc => exact .plain (Bool.eq_false_iff.mpr hc) ih

/-- **A fragment is read as its text**, and it leaves a part behind even if the text is empty. -/
theorem exists_reads (fragment : Fragment) {r : Reading} (ho : r.outer = none) :
    ∃ r', r.Reads fragment.written fragment.text r' ∧ r'.flushed ≠ [] := by
  cases fragment with
  | bare text hne h =>
    -- The last character is left out of the induction: the part that is left behind has it.
    obtain ⟨first, c, rfl⟩ := (List.eq_nil_or_concat' text).resolve_left hne
    have hread (d : Char) (hd : d ∈ first) (r : Reading) (ho : r.outer = none) :
        ∃ r', r.Reads [d] [d] r' := by
      obtain ⟨hm, hg, -⟩ := of_isSign_eq_false (h d (List.mem_append_left _ hd))
      exact ⟨_, Reading.reads_plain ho hm hg⟩
    obtain ⟨r₁, h₁⟩ := Reading.exists_reads_flatMap hread ho
    obtain ⟨hm, hg, -⟩ := of_isSign_eq_false (h c (List.mem_append_right _ List.mem_cons_self))
    have hreads := h₁.trans (Reading.reads_plain h₁.outside hm hg)
    rw [List.flatMap_singleton'] at hreads
    refine ⟨_, hreads, ?_⟩
    show (r₁.plain c).flushed ≠ []
    rw [Reading.flushed_plain]
    exact List.cons_ne_nil _ _
  | escaped c h => exact ⟨_, Reading.reads_escaped ho h, List.cons_ne_nil _ _⟩
  | singleQuoted text h => exact ⟨_, Reading.reads_singleQuoted ho h, List.cons_ne_nil _ _⟩
  | doubleQuoted text =>
    exact ⟨_, Reading.reads_doubleQuoted ho (inside_flatMap_doubleQuotedChar text), List.cons_ne_nil _ _⟩

/-- A fragment can be the first of a word. -/
theorem beginsWord (fragment : Fragment) (rest : List Char) : BeginsWord (fragment.written ++ rest) := by
  cases fragment with
  | bare text hne h =>
    obtain ⟨c, text, rfl⟩ := List.exists_cons_of_ne_nil hne
    obtain ⟨hm, hg, hhash⟩ := of_isSign_eq_false (h c List.mem_cons_self)
    refine ⟨c, text ++ rest, rfl, hm, hhash, ?_⟩
    rintro ⟨rfl, -⟩
    cases hg
  | escaped c h => exact ⟨'\\', c :: rest, rfl, rfl, by decide, fun hn => h (Option.some.inj hn.2)⟩
  | singleQuoted text h => exact ⟨'\'', _, rfl, rfl, by decide, fun hn => absurd hn.1 (by decide)⟩
  | doubleQuoted text => exact ⟨'"', _, rfl, rfl, by decide, fun hn => absurd hn.1 (by decide)⟩

/-! ## 2. Words of fragments -/

theorem exists_reads_flatMap {fragments : List Fragment} (hne : fragments ≠ []) {r : Reading}
    (ho : r.outer = none) :
    ∃ r', r.Reads (fragments.flatMap written) (fragments.flatMap text) r' ∧ r'.flushed ≠ [] := by
  induction fragments generalizing r with
  | nil => exact absurd rfl hne
  | cons fragment fragments ih =>
    obtain ⟨r₁, h₁, hleft⟩ := fragment.exists_reads ho
    rw [List.flatMap_cons, List.flatMap_cons]
    by_cases hlast : fragments = []
    · subst hlast
      exact ⟨r₁, by simpa using h₁, hleft⟩
    · obtain ⟨r₂, h₂, hleft⟩ := ih hlast h₁.outside
      exact ⟨r₂, h₁.trans h₂, hleft⟩

theorem beginsWord_flatMap {fragments : List Fragment} (hne : fragments ≠ []) :
    BeginsWord (fragments.flatMap written) := by
  obtain ⟨fragment, fragments, rfl⟩ := List.exists_cons_of_ne_nil hne
  exact fragment.beginsWord _

/-- The tokens of `:` and a word of fragments, where `parts` are the parts of the word. -/
def tokens (fragments : List Fragment) (parts : List WordPart) (origin : Place) : List Token :=
  let start := origin.advance [':', ' ']
  [⟨.word ":" [.literal ":"], origin⟩, ⟨.word (String.ofList (fragments.flatMap written)) parts, start⟩,
    ⟨.endOfInput, start.advance (fragments.flatMap written)⟩]

/-- **Fragments in every mix are one word, which stands for their texts one after the other and is expanded
to just that.** Behind the word `:` and a blank, some fragments are read as one more word as they are
written. The word has no expansions, its text is that of the fragments, and it is one field with this text
in every context and every state, whatever runs substitutions. Only a script that is too large is not
read at all. -/
theorem readBack {fragments : List Fragment} (hne : fragments ≠ []) (origin : Place) :
    ∃ parts,
      tokenize (':' :: ' ' :: fragments.flatMap written) origin =
        (if maxScriptSize < (fragments.flatMap written).length + 2 then
          .error ⟨.inputTooLarge ((fragments.flatMap written).length + 2) maxScriptSize, ⟨0, 0⟩⟩
        else .ok (tokens fragments parts origin)) ∧
      WordPart.literalTexts? parts = some (String.ofList (fragments.flatMap text)) ∧
      ∀ (run : Runner) (line : Nat),
        Expansion.wordFields run ⟨line, parts⟩ = pure [String.ofList (fragments.flatMap text)] := by
  obtain ⟨r, hreads, hleft⟩ := exists_reads_flatMap (r := {}) hne rfl
  -- The parts are literal, so they are one field whatever the fields are split at.
  have hliteral : literal? r.flushed.reverse = some (fragments.flatMap text) := hreads.literal [] rfl
  refine ⟨r.flushed.reverse, ?_, ?_, fun run line => ?_⟩
  · have htaken : r.text.reverse = fragments.flatMap written := by
      rw [hreads.taken, List.append_nil, List.reverse_reverse]
    have hfrom : tokensFrom {} origin (':' :: ' ' :: fragments.flatMap written) =
        .ok (tokens fragments r.flushed.reverse origin) := by
      rw [tokensFrom_colon, tokensFrom_word (beginsWord_flatMap hne), hreads.readParts_last]
      show tokensFrom ((afterColon origin).pushWord _ _) _ [] = _
      rw [Tokens.pushWord_argument rfl rfl, tokensFrom]
      unfold tokens
      rw [← htaken]
      rfl
    unfold tokenize
    rw [hfrom]
    rfl
  · obtain ⟨text, htext, hv⟩ := Option.map_eq_some_iff.mp hliteral
    rw [htext, ← hv, String.ofList_toList]
  · have hparts : r.flushed.reverse ≠ [] := by simpa using hleft
    exact Expansion.wordFields_of_literal? (by rw [hliteral, String.toList_ofList]) hparts run

/-- A bare text, then a dollar sign, a blank and a newline in double quotes, nothing in single quotes, and a
single quote behind a backslash. -/
def mixed : List Fragment :=
  [.bare ['i', 'f'] (by decide) (by simp [isSign, isMetacharacter, isGuard]), .doubleQuoted ['$', ' ', '\n'],
    .singleQuoted [] (by decide), .escaped '\'' (by decide)]

theorem mixed_ne_nil : mixed ≠ [] := List.cons_ne_nil _ _

theorem readBack_mixed :
    mixed ≠ [] ∧ ∃ parts,
      tokenize ": if\"\\$ \n\"''\\'".toList ⟨1, 1⟩ = .ok (tokens mixed parts ⟨1, 1⟩) ∧
      WordPart.literalTexts? parts = some "if$ \n'" ∧
      ∀ (run : Runner) (line : Nat), Expansion.wordFields run ⟨line, parts⟩ = pure ["if$ \n'"] :=
  ⟨mixed_ne_nil, readBack mixed_ne_nil ⟨1, 1⟩⟩

/-- A single bare text can be too large for a script. -/
theorem bare_not_readBack :
    ¬ ∀ fragments : List Fragment, fragments ≠ [] → ∃ parts,
      tokenize (':' :: ' ' :: fragments.flatMap written) ⟨1, 1⟩ = .ok (tokens fragments parts ⟨1, 1⟩) := by
  intro h
  obtain ⟨n, hn⟩ : ∃ n, n = 999999 := ⟨_, rfl⟩
  have hplain : ∀ c ∈ List.replicate n 'a', isSign c = false := by
    intro c hc
    rw [List.eq_of_mem_replicate hc]
    decide
  have hne : List.replicate n 'a' ≠ [] := by
    rw [Ne, List.replicate_eq_nil_iff]
    omega
  obtain ⟨parts, hparts⟩ := h [.bare (.replicate n 'a') hne hplain] (List.cons_ne_nil _ _)
  have hsize := (tokenize_eq_ok_iff.mp hparts).1
  rw [List.flatMap_singleton, written, List.length_cons, List.length_cons, List.length_replicate] at hsize
  unfold maxScriptSize at hsize
  omega

end Fragment

end Shell
