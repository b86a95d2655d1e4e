/-
The expansion of words without expansions.

Text that is written in a script is never cut. So a word that has nothing but text in it, in whatever
quotes, is expanded without any effect to quoted segments with that text, and it is one field, whatever
separates fields.
-/
import Shell.Expansion
import Shell.Proofs.Token.Literals

set_option autoImplicit false

namespace Shell

/-! ## 1. Quoted segments -/

namespace Field

theorem join_map_quoted (texts : List String) : join (texts.map .quoted) = String.join texts := by
  unfold join
  rw [List.map_map]
  exact congrArg String.join (List.map_id _)

/-- Quoted segments go to the end of the field that is being read. -/
theorem foldl_quoted (ifs : List Char) (texts : List String) (fields : List (List Char)) (cs : List Char) :
    (texts.map .quoted).foldl (Splitting.segment ifs) ⟨fields, some cs, false⟩ =
      ⟨fields, some ((String.join texts).toList.reverse ++ cs), false⟩ := by
  induction texts generalizing cs with
  | nil => rfl
  | cons text texts ih =>
    rw [List.map_cons, List.foldl_cons]
    refine (ih (text.toList.reverse ++ cs)).trans ?_
    simp [String.join_cons, String.toList_append]

/-- **Quoted segments are one field**, if there is one at all. -/
theorem split_map_quoted {texts : List String} (h : texts ≠ []) (ifs : String) :
    split (texts.map .quoted) ifs = [String.join texts] := by
  obtain ⟨text, texts, rfl⟩ := List.exists_cons_of_ne_nil h
  have hfirst : Splitting.segment ifs.toList {} (.quoted text) = ⟨[], some text.toList.reverse, false⟩ := by
    simp [Splitting.segment, Splitting.add]
  unfold split
  rw [List.map_cons, List.foldl_cons, hfirst, foldl_quoted, String.join_cons]
  simp only [Splitting.close, List.reverse_append, List.reverse_reverse, List.reverse_cons,
    List.reverse_nil, List.nil_append, List.map_cons, List.map_nil]
  rw [String.ofList_append, String.ofList_toList, String.ofList_toList]

end Field

/-! ## 2. Words -/

namespace Expansion

mutual

/-- A part without expansions is expanded to quoted segments with its text, and nothing happens. -/
theorem partSegments_of_literalText? (run : Runner) (quoted : Bool) : ∀ (part : WordPart) (text : String),
    part.literalText? = some text →
      ∃ texts : List String, partSegments run quoted part = pure (texts.map .quoted) ∧
        String.join texts = text ∧ texts ≠ []
  | .literal text, _, h => by
    obtain rfl := Option.some.inj h
    exact ⟨[text], by rw [partSegments]; rfl, by simp, List.cons_ne_nil _ _⟩
  | .singleQuoted text, _, h => by
    obtain rfl := Option.some.inj h
    exact ⟨[text], by rw [partSegments]; rfl, by simp, List.cons_ne_nil _ _⟩
  | .escaped c, _, h => by
    obtain rfl := Option.some.inj h
    exact ⟨[String.singleton c], by rw [partSegments]; rfl, by simp, List.cons_ne_nil _ _⟩
  | .doubleQuoted parts, text, h => by
    obtain ⟨texts, hsegments, htext, hne⟩ := partsSegments_of_literalTexts? run true parts text h
    cases parts with
    | nil =>
      -- Nothing between the quotes is still an empty text.
      obtain rfl := Option.some.inj h
      exact ⟨[""], by rw [partSegments, partsSegments]; rfl, rfl, List.cons_ne_nil _ _⟩
    | cons part parts =>
      have hne := hne (List.cons_ne_nil _ _)
      refine ⟨texts, ?_, htext, hne⟩
      have hempty : (texts.map Field.Segment.quoted).isEmpty = false := by simp [hne]
      rw [partSegments, hsegments]
      show (pure (if (texts.map Field.Segment.quoted).isEmpty && _ then _ else _) :
        Exec (List Field.Segment)) = _
      rw [hempty]
      rfl

theorem partsSegments_of_literalTexts? (run : Runner) (quoted : Bool) :
    ∀ (parts : List WordPart) (text : String), WordPart.literalTexts? parts = some text →
      ∃ texts : List String, partsSegments run quoted parts = pure (texts.map .quoted) ∧
        String.join texts = text ∧ (parts ≠ [] → texts ≠ [])
  | [], _, h => by
    obtain rfl := Option.some.inj h
    exact ⟨[], by rw [partsSegments]; rfl, rfl, fun h => absurd rfl h⟩
  | part :: parts, text, h => by
    rw [WordPart.literalTexts?] at h
    obtain ⟨first, hfirst, h⟩ := Option.bind_eq_some_iff.mp h
    obtain ⟨others, hothers, h⟩ := Option.bind_eq_some_iff.mp h
    obtain ⟨texts, hsegments, hjoin, hne⟩ := partSegments_of_literalText? run quoted part first hfirst
    obtain ⟨texts', hsegments', hjoin', -⟩ :=
      partsSegments_of_literalTexts? run quoted parts others hothers
    refine ⟨texts ++ texts', by rw [partsSegments, hsegments, hsegments', List.map_append]; rfl, ?_,
      fun _ h => hne (List.append_eq_nil_iff.mp h).1⟩
    rw [String.join_append, hjoin, hjoin']
    exact Option.some.inj h

end

variable {word : Word} {text : String}

theorem wordText_of_literal? (h : literal? word.parts = some text.toList) (run : Runner) :
    wordText run word = (pure text : Exec String) := by
  obtain ⟨text', htext, hlist⟩ := Option.map_eq_some_iff.mp h
  obtain rfl := String.toList_inj.mp hlist
  obtain ⟨texts, hsegments, hjoin, -⟩ := partsSegments_of_literalTexts? run false word.parts text' htext
  cases word
  unfold wordText
  rw [wordSegments, hsegments, ← hjoin, ← Field.join_map_quoted]
  rfl

/-- **A word without expansions is one field, in every environment**: the text of its parts, if it
has a part. -/
theorem wordFields_of_literal? (h : literal? word.parts = some text.toList) (hne : word.parts ≠ [])
    (run : Runner) : wordFields run word = (pure [text] : Exec (List String)) := by
  obtain ⟨text', htext, hlist⟩ := Option.map_eq_some_iff.mp h
  obtain rfl := String.toList_inj.mp hlist
  obtain ⟨texts, hsegments, hjoin, hsome⟩ :=
    partsSegments_of_literalTexts? run false word.parts text' htext
  cases word
  unfold wordFields
  rw [wordSegments, hsegments]
  funext c s next
  show next (.ok (Field.split (texts.map .quoted) (separators s.env))) s = next (.ok [text']) s
  rw [Field.split_map_quoted (hsome hne), hjoin]

end Expansion

end Shell
