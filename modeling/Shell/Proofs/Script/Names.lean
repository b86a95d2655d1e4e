/-
The names in a script that has been parsed.

The lexer gives words in which all names that can be assigned to are identifiers, and the parser asks the same of
assignments and loops. So a script that is parsed has no other names, at any depth (`parse_named`): by induction on
the grammar, and for the sources of command substitutions by induction on how deep they are nested.
-/
import Shell.Proofs.Script.Lines
import Shell.Proofs.Token.Names

set_option autoImplicit false

namespace Shell

open Shell.Parser

/-- A character that may not follow in the name of a function is in no such name. -/
theorem not_mem_of_isFunctionName {name : List Char} {d : Char} (h : isFunctionName name = true)
    (hd : isFunctionRest d = false) : d ∉ name := by
  intro hmem
  cases name with
  | nil => cases hmem
  | cons c cs =>
    obtain ⟨hstart, hrest⟩ := Bool.and_eq_true_iff.mp h
    rcases List.mem_cons.mp hmem with rfl | hmem
    · simp [isFunctionRest, Name.isRest, hstart] at hd
    · exact absurd (List.all_eq_true.mp hrest _ hmem) (by simp [hd])

/-- Nor is it in the name of a variable, unless it is the newline that may come after one. -/
theorem not_mem_of_isValid {name : List Char} {d : Char} (h : Name.isValid name = true)
    (hd : isFunctionRest d = false) (hn : d ≠ '\n') : d ∉ name := by
  have hidentifier : ∀ name, Name.isIdentifier name = true → d ∉ name := by
    intro name h
    refine not_mem_of_isFunctionName ?_ hd
    cases name with
    | nil => cases h
    | cons c cs =>
      obtain ⟨hstart, hrest⟩ := Bool.and_eq_true_iff.mp h
      refine Bool.and_eq_true_iff.mpr ⟨hstart, List.all_eq_true.mpr fun e hmem => ?_⟩
      simp [isFunctionRest, List.all_eq_true.mp hrest e hmem]
  rcases Bool.or_eq_true_iff.mp h with h | h
  · exact hidentifier name h
  · -- All but the last character is a name, and the last one is a newline.
    obtain ⟨hlast, hfront⟩ := Bool.and_eq_true_iff.mp h
    rw [← List.dropLast_append_getLast? _ (Option.mem_def.mpr (eq_of_beq hlast))]
    simp [hidentifier _ hfront, hn]

/-! ## 1. Words -/

section

variable {read : SourceReader}

mutual

/-- A part gets named scripts for its bodies. -/
theorem WordPart.resolve_named
    (hread : ∀ source place body, read source place = .ok body → Sequence.Named body) :
    ∀ part : WordPart, part.Named → ∀ part', part.resolve read = .ok part' → part'.Named
  | .literal _, h, _, hr => Except.ok.inj hr ▸ h
  | .singleQuoted _, h, _, hr => Except.ok.inj hr ▸ h
  | .escaped _, h, _, hr => Except.ok.inj hr ▸ h
  | .doubleQuoted parts, h, _, hr => by
    obtain ⟨parts', hp, hr⟩ := bind_eq_ok.mp hr
    obtain rfl := Except.ok.inj hr
    cases h with
    | doubleQuoted hparts => exact .doubleQuoted (resolveParts_named hread parts hparts parts' hp)
  | .parameter _, h, _, hr => Except.ok.inj hr ▸ h
  | .length _, h, _, hr => Except.ok.inj hr ▸ h
  | .conditional _ _ argument, h, _, hr => by
    obtain ⟨argument', ha, hr⟩ := bind_eq_ok.mp hr
    obtain rfl := Except.ok.inj hr
    cases h with
    | conditional hname hargument =>
      exact .conditional hname (Word.resolve_named hread argument hargument argument' ha)
  | .substitution source place none, _, _, hr => by
    obtain ⟨body, hb, hr⟩ := bind_eq_ok.mp hr
    obtain rfl := Except.ok.inj hr
    refine .substitution fun script hmem => ?_
    obtain rfl := Option.some.inj hmem
    exact hread source place body hb
  | .substitution _ _ (some _), h, _, hr => Except.ok.inj hr ▸ h
  | .arithmetic expression, h, _, hr => by
    obtain ⟨expression', he, hr⟩ := bind_eq_ok.mp hr
    obtain rfl := Except.ok.inj hr
    cases h with
    | arithmetic hexpression => exact .arithmetic (Word.resolve_named hread expression hexpression expression' he)

theorem resolveParts_named
    (hread : ∀ source place body, read source place = .ok body → Sequence.Named body) :
    ∀ parts : List WordPart, (∀ part ∈ parts, part.Named) →
      ∀ parts', resolveParts read parts = .ok parts' → ∀ part ∈ parts', part.Named
  | [], _, _, hr => by
    obtain rfl := Except.ok.inj hr
    exact nofun
  | part :: parts, h, _, hr => by
    obtain ⟨part', hp, hr⟩ := bind_eq_ok.mp hr
    obtain ⟨parts', hps, hr⟩ := bind_eq_ok.mp hr
    obtain rfl := Except.ok.inj hr
    obtain ⟨hpart, hparts⟩ := List.forall_mem_cons.mp h
    exact List.forall_mem_cons.mpr
      ⟨WordPart.resolve_named hread part hpart part' hp, resolveParts_named hread parts hparts parts' hps⟩

theorem Word.resolve_named
    (hread : ∀ source place body, read source place = .ok body → Sequence.Named body) :
    ∀ word : Word, word.Named → ∀ word', word.resolve read = .ok word' → word'.Named
  | ⟨_, parts⟩, h, _, hr => by
    obtain ⟨parts', hp, hr⟩ := bind_eq_ok.mp hr
    obtain rfl := Except.ok.inj hr
    exact .word (resolveParts_named hread parts h.parts parts' hp)

end

end

/-- The parts of the value of an assignment are those of the word. -/
theorem Token.named_assignment {token : Token} {name : List Char} {append : Bool} {parts : List WordPart}
    (h : token.assignment? = some (name, append, parts)) (ht : token.Named) :
    ∀ part ∈ parts, part.Named := by
  unfold Token.assignment? at h
  unfold Token.Named at ht
  split at h
  · next head more hparts =>
    rw [hparts] at ht
    split at h
    · cases h
    · simp only [Option.some.injEq, Prod.mk.injEq] at h
      obtain ⟨-, -, rfl⟩ := h
      have hmore := (List.forall_mem_cons.mp ht).2
      split
      · exact hmore
      · exact List.forall_mem_cons.mpr ⟨.literal, hmore⟩
  · cases h

theorem Token.isIdentifier_assignment {token : Token} {name : List Char} {append : Bool}
    {parts : List WordPart} (h : token.assignment? = some (name, append, parts))
    (hvalid : Name.isValid name = true) : Name.isIdentifier name = true := by
  unfold Token.assignment? at h
  split at h
  · split at h
    · cases h
    · next hhead =>
      simp only [Option.some.injEq, Prod.mk.injEq] at h
      obtain ⟨rfl, -, -⟩ := h
      exact isIdentifier_of_assignmentHead? hhead hvalid
  · cases h

/-! ## 2. Phrases -/

/-- All names in the phrase that can be assigned to are identifiers. -/
def Phrase.Named : Phrase → Prop
  | .words ws => ∀ word ∈ ws, word.Named
  | .simple _ as ws => (∀ assignment ∈ as, assignment.Named) ∧ ∀ word ∈ ws, word.Named
  | .branches bs => ∀ branch ∈ bs, branch.Named
  | .otherwise body => ∀ script ∈ body, script.Named
  | .items ws => ∀ list ∈ ws, ∀ word ∈ list, word.Named
  | .braces _ body | .parens _ body | .functionBody body => body.Named
  | .form x | .command x => x.Named
  | .pipes xs => ∀ command ∈ xs, command.Named
  | .pipeline p => p.Named
  | .joined ps => ∀ joined ∈ ps, joined.pipeline.Named
  | .andOr l => l.Named
  | .statements _ ls => ∀ list ∈ ls, list.Named
  | .list _ s => s.Named

/-- **The names in a phrase are identifiers** if those in its tokens are. -/
theorem Spells.named {read : SourceReader} {starts : List Token → Command → Prop} {all : List Token}
    (hread : ∀ source place body, read source place = .ok body → Sequence.Named body)
    (htokens : ∀ token ∈ all, token.Named)
    (hnames : ∀ token ∈ all, isWord token = true → Name.isValid token.lexeme.text.toList = true →
      Name.isIdentifier token.lexeme.text.toList = true)
    {ts rest : List Token} {phrase : Phrase} (h : Spells read starts ts phrase rest) (hs : ts <:+ all) :
    phrase.Named := by
  -- Every phrase is read from tokens that end all tokens, and names are known of those.
  have hmem {token : Token} {ts : List Token} (hs : token :: ts <:+ all) : token ∈ all :=
    hs.subset List.mem_cons_self
  have htail {token : Token} {ts : List Token} (hs : token :: ts <:+ all) : ts <:+ all :=
    (List.suffix_cons _ _).trans hs
  have hskip {ts : List Token} (hs : ts <:+ all) : pastNewlines ts <:+ all :=
    (pastNewlines_suffix ts).trans hs
  have hword {token : Token} {ts : List Token} {word : Word} (hs : token :: ts <:+ all)
      (hr : token.word.resolve read = .ok word) : word.Named :=
    Word.resolve_named hread token.word (.word (htokens token (hmem hs))) word hr
  induction h with
  | noWord | noBranch | noItems | noPipe | noConnective | closed => exact nofun
  | noOtherwise => exact nofun
  | simpleEnd => exact ⟨nofun, nofun⟩
  | word _ resolved _ ih => exact List.forall_mem_cons.mpr ⟨hword hs resolved, ih (htail hs)⟩
  | @assignment token _ _ _ _ parts value _ _ _ head valid resolved _ ih =>
    have hvalue : value.Named := Word.resolve_named hread ⟨token.place.line, parts⟩
      (.word (Token.named_assignment head (htokens _ (hmem hs)))) _ resolved
    refine ⟨List.forall_mem_cons.mpr ⟨.assignment ?_ hvalue, (ih (htail hs)).1⟩, (ih (htail hs)).2⟩
    rw [String.toList_ofList]
    exact Token.isIdentifier_assignment head valid
  | argument _ _ resolved _ ih =>
    exact ⟨nofun, List.forall_mem_cons.mpr ⟨hword hs resolved, (ih (htail hs)).2⟩⟩
  | simpleCommand _ _ _ _ ih =>
    obtain ⟨hassignments, hwords⟩ := ih hs
    exact .simple (fun word hmem => hwords word (List.mem_of_mem_head? hmem))
      (fun word hmem => hwords word (List.mem_of_mem_drop hmem)) hassignments
  | arithmeticCommand _ resolved => exact .arithmetic (hword hs resolved)
  | choice _ condition _ _ body _ branches _ _ ih₁ ih₂ ih₃ ih₄ =>
    have hs₁ := htail (condition.suffix.trans (htail hs))
    have hs₂ := body.suffix.trans hs₁
    exact .choice (ih₁ (htail hs)) (ih₂ hs₁) (ih₃ hs₂) (ih₄ (branches.suffix.trans hs₂))
  | branch _ condition _ _ body _ _ ih₁ ih₂ ih₃ =>
    have hs₁ := htail (condition.suffix.trans (htail hs))
    exact List.forall_mem_cons.mpr ⟨.branch (ih₁ (htail hs)) (ih₂ hs₁), ih₃ (body.suffix.trans hs₁)⟩
  | otherwise _ _ _ ih =>
    intro script hscript
    obtain rfl := Option.some.inj hscript
    exact ih (htail hs)
  | loop _ condition _ _ _ _ _ ih₁ ih₂ =>
    exact .loop (ih₁ (htail hs)) (ih₂ (htail (condition.suffix.trans (htail hs))))
  | items _ _ ih =>
    intro list hlist
    obtain rfl := Option.some.inj hlist
    exact ih (htail hs)
  | @each _ _ _ _ _ ts₁ _ _ _ _ _ isWord valid items separated _ _ _ _ ih₁ ih₂ =>
    have hs₁ := items.suffix.trans (hskip (htail (htail hs)))
    have hs₂ := (pastNewlines_suffix _).trans ((pastSemicolon_suffix ts₁).trans hs₁)
    rw [separated] at hs₂
    exact .each (hnames _ (hmem (htail hs)) isWord valid) (ih₁ (hskip (htail (htail hs)))) (ih₂ (htail hs₂))
  | braces _ _ _ _ ih | parens _ _ _ _ ih => exact ih (htail hs)
  | group _ ih => exact .group (ih hs)
  | subshell _ ih => exact .subshell (ih hs)
  | bracedBody _ ih => exact ih hs
  | @subshellBody line _ _ body _ ih =>
    have hcommand : Command.Named (.subshell line body) := .subshell (ih hs)
    exact .sequence (List.forall_mem_cons.mpr ⟨.list (.pipeline hcommand nofun) nofun, nofun⟩)
  | keywordFunction _ _ _ _ _ _ ih => exact .function (ih (hskip (htail (htail hs))))
  | keywordFunctionParens _ _ _ _ _ _ _ ih =>
    exact .function (ih (hskip (htail (htail (htail (htail hs))))))
  | namedFunction _ _ _ _ _ _ ih => exact .function (ih (hskip (htail (htail (htail hs)))))
  | command _ _ ih => exact ih hs
  | pipe _ command _ ih₁ ih₂ =>
    have hs₁ := hskip (htail hs)
    exact List.forall_mem_cons.mpr ⟨ih₁ hs₁, ih₂ (command.suffix.trans hs₁)⟩
  | pipeline _ first _ ih₁ ih₂ => exact .pipeline (ih₁ hs) (ih₂ (first.suffix.trans hs))
  | bang _ _ ih =>
    cases ih (htail hs) with
    | pipeline hfirst hrest => exact .pipeline hfirst hrest
  | connective _ pipeline _ ih₁ ih₂ =>
    have hs₁ := hskip (htail hs)
    exact List.forall_mem_cons.mpr ⟨ih₁ hs₁, ih₂ (pipeline.suffix.trans hs₁)⟩
  | andOr first _ ih₁ ih₂ => exact .list (ih₁ hs) (ih₂ (first.suffix.trans hs))
  | last _ _ _ ih => exact List.forall_mem_cons.mpr ⟨ih hs, nofun⟩
  | semicolon _ spells _ _ ih₁ ih₂ | newline _ spells _ _ ih₁ ih₂ =>
    exact List.forall_mem_cons.mpr ⟨ih₁ hs, ih₂ (hskip (htail (spells.suffix.trans hs)))⟩
  | list _ ih => exact .sequence (ih (hskip hs))

/-! ## 3. Scripts -/

theorem parseAt_named {n : Nat} {origin : Place} {text : List Char} {script : Sequence}
    (h : parseAt n origin text = .ok script) : script.Named := by
  induction n generalizing origin text script with
  | zero => cases h
  | succ n ih =>
    obtain ⟨inside, stop, htokens, hsound, -, hspells⟩ := parseAt_spells h
    have hnamed : ∀ token ∈ inside ++ [⟨.endOfInput, stop⟩], token.Named :=
      tokensFrom_named (tokenize_eq_ok_iff.mp htokens).2 nofun
    refine hspells.named (fun source place body => ih)
      (fun token hmem => hnamed token (List.mem_append_left _ hmem)) (fun token hmem hword hvalid => ?_)
      (List.suffix_refl _)
    cases hlexeme : token.lexeme with
    | word text parts =>
      rw [hlexeme] at hvalid
      exact (hsound token hmem).name text parts hlexeme hvalid
    | _ => simp [isWord, hlexeme] at hword

/-- **The parser lets nothing but identifiers be assigned to**, anywhere in a script. -/
theorem parse_named {text : String} {script : Sequence} (h : parse text = .ok script) : script.Named :=
  parseAt_named h

end Shell
