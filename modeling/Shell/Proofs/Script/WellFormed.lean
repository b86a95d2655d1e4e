/-
Well-formed scripts.

A script is run without further checks: the executor takes the first command of a pipeline, goes through the
connectives of an and-or list beside its pipelines, and runs the body of a command substitution.
`Sequence.WellFormed` says that all this is there, everywhere in a script: in the bodies of compound commands
and functions, and in the words, with the scripts that their substitutions hold.

The grammar leaves nothing else to be read from sound tokens (`Spells.wellFormed`), by induction on the derivation.
The words of a token have no bodies yet. They get them from a reader of sources, and if the reader gives well-formed
scripts they come out well formed (`Word.resolve_wellFormed`).
-/
import Shell.Proofs.Script.Phrases
import Shell.Proofs.Token.Lines

set_option autoImplicit false

namespace Shell

/-! ## 1. What is well formed -/

/-- The commands of a pipeline. -/
def Pipeline.commands (p : Pipeline) : List Command := p.first :: p.rest

/-- The pipelines of an and-or list. -/
def AndOrList.pipelines (l : AndOrList) : List Pipeline := l.first :: l.rest.map Joined.pipeline

/-- What stands between the pipelines of an and-or list. -/
def AndOrList.operators (l : AndOrList) : List Connective := l.rest.map Joined.connective

mutual

/-- Every command substitution in the part has a body. -/
inductive WordPart.WellFormed : WordPart → Prop where
  | literal {text : String} : WordPart.WellFormed (.literal text)
  | singleQuoted {text : String} : WordPart.WellFormed (.singleQuoted text)
  | escaped {char : Char} : WordPart.WellFormed (.escaped char)
  | doubleQuoted {parts : List WordPart} (parts_ok : ∀ part ∈ parts, WordPart.WellFormed part) :
      WordPart.WellFormed (.doubleQuoted parts)
  | parameter {name : String} : WordPart.WellFormed (.parameter name)
  | length {name : String} : WordPart.WellFormed (.length name)
  | conditional {name : String} {op : ParameterOp} {argument : Word} (ok : Word.WellFormed argument) :
      WordPart.WellFormed (.conditional name op argument)
  | substitution {source : String} {place : Place} {body : Sequence} (ok : Sequence.WellFormed body) :
      WordPart.WellFormed (.substitution source place (some body))
  | arithmetic {expression : Word} (ok : Word.WellFormed expression) : WordPart.WellFormed (.arithmetic expression)

/-- A word whose parts are well formed. -/
inductive Word.WellFormed : Word → Prop where
  | word {line : Nat} {parts : List WordPart} (parts_ok : ∀ part ∈ parts, WordPart.WellFormed part) :
      Word.WellFormed ⟨line, parts⟩

/-- An assignment to an identifier, of a well-formed word. -/
inductive Assignment.WellFormed : Assignment → Prop where
  | assignment {name : String} {append : Bool} {value : Word} {line : Nat}
      (name_ok : Name.isIdentifier name.toList = true) (value_ok : Word.WellFormed value) :
      Assignment.WellFormed ⟨name, append, value, line⟩

/-- A command with its words and its bodies. A body has a statement in it, and a simple command has a name or an
assignment. -/
inductive Command.WellFormed : Command → Prop where
  /-- A simple command has a name, or at least one assignment. -/
  | simple {line : Nat} {name : Option Word} {args : List Word} {assignments : List Assignment}
      (some_of : name.isSome ∨ assignments ≠ []) (name_ok : ∀ word ∈ name, Word.WellFormed word)
      (args_ok : ∀ word ∈ args, Word.WellFormed word)
      (assignments_ok : ∀ assignment ∈ assignments, Assignment.WellFormed assignment) :
      Command.WellFormed (.simple line name args assignments)
  | choice {line : Nat} {condition body : Sequence} {branches : List Branch}
      {otherwise : Option Sequence} (condition_ne : condition.statements ≠ [])
      (condition_ok : Sequence.WellFormed condition) (body_ne : body.statements ≠ [])
      (body_ok : Sequence.WellFormed body) (branches_ok : ∀ branch ∈ branches, Branch.WellFormed branch)
      (otherwise_ne : ∀ body ∈ otherwise, body.statements ≠ [])
      (otherwise_ok : ∀ body ∈ otherwise, Sequence.WellFormed body) :
      Command.WellFormed (.choice line condition body branches otherwise)
  | loop {line : Nat} {kind : LoopKind} {condition body : Sequence}
      (condition_ne : condition.statements ≠ []) (condition_ok : Sequence.WellFormed condition)
      (body_ne : body.statements ≠ []) (body_ok : Sequence.WellFormed body) :
      Command.WellFormed (.loop line kind condition body)
  | each {line : Nat} {name : String} {words : Option (List Word)} {body : Sequence}
      (name_ok : Name.isIdentifier name.toList = true)
      (words_ok : ∀ list ∈ words, ∀ word ∈ list, Word.WellFormed word) (body_ne : body.statements ≠ [])
      (body_ok : Sequence.WellFormed body) : Command.WellFormed (.each line name words body)
  | group {line : Nat} {body : Sequence} (body_ne : body.statements ≠ [])
      (body_ok : Sequence.WellFormed body) : Command.WellFormed (.group line body)
  | subshell {line : Nat} {body : Sequence} (body_ne : body.statements ≠ [])
      (body_ok : Sequence.WellFormed body) : Command.WellFormed (.subshell line body)
  | function {line : Nat} {name : String} {body : Sequence}
      (name_ok : Parser.isFunctionName name.toList = true) (body_ne : body.statements ≠ [])
      (body_ok : Sequence.WellFormed body) : Command.WellFormed (.function line name body)
  | arithmetic {line : Nat} {expression : Word} (ok : Word.WellFormed expression) :
      Command.WellFormed (.arithmetic line expression)

/-- A branch with a condition and a body, both with a statement in them. -/
inductive Branch.WellFormed : Branch → Prop where
  | branch {condition body : Sequence} (condition_ne : condition.statements ≠ [])
      (condition_ok : Sequence.WellFormed condition) (body_ne : body.statements ≠ [])
      (body_ok : Sequence.WellFormed body) : Branch.WellFormed ⟨condition, body⟩

/-- A pipeline of well-formed commands, of which there is at least one. -/
inductive Pipeline.WellFormed : Pipeline → Prop where
  | pipeline {p : Pipeline} (ne : p.commands ≠ [])
      (commands_ok : ∀ command ∈ p.commands, Command.WellFormed command) : Pipeline.WellFormed p

/-- A list of well-formed pipelines. -/
inductive AndOrList.WellFormed : AndOrList → Prop where
  /-- There is one connective fewer than there are pipelines. -/
  | list {l : AndOrList} (counts : l.operators.length + 1 = l.pipelines.length)
      (pipelines_ok : ∀ pipeline ∈ l.pipelines, Pipeline.WellFormed pipeline) : AndOrList.WellFormed l

/-- A list of well-formed statements, which may be empty. -/
inductive Sequence.WellFormed : Sequence → Prop where
  | sequence {s : Sequence} (statements_ok : ∀ statement ∈ s.statements, AndOrList.WellFormed statement) :
      Sequence.WellFormed s

end

/-- A sequence that may be the condition or the body of a command. -/
structure Sequence.IsBody (s : Sequence) : Prop where
  ne : s.statements ≠ []
  ok : s.WellFormed

/-- A pipeline is well formed if its commands are. -/
theorem Pipeline.wellFormed_mk {negated : Bool} {first : Command} {rest : List Command}
    (hfirst : first.WellFormed) (hrest : ∀ command ∈ rest, command.WellFormed) :
    Pipeline.WellFormed ⟨negated, first, rest⟩ :=
  .pipeline (List.cons_ne_nil _ _) (List.forall_mem_cons.mpr ⟨hfirst, hrest⟩)

/-- A list is well formed if its pipelines are. -/
theorem AndOrList.wellFormed_mk {first : Pipeline} {rest : List Joined} (hfirst : first.WellFormed)
    (hrest : ∀ joined ∈ rest, joined.pipeline.WellFormed) : AndOrList.WellFormed ⟨first, rest⟩ :=
  .list (by simp [operators, pipelines])
    (List.forall_mem_cons.mpr ⟨hfirst, List.forall_mem_map.mpr hrest⟩)

/-! ## 2. Words -/

/-- Two steps succeed if the first does and then the second. -/
theorem bind_eq_ok {ε α β : Type} {x : Except ε α} {f : α → Except ε β} {b : β} :
    x >>= f = .ok b ↔ ∃ a, x = .ok a ∧ f a = .ok b := by
  cases x <;> simp [bind, Except.bind]

/-- A reader gives well-formed scripts for the sources that are shorter than `n`. -/
def SourceReader.IsSound (n : Nat) (read : SourceReader) : Prop :=
  ∀ (source : String) (place : Place) (body : Sequence), source.length < n → read source place = .ok body →
    body.WellFormed

section

variable {n : Nat} {read : SourceReader}

mutual

/-- A part is well formed once its source has been read. -/
theorem WordPart.resolve_wellFormed (h : read.IsSound n) : ∀ {part part' : WordPart}, part.IsFresh n →
    part.resolve read = .ok part' → part'.WellFormed
  | .literal _, _, _, .refl _ => .literal
  | .singleQuoted _, _, _, .refl _ => .singleQuoted
  | .escaped _, _, _, .refl _ => .escaped
  | .parameter _, _, _, .refl _ => .parameter
  | .length _, _, _, .refl _ => .length
  | .doubleQuoted _, _, hf, hr => by
    obtain ⟨parts, hparts, ⟨⟩⟩ := bind_eq_ok.mp hr
    exact .doubleQuoted (resolveParts_wellFormed h hf hparts)
  | .conditional _ _ _, _, hf, hr => by
    obtain ⟨argument, hargument, ⟨⟩⟩ := bind_eq_ok.mp hr
    exact .conditional (Word.resolve_wellFormed h hf hargument)
  | .substitution source place none, _, hf, hr => by
    obtain ⟨body, hbody, ⟨⟩⟩ := bind_eq_ok.mp hr
    exact .substitution (h source place body hf hbody)
  -- A part of a sound token has no body yet.
  | .substitution _ _ (some _), _, hf, _ => hf.elim
  | .arithmetic _, _, hf, hr => by
    obtain ⟨expression, hexpression, ⟨⟩⟩ := bind_eq_ok.mp hr
    exact .arithmetic (Word.resolve_wellFormed h hf hexpression)

/-- So are all parts of a word. -/
theorem resolveParts_wellFormed (h : read.IsSound n) : ∀ {parts parts' : List WordPart}, AreFresh n parts →
    resolveParts read parts = .ok parts' → ∀ part ∈ parts', part.WellFormed
  | [], _, _, .refl _ => List.forall_mem_nil _
  | part :: parts, _, hf, hr => by
    obtain ⟨part', hpart, hr⟩ := bind_eq_ok.mp hr
    obtain ⟨parts', hparts, ⟨⟩⟩ := bind_eq_ok.mp hr
    exact List.forall_mem_cons.mpr
      ⟨WordPart.resolve_wellFormed h hf.1 hpart, resolveParts_wellFormed h hf.2 hparts⟩

/-- **A word gets well-formed bodies.** -/
theorem Word.resolve_wellFormed (h : read.IsSound n) : ∀ {word word' : Word}, word.IsFresh n →
    word.resolve read = .ok word' → word'.WellFormed
  | ⟨_, parts⟩, _, hf, hr => by
    obtain ⟨parts', hparts, ⟨⟩⟩ := bind_eq_ok.mp hr
    exact .word (resolveParts_wellFormed h hf hparts)

end

end

/-! ## 3. Names -/

namespace Parser

/-- The name before `=` has no newline, so it is a name if it passes for one. -/
theorem isIdentifier_of_assignmentHead? {text name rest : List Char} {append : Bool}
    (h : assignmentHead? text = some (name, append, rest)) (hv : Name.isValid name = true) :
    Name.isIdentifier name = true := by
  have hname : name = text.takeWhile isAssignmentName := by
    unfold assignmentHead? at h
    grind
  refine isIdentifier_of_guarded (.inr fun hmem => ?_) hv
  rw [hname] at hmem
  exact absurd (List.mem_takeWhile_imp hmem) (by decide)

/-- A word token that is a name is an identifier, because a word is not empty. -/
theorem isIdentifier_of_isWord {n : Nat} {token : Token} (h : token.IsSound n) (hword : isWord token = true)
    (hv : Name.isValid token.lexeme.text.toList = true) :
    Name.isIdentifier token.lexeme.text.toList = true := by
  cases hl : token.lexeme with
  | word text parts =>
    rw [hl] at hv
    exact h.name text parts hl hv
  | _ => simp [isWord, hl] at hword

/-- The parts of a value are those of the token, or the end of the first one and then the others. -/
theorem isFresh_of_assignment? {n : Nat} {token : Token} (h : AreFresh n token.lexeme.parts) {name : List Char}
    {append : Bool} {parts : List WordPart} (ha : token.assignment? = some (name, append, parts)) :
    Word.IsFresh n ⟨token.place.line, parts⟩ := by
  unfold Token.assignment? at ha
  split at ha
  · next head rest hparts =>
    rw [hparts] at h
    split at ha
    · cases ha
    · obtain ⟨rfl, rfl, rfl⟩ := ha
      split
      · exact h.2
      · exact ⟨trivial, h.2⟩
  · cases ha

/-- The name in an assignment that is sound is a name. -/
theorem isIdentifier_of_assignment? {token : Token} {name : List Char} {append : Bool} {parts : List WordPart}
    (ha : token.assignment? = some (name, append, parts)) (hv : Name.isValid name = true) :
    Name.isIdentifier name = true := by
  unfold Token.assignment? at ha
  split at ha
  · split at ha
    · cases ha
    · next hhead =>
      obtain ⟨rfl, rfl, rfl⟩ := ha
      exact isIdentifier_of_assignmentHead? hhead hv
  · cases ha

end Parser

/-! ## 4. Phrases -/

/-- What a phrase is made of is well formed, and the bodies in it are not empty. -/
def Phrase.WellFormed : Phrase → Prop
  | .words ws => ∀ word ∈ ws, word.WellFormed
  | .simple _ assignments ws =>
    (∀ assignment ∈ assignments, assignment.WellFormed) ∧ ∀ word ∈ ws, word.WellFormed
  | .branches bs => ∀ branch ∈ bs, branch.WellFormed
  | .otherwise body => ∀ sequence ∈ body, sequence.IsBody
  | .items ws => ∀ list ∈ ws, ∀ word ∈ list, word.WellFormed
  | .braces _ body => body.IsBody
  | .parens _ body => body.IsBody
  | .functionBody body => body.IsBody
  | .form c => c.WellFormed
  | .command c => c.WellFormed
  | .pipes commands => ∀ c ∈ commands, c.WellFormed
  | .pipeline p => p.WellFormed
  | .joined pipelines => ∀ j ∈ pipelines, j.pipeline.WellFormed
  | .andOr statement => statement.WellFormed
  | .statements _ done => ∀ statement ∈ done, statement.WellFormed
  | .list _ body => body.WellFormed

/-- A command alone is a body. -/
theorem ofCommand_isBody {command : Command} (h : command.WellFormed) : (Parser.ofCommand command).IsBody :=
  ⟨List.cons_ne_nil _ _, .sequence (List.forall_mem_singleton.mpr
    (AndOrList.wellFormed_mk (Pipeline.wellFormed_mk h nofun) nofun))⟩

/-- A simple command is read from a word, so it has a name or an assignment. -/
theorem Spells.some_of {read : SourceReader} {starts : List Token → Command → Prop} {token : Token}
    {ts rest : List Token} {assignments : List Assignment} {words : List Word} (hword : Parser.isWord token = true)
    (h : Spells read starts (token :: ts) (.simple false assignments words) rest) :
    words.head?.isSome ∨ assignments ≠ [] := by
  cases h with
  | simpleEnd stop =>
    rw [stop token rfl] at hword
    cases hword
  | assignment => exact .inr (List.cons_ne_nil _ _)
  | argument => exact .inl rfl

/-- **What is read from sound tokens is well formed**, by induction on the derivation. The tokens of a part are among
those of the whole, so they are sound as well. -/
theorem Spells.wellFormed {read : SourceReader} {starts : List Token → Command → Prop} {n : Nat}
    (hread : read.IsSound n) {ts rest : List Token} {phrase : Phrase} (h : Spells read starts ts phrase rest)
    (hsound : ∀ token ∈ ts, token.IsSound n) : phrase.WellFormed := by
  -- What is left after a phrase ends the tokens before it, so its tokens are sound too.
  have hof {ts ts' : List Token} (h : ts' <:+ ts) (hs : ∀ token ∈ ts, token.IsSound n) :
      ∀ token ∈ ts', token.IsSound n := fun token hmem => hs token (h.subset hmem)
  have htail {first : Token} {ts : List Token} (hs : ∀ token ∈ first :: ts, token.IsSound n) :
      ∀ token ∈ ts, token.IsSound n := hof (List.suffix_cons first ts) hs
  have hskip {ts : List Token} (hs : ∀ token ∈ ts, token.IsSound n) :
      ∀ token ∈ pastNewlines ts, token.IsSound n := hof (pastNewlines_suffix ts) hs
  have hword {first : Token} {ts : List Token} {word : Word} (hs : ∀ token ∈ first :: ts, token.IsSound n)
      (hr : first.word.resolve read = .ok word) : word.WellFormed := by
    have hfresh : first.word.IsFresh n := (hs first List.mem_cons_self).fresh
    exact Word.resolve_wellFormed hread hfresh hr
  -- The conditions that a list is not empty and a name is valid are those of the rules.
  induction h with
  | noWord => exact List.forall_mem_nil _
  | word _ resolved _ ih => exact List.forall_mem_cons.mpr ⟨hword hsound resolved, ih (htail hsound)⟩
  | simpleEnd => exact ⟨List.forall_mem_nil _, List.forall_mem_nil _⟩
  | assignment _ head valid resolved _ ih =>
    obtain ⟨hassignments, hwords⟩ := ih (htail hsound)
    have hname := Parser.isIdentifier_of_assignment? head valid
    have hfresh := Parser.isFresh_of_assignment? (hsound _ List.mem_cons_self).fresh head
    exact ⟨List.forall_mem_cons.mpr ⟨.assignment (by rwa [String.toList_ofList])
      (Word.resolve_wellFormed hread hfresh resolved), hassignments⟩, hwords⟩
  | argument _ _ resolved _ ih =>
    exact ⟨List.forall_mem_nil _, List.forall_mem_cons.mpr ⟨hword hsound resolved, (ih (htail hsound)).2⟩⟩
  | simpleCommand isWord _ words_spell _ ih =>
    obtain ⟨hassignments, hwords⟩ := ih hsound
    exact .simple (words_spell.some_of isWord) (fun word hmem => hwords word (List.mem_of_head? hmem))
      (fun word hmem => hwords word (List.mem_of_mem_drop hmem)) hassignments
  | arithmeticCommand _ resolved => exact .arithmetic (hword hsound resolved)
  | choice _ condition_spells condition_ne _ body_spells body_ne branches_spell _ _ ih₁ ih₂ ih₃ ih₄ =>
    have hs₁ := htail hsound
    have hs₂ := htail (hof condition_spells.suffix hs₁)
    have hs₃ := hof body_spells.suffix hs₂
    have hother := ih₄ (hof branches_spell.suffix hs₃)
    exact .choice condition_ne (ih₁ hs₁) body_ne (ih₂ hs₂) (ih₃ hs₃) (fun body hmem => (hother body hmem).ne)
      fun body hmem => (hother body hmem).ok
  | noBranch => exact List.forall_mem_nil _
  | branch _ condition_spells condition_ne _ body_spells body_ne _ ih₁ ih₂ ih₃ =>
    have hs₁ := htail hsound
    have hs₂ := htail (hof condition_spells.suffix hs₁)
    have hs₃ := hof body_spells.suffix hs₂
    exact List.forall_mem_cons.mpr ⟨.branch condition_ne (ih₁ hs₁) body_ne (ih₂ hs₂), ih₃ hs₃⟩
  | noOtherwise => exact nofun
  | otherwise _ _ body_ne ih =>
    rintro _ ⟨⟩
    exact ⟨body_ne, ih (htail hsound)⟩
  | loop _ condition_spells condition_ne _ _ body_ne _ ih₁ ih₂ =>
    have hs₁ := htail hsound
    exact .loop condition_ne (ih₁ hs₁) body_ne (ih₂ (htail (hof condition_spells.suffix hs₁)))
  | noItems => exact nofun
  | items _ _ ih =>
    rintro _ ⟨⟩
    exact ih (htail hsound)
  | @each _ _ _ _ _ ts₁ _ _ _ _ _ isWord valid items_spell separated _ _ body_ne _ ih₁ ih₂ =>
    have hs₁ := hskip (htail (htail hsound))
    have hs₂ : ∀ token ∈ pastNewlines (pastSemicolon ts₁), token.IsSound n :=
      hskip (hof (pastSemicolon_suffix ts₁) (hof items_spell.suffix hs₁))
    rw [separated] at hs₂
    have hname := Parser.isIdentifier_of_isWord (htail hsound _ List.mem_cons_self) isWord valid
    exact .each hname (ih₁ hs₁) body_ne (ih₂ (htail hs₂))
  | braces _ _ body_ne _ ih => exact ⟨body_ne, ih (htail hsound)⟩
  | parens _ _ body_ne _ ih => exact ⟨body_ne, ih (htail hsound)⟩
  | group _ ih => exact .group (ih hsound).ne (ih hsound).ok
  | subshell _ ih => exact .subshell (ih hsound).ne (ih hsound).ok
  | bracedBody _ ih => exact ih hsound
  | subshellBody _ ih => exact ofCommand_isBody (.subshell (ih hsound).ne (ih hsound).ok)
  | keywordFunction _ _ _ _ valid _ ih =>
    have hbody := ih (hskip (htail (htail hsound)))
    exact .function valid hbody.ne hbody.ok
  | keywordFunctionParens _ _ _ _ _ valid _ ih =>
    have hbody := ih (hskip (htail (htail (htail (htail hsound)))))
    exact .function valid hbody.ne hbody.ok
  | namedFunction _ _ _ _ valid _ ih =>
    have hbody := ih (hskip (htail (htail (htail hsound))))
    exact .function valid hbody.ne hbody.ok
  | command _ _ ih => exact ih hsound
  | noPipe => exact List.forall_mem_nil _
  | pipe _ command_spells _ ih₁ ih₂ =>
    have hs₁ := hskip (htail hsound)
    exact List.forall_mem_cons.mpr ⟨ih₁ hs₁, ih₂ (hof command_spells.suffix hs₁)⟩
  | pipeline _ first_spells _ ih₁ ih₂ =>
    exact Pipeline.wellFormed_mk (ih₁ hsound) (ih₂ (hof first_spells.suffix hsound))
  | bang _ _ ih =>
    obtain ⟨_, hcommands⟩ := ih (htail hsound)
    exact .pipeline (List.cons_ne_nil _ _) hcommands
  | noConnective => exact List.forall_mem_nil _
  | connective _ pipeline_spells _ ih₁ ih₂ =>
    have hs₁ := hskip (htail hsound)
    exact List.forall_mem_cons.mpr ⟨ih₁ hs₁, ih₂ (hof pipeline_spells.suffix hs₁)⟩
  | andOr first_spells _ ih₁ ih₂ =>
    exact AndOrList.wellFormed_mk (ih₁ hsound) (ih₂ (hof first_spells.suffix hsound))
  | closed => exact List.forall_mem_nil _
  | last _ _ _ ih => exact List.forall_mem_singleton.mpr (ih hsound)
  | semicolon _ spells _ _ ih₁ ih₂ =>
    exact List.forall_mem_cons.mpr ⟨ih₁ hsound, ih₂ (hskip (htail (hof spells.suffix hsound)))⟩
  | newline _ spells _ _ ih₁ ih₂ =>
    exact List.forall_mem_cons.mpr ⟨ih₁ hsound, ih₂ (hskip (htail (hof spells.suffix hsound)))⟩
  | list _ ih => exact .sequence (ih (hskip hsound))

end Shell
