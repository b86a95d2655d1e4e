/-
The names that a script assigns to.

A script names variables in assignments, in loops over words, and in `${NAME=WORD}`. In all of them the name is an
identifier, everywhere in the script (`Sequence.Named`): also in the bodies of functions, and in the scripts of
command substitutions. `${NAME=WORD}` may name a number or a special parameter too, and cannot assign to it then.

Here the words of tokens are shown to be so (`tokensFrom_named`). Their substitutions have not been parsed yet.
-/
import Shell.Expansion
import Shell.Proofs.Arithmetic.Names
import Shell.Proofs.Arithmetic.Numerals
import Shell.Proofs.Token.Starts

set_option autoImplicit false

namespace Shell

open Shell.Text

/-! ## 1. Scripts -/

mutual

/-- All names in the part that can be assigned to are identifiers. -/
inductive WordPart.Named : WordPart → Prop where
  | literal {text : String} : WordPart.Named (.literal text)
  | singleQuoted {text : String} : WordPart.Named (.singleQuoted text)
  | escaped {char : Char} : WordPart.Named (.escaped char)
  | doubleQuoted {parts : List WordPart} (parts_named : ∀ part ∈ parts, WordPart.Named part) :
      WordPart.Named (.doubleQuoted parts)
  | parameter {name : String} : WordPart.Named (.parameter name)
  | length {name : String} : WordPart.Named (.length name)
  | conditional {name : String} {op : ParameterOp} {argument : Word}
      (name_ok : Expansion.isAssignable name = true → Name.isIdentifier name.toList = true)
      (argument_named : Word.Named argument) : WordPart.Named (.conditional name op argument)
  | substitution {source : String} {place : Place} {body : Option Sequence}
      (body_named : ∀ script ∈ body, Sequence.Named script) : WordPart.Named (.substitution source place body)
  | arithmetic {expression : Word} (expression_named : Word.Named expression) :
      WordPart.Named (.arithmetic expression)

inductive Word.Named : Word → Prop where
  | word {line : Nat} {parts : List WordPart} (parts_named : ∀ part ∈ parts, WordPart.Named part) :
      Word.Named ⟨line, parts⟩

inductive Assignment.Named : Assignment → Prop where
  | assignment {name : String} {append : Bool} {value : Word} {line : Nat}
      (name_ok : Name.isIdentifier name.toList = true) (value_named : Word.Named value) :
      Assignment.Named ⟨name, append, value, line⟩

inductive Command.Named : Command → Prop where
  | simple {line : Nat} {name : Option Word} {args : List Word} {assignments : List Assignment}
      (name_named : ∀ word ∈ name, Word.Named word) (args_named : ∀ word ∈ args, Word.Named word)
      (assignments_named : ∀ assignment ∈ assignments, Assignment.Named assignment) :
      Command.Named (.simple line name args assignments)
  | choice {line : Nat} {condition body : Sequence} {branches : List Branch} {otherwise : Option Sequence}
      (condition_named : Sequence.Named condition) (body_named : Sequence.Named body)
      (branches_named : ∀ branch ∈ branches, Branch.Named branch)
      (otherwise_named : ∀ body ∈ otherwise, Sequence.Named body) :
      Command.Named (.choice line condition body branches otherwise)
  | loop {line : Nat} {kind : LoopKind} {condition body : Sequence}
      (condition_named : Sequence.Named condition) (body_named : Sequence.Named body) :
      Command.Named (.loop line kind condition body)
  | each {line : Nat} {name : String} {words : Option (List Word)} {body : Sequence}
      (name_ok : Name.isIdentifier name.toList = true)
      (words_named : ∀ list ∈ words, ∀ word ∈ list, Word.Named word) (body_named : Sequence.Named body) :
      Command.Named (.each line name words body)
  | group {line : Nat} {body : Sequence} (body_named : Sequence.Named body) : Command.Named (.group line body)
  | subshell {line : Nat} {body : Sequence} (body_named : Sequence.Named body) :
      Command.Named (.subshell line body)
  | function {line : Nat} {name : String} {body : Sequence} (body_named : Sequence.Named body) :
      Command.Named (.function line name body)
  | arithmetic {line : Nat} {expression : Word} (expression_named : Word.Named expression) :
      Command.Named (.arithmetic line expression)

inductive Branch.Named : Branch → Prop where
  | branch {condition body : Sequence} (condition_named : Sequence.Named condition)
      (body_named : Sequence.Named body) : Branch.Named ⟨condition, body⟩

inductive Pipeline.Named : Pipeline → Prop where
  | pipeline {negated : Bool} {first : Command} {rest : List Command} (first_named : Command.Named first)
      (rest_named : ∀ command ∈ rest, Command.Named command) : Pipeline.Named ⟨negated, first, rest⟩

inductive AndOrList.Named : AndOrList → Prop where
  | list {first : Pipeline} {rest : List Joined} (first_named : Pipeline.Named first)
      (rest_named : ∀ joined ∈ rest, Pipeline.Named joined.pipeline) : AndOrList.Named ⟨first, rest⟩

inductive Sequence.Named : Sequence → Prop where
  | sequence {statements : List AndOrList} (statements_named : ∀ list ∈ statements, AndOrList.Named list) :
      Sequence.Named ⟨statements⟩

end

theorem Word.Named.parts {word : Word} (h : word.Named) : ∀ part ∈ word.parts, part.Named := by
  cases h
  assumption

theorem Sequence.Named.statements {s : Sequence} (h : s.Named) : ∀ list ∈ s.statements, list.Named := by
  cases h
  assumption

/-! ## 2. Parameters in braces -/

/-- The characters that start the name of a parameter but no identifier are no letters. -/
theorem Braced.not_letter_of_parameterExtent {c : Char} {cs : List Char} (hstart : Name.isStart c = false)
    (h : parameterExtent (c :: cs) ≠ 0) : (isLetter c || c == '_') = false := by
  by_cases hdigit : isAsciiDigit c = true
  · exact Arithmetic.forall_isAsciiDigit (p := fun c => (isLetter c || c == '_') = false) (by decide) hdigit
  · by_cases hspecial : isSpecial c = true
    · simp only [isSpecial, Bool.or_eq_true, beq_iff_eq] at hspecial
      rcases hspecial with (((rfl | rfl) | rfl) | rfl) | rfl <;> decide
    · exact absurd (by simp [parameterExtent, hstart, hdigit, hspecial]) h

/-- What names a parameter is an identifier if it starts like one. -/
theorem Braced.isIdentifier_of_parameterExtent {cs : List Char}
    (h : Expansion.isAssignable (String.ofList (cs.take (parameterExtent cs))) = true) :
    Name.isIdentifier (cs.take (parameterExtent cs)) = true := by
  unfold Expansion.isAssignable at h
  rw [String.toList_ofList] at h
  cases cs with
  | nil => cases h
  | cons c cs =>
    by_cases hstart : Name.isStart c = true
    · have hextent : parameterExtent (c :: cs) = (cs.takeWhile Name.isRest).length + 1 := by
        rw [parameterExtent, if_pos hstart, Nat.add_comm]
      rw [hextent, List.take_succ_cons]
      exact Arithmetic.isIdentifier_take hstart cs
    · have hletter := @not_letter_of_parameterExtent c cs (Bool.eq_false_iff.mpr hstart)
      cases hn : parameterExtent (c :: cs) with
      | zero =>
        rw [hn] at h
        cases h
      | succ n =>
        rw [hn] at h
        exact absurd h (by simp [hletter (hn ▸ Nat.succ_ne_zero n)])

theorem Braced.isIdentifier_of_ofContent? {content name : List Char} {op : ParameterOp}
    (h : ofContent? content = some (.conditional name op))
    (hassign : Expansion.isAssignable (String.ofList name) = true) : Name.isIdentifier name = true := by
  unfold ofContent? at h
  split at h
  · cases h
  · simp only at h
    split at h
    · cases h
    · split at h
      · obtain ⟨rfl, -⟩ := Braced.conditional.inj (Option.some.inj h)
        exact isIdentifier_of_parameterExtent hassign
      · split at h <;> cases h

/-! ## 3. Words -/

namespace Reading

/-- What has been read so far has only identifiers for names. -/
structure Named (r : Reading) : Prop where
  parts : ∀ part ∈ r.parts, part.Named
  outer : ∀ outer, r.outer = some outer → ∀ part ∈ outer.2, part.Named

variable {stop : Char → Bool} {r : Reading} {place : Place} {c : Char} {cs : List Char} {turn : Turn}

theorem Named.flushed (h : r.Named) : ∀ part ∈ r.flushed, part.Named := by
  unfold Reading.flushed
  split
  · exact h.parts
  · exact List.forall_mem_cons.mpr ⟨.literal, h.parts⟩

theorem Named.push (h : r.Named) {part : WordPart} (hpart : part.Named) : (r.push part).Named :=
  ⟨List.forall_mem_cons.mpr ⟨hpart, h.flushed⟩, h.outer⟩

theorem Took.named (ht : Took stop r place c cs turn) (h : r.Named)
    (hpart : ∀ opening part, opening.content.length < (c :: cs).length →
      readPart place opening = .ok (some part) → part.Named) :
    turn.1.Named := by
  have hskip (ds : List Char) : (r.skip ds).Named := ⟨h.parts, h.outer⟩
  cases ht with
  | last | continued | escapedInside | kept => exact ⟨h.parts, h.outer⟩
  | escaped => exact (hskip _).push .escaped
  | single => exact (hskip _).push .singleQuoted
  | entered =>
    refine ⟨nofun, fun outer ho => ?_⟩
    obtain rfl := Option.some.inj ho
    exact h.flushed
  | left ho =>
    have hquoted : (WordPart.doubleQuoted r.flushed.reverse).Named :=
      .doubleQuoted fun part hmem => h.flushed part (List.mem_reverse.mp hmem)
    exact ⟨List.forall_mem_cons.mpr ⟨hquoted, h.outer _ ho⟩, nofun⟩
  | expanded hb hq hs he =>
    cases expand_eq_ok_iff.mp he with
    | character | dollar => exact ⟨h.parts, h.outer⟩
    | part ho hp => exact (hskip _).push (hpart _ _ (Opening.at?_length_lt ho) hp)

end Reading

/-- The names that an expansion assigns to, if those are identifiers that are in the text that it holds. -/
theorem readPart_named {place : Place} {opening : Opening} {part : WordPart}
    (hp : readPart place opening = .ok (some part))
    (h : ∀ {start : Place} {cs : List Char} {piece : Piece}, cs.length ≤ opening.content.length →
      readParts (fun _ => false) {} start cs = .ok piece → ∀ part ∈ piece.parts, part.Named) :
    part.Named := by
  cases readPart_eq_ok_iff.mp hp with
  | parameter | named => exact .parameter
  | command | backquoted => exact .substitution nofun
  | arithmetic _ hr => exact .arithmetic (.word (h (Nat.le_refl _) hr))
  | length => exact .length
  | conditional _ hcontent hr =>
    refine .conditional (fun hassign => ?_) (.word (h (by simp) hr))
    rw [String.toList_ofList]
    exact Braced.isIdentifier_of_ofContent? hcontent hassign

/-- **The names that a word assigns to are identifiers.** -/
theorem readParts_named {stop : Char → Bool} {r : Reading} {place : Place} {cs : List Char} {piece : Piece}
    (hr : readParts stop r place cs = .ok piece) (h : r.Named) : ∀ part ∈ piece.parts, part.Named := by
  have hfinish {r : Reading} (h : r.Named) : ∀ part ∈ r.flushed.reverse, part.Named :=
    fun part hmem => h.flushed part (List.mem_reverse.mp hmem)
  induction hr using readParts_induction with
  | ended => exact hfinish h
  | turn ht _ inner ih =>
    refine ih (ht.named h fun opening part hlength hp => readPart_named hp fun hds hr => ?_)
    exact inner hr (Nat.le_of_lt_succ (Nat.lt_of_le_of_lt hds hlength)) ⟨List.forall_mem_nil _, nofun⟩

/-! ## 4. Tokens -/

/-- The names that a token assigns to in its parts are identifiers. -/
def Token.Named (token : Token) : Prop := ∀ part ∈ token.lexeme.parts, part.Named

theorem Tokens.Took.named {ts : Tokens} {place : Place} {c : Char} {cs : List Char} {turn : Turn}
    (ht : Took ts place c cs turn) (h : ∀ token ∈ ts.done, token.Named) :
    ∀ token ∈ turn.1.done, token.Named := by
  have hpush {lexeme : Lexeme} {place : Place} {start : Bool} (hl : ∀ part ∈ lexeme.parts, part.Named) :
      ∀ token ∈ (ts.push lexeme place start).done, token.Named :=
    List.forall_mem_cons.mpr ⟨hl, h⟩
  cases ht with
  | blank | continued | comment => exact h
  | newline | operator => exact hpush nofun
  | arithmetic hs hr hp => exact hpush (readParts_named hp ⟨nofun, nofun⟩)
  | word hm hcomment hb hp =>
    unfold pushWord
    simp only
    split
    · exact hpush (List.forall_mem_cons.mpr ⟨.literal, nofun⟩)
    · exact hpush (readParts_named hp ⟨nofun, nofun⟩)

/-- **The names that the tokens of a text assign to are identifiers.** -/
theorem tokensFrom_named {ts : Tokens} {place : Place} {cs : List Char} {tokens : List Token}
    (ht : tokensFrom ts place cs = .ok tokens) (h : ∀ token ∈ ts.done, token.Named) :
    ∀ token ∈ tokens, token.Named := by
  induction ht using tokensFrom_induction with
  | stop =>
    intro token hmem
    rcases List.mem_cons.mp (List.mem_reverse.mp hmem) with rfl | hmem
    · exact nofun
    · exact h token hmem
  | turn ht _ ih => exact ih (ht.named h)

end Shell
