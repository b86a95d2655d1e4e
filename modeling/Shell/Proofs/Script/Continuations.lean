/-
Scripts with lines that are continued within a word.

A backslash with a newline after it is to join two lines, as if neither were there. In a word it does if nothing
but the parts of the word is read: the script is the same then, but for its places (`parse_continued`). But the two
characters stay in the text of the word. So a keyword is none anymore, a word no longer starts like an assignment
where that is needed for a keyword after it, and a name of a function or of the variable of a loop is no name: what was
a script is none then, or another one.
-/
import Shell.Proofs.Script.Respelling
import Shell.Proofs.Script.Substitutions
import Shell.Proofs.Token.Continuations

set_option autoImplicit false

namespace Shell

open Shell.Parser

variable {m : Move} {ts ts' done after : List Token} {token token' : Token}

/-! ## 1. Tokens -/

theorem Token.Alike.refl (m : Move) (token : Token) : token.Alike m token := ⟨rfl, .same m _⟩

@[simp] theorem Lexeme.shape_move (m : Move) (lexeme : Lexeme) : (lexeme.move m).shape = lexeme.shape := by
  cases lexeme <;> rfl

theorem Token.Alike.moved (h : SourcesOf (fun _ place => m.Follows place) token.lexeme.parts) :
    token.Alike m (token.move m) where
  shape := Lexeme.shape_move m _
  parts := by
    rw [Token.move, Lexeme.parts_move]
    exact .all h

theorem isWordText_of_ne {text other : String} {parts : List WordPart} {place : Place} (h : text ≠ other) :
    isWordText other ⟨.word text parts, place⟩ = false := by
  simp [isWordText, h]

theorem isKeyword_of_ofText?_eq_none {text : String} {parts : List WordPart} {place : Place} {keyword : Keyword}
    (h : Keyword.ofText? text = none) : isKeyword keyword ⟨.word text parts, place⟩ = false := by
  have hne : text ≠ keyword.text := by
    rintro rfl
    cases keyword <;> exact absurd h (by decide)
  unfold isKeyword
  rw [isWordText_of_ne hne]
  rfl

/-- Words are the same keyword if neither of them is one. -/
theorem Token.SameKeyword.none {text text' : String} {parts parts' : List WordPart} {place place' : Place}
    (hk : Keyword.ofText? text = none) (hk' : Keyword.ofText? text' = none) (hi : text ≠ "in") (hi' : text' ≠ "in") :
    Token.SameKeyword ⟨.word text parts, place⟩ ⟨.word text' parts', place'⟩ where
  keyword _ := by rw [isKeyword_of_ofText?_eq_none hk, isKeyword_of_ofText?_eq_none hk']
  isIn := by rw [isWordText_of_ne hi, isWordText_of_ne hi']

/-- Tokens that are moved are alike. -/
theorem Respelled.moved {role : Role} (h : Movable m ts) : Respelled m role ts (ts.map (Token.move m)) := by
  induction ts generalizing role with
  | nil => exact .nil
  | cons token ts ih =>
    exact .cons (.moved (h token List.mem_cons_self))
      (fun _ => ⟨fun keyword => Token.isKeyword_move keyword token, Token.isWordText_move "in" token⟩)
      (fun _ => Lexeme.text_move m _) (fun _ => Lexeme.text_move m _) (ih h.tail)

/-- The role of what comes after tokens, of which the last comes first. -/
def roleAfter : List Token → Role
  | [] => .anything
  | last :: done => (roleAfter done).next last

/-- Tokens that come before may stay as they are. -/
theorem Respelled.behind (h : Respelled m (roleAfter done) (token :: ts) (token' :: ts')) :
    Respelled m .anything (done.reverse ++ token :: ts) (done.reverse ++ token' :: ts') := by
  induction done generalizing token token' ts ts' with
  | nil => exact h
  | cons last done ih =>
    simp only [List.reverse_cons, List.append_assoc, List.singleton_append]
    exact ih (.cons (.refl m last) (fun _ => ⟨fun _ => rfl, rfl⟩) (fun _ => rfl) (fun _ => rfl) h)

/-- Whether a name is expected where a word stands, after tokens, of which the last comes first, and before others. -/
def NameExpected (done after : List Token) : Prop :=
  (∃ last ∈ done.head?, namesNext last = true) ∨ ¬ Unless (isOperator .leftParen) after

theorem NameExpected.move (h : NameExpected done after) (m : Move) : NameExpected done (after.map (Token.move m)) := by
  refine h.imp_right fun hcall hunless => hcall fun token hmem => ?_
  rw [← Token.isOperator_move (m := m)]
  exact hunless _ (by rw [List.head?_map, Option.mem_def.mp hmem]; rfl)

theorem nameExpected_of_roleAfter (h : roleAfter done = .name) : NameExpected done after := by
  cases done with
  | nil => cases h
  | cons last done => exact .inl ⟨last, rfl, Role.next_eq_name_iff.mp h⟩

/-- A word is spelled in another way where no name is expected, and what comes after it is moved. -/
theorem Respelled.continued (hword : token.Alike m token')
    (hkeyword : roleAfter done ≠ .argument → token.SameKeyword token') (hname : ¬ NameExpected done after)
    (hafter : Movable m after) :
    Respelled m .anything (done.reverse ++ token :: after) (done.reverse ++ token' :: after.map (Token.move m)) :=
  .behind (.cons hword hkeyword (fun hrole => absurd (nameExpected_of_roleAfter hrole) hname)
    (fun hcall => absurd (Or.inr hcall) hname) (.moved hafter))

/-- A word is read without a look at its text. It is an argument, or it is no keyword and not `in`; no name is
expected; and if it starts like an assignment, it does so already with `u`, or no keyword that comes after it depends
on that. -/
structure IsUnread (u : List Char) (text : String) (done after : List Token) : Prop where
  noKeyword : roleAfter done = .argument ∨ (Keyword.ofText? text = none ∧ text ≠ "in")
  noName : ¬ NameExpected done after
  assigns : startsAssignment text.toList = true → startsAssignment u = true ∨ leadsToKeyword after = false

/-! ## 2. Scripts -/

/-- What starts like an assignment has the sign of one. -/
theorem startsAssignment_of_plain {text : List Char} (h : '=' ∉ text) : startsAssignment text = false := by
  cases text with
  | nil => rfl
  | cons c cs =>
    have hsuffix := (List.dropWhile_suffix Name.isRest (l := cs)).trans (List.suffix_cons c cs)
    simp only [startsAssignment, Bool.and_eq_false_iff]
    refine .inr ?_
    split
    · next heq => exact absurd (hsuffix.subset (heq ▸ List.mem_cons_self)) h
    · next heq => exact absurd (hsuffix.subset (heq ▸ List.mem_cons_of_mem _ List.mem_cons_self)) h
    · rfl

/-- Where a name is expected in a script, a word is plain. -/
theorem Spells.plain_of_nameExpected {read : SourceReader} {starts : List Token → Command → Prop} {script : Sequence}
    (h : Spells read starts (done.reverse ++ token :: after) (.list [] script) []) (hn : NameExpected done after)
    (hw : isWord token = true) : token.IsPlain := by
  have hplain := h.namesPlain nofun .nil
  rcases hn with ⟨last, hmem, hnext⟩ | hcall
  · cases done with
    | nil => cases hmem
    | cons last done =>
      obtain rfl := Option.some.inj hmem
      have hall : (last :: done).reverse ++ token :: after = done.reverse ++ last :: token :: after := by simp
      exact hplain.plain_after hall hnext
  · exact hplain.plain_before rfl hcall hw

/-- The last token of a text is the end of the input, so it comes after every word. -/
theorem exists_inside {before inside : List Token} {text : String} {parts : List WordPart} {place stop : Place}
    (h : inside ++ [⟨.endOfInput, stop⟩] = before ++ ⟨.word text parts, place⟩ :: after) :
    ∃ later, after = later ++ [⟨.endOfInput, stop⟩] ∧ inside = before ++ ⟨.word text parts, place⟩ :: later := by
  rcases List.eq_nil_or_concat after with rfl | ⟨later, last, rfl⟩
  · have hlast := (List.append_inj' h rfl).2
    cases hlast
  · rw [List.concat_eq_append, ← List.cons_append, ← List.append_assoc] at h
    obtain ⟨hinside, hlast⟩ := List.append_inj' h rfl
    obtain rfl := List.singleton_inj.mp hlast
    exact ⟨later, List.concat_eq_append, hinside⟩

theorem nameExpected_inside (stop : Place) :
    NameExpected done (after ++ [⟨.endOfInput, stop⟩]) ↔ NameExpected done after := by
  have hunless : Unless (isOperator .leftParen) (after ++ [⟨.endOfInput, stop⟩]) ↔
      Unless (isOperator .leftParen) after := by
    cases after with
    | nil =>
      refine ⟨fun _ => nofun, fun _ token hmem => ?_⟩
      obtain rfl := Option.some.inj hmem
      rfl
    | cons first after => exact Iff.rfl
  unfold NameExpected
  rw [hunless]

section

variable {n : Nat} {origin place : Place} {front u w : List Char} {before : Tokens} {r : Reading} {text : String}
  {parts : List WordPart} {script : Sequence}

/-- A script is the same if a line is continued within a word that is read without a look at its text. -/
theorem parseAt_continued (hpoint : PointInWord origin front u w before r)
    (h : parseAt (n + 1) origin (front ++ (u ++ w)) = .ok script)
    (htokens : tokenize (front ++ (u ++ w)) origin =
      .ok (before.done.reverse ++ ⟨.word text parts, place⟩ :: after))
    (hsize : (front ++ (u ++ '\\' :: '\n' :: w)).length ≤ maxScriptSize)
    (hunread : IsUnread u text before.done after) :
    ∃ script', parseAt (n + 1) origin (front ++ (u ++ '\\' :: '\n' :: w)) = .ok script' ∧
      script'.unplaced = script.unplaced := by
  obtain ⟨inside, stop, hinside, -, hmax, hspells⟩ := parseAt_spells h
  rw [htokens] at hinside
  obtain ⟨later, rfl, rfl⟩ := exists_inside (Except.ok.inj hinside).symm
  obtain ⟨first, rest, v, rfl, htext, hrest, hafter, hcontinued⟩ :=
    tokensFrom_continued hpoint rfl (tokenize_eq_ok_iff.mp htokens).2 hunread.assigns
  generalize Move.nextLine (origin.advance (front ++ u)) = m at hrest hafter hcontinued
  -- The word is respelled, and the tokens after it are moved.
  have hbackslash : '\\' ∈ u ++ '\\' :: '\n' :: v := by simp
  have hin : String.ofList (u ++ '\\' :: '\n' :: v) ≠ "in" := by
    intro heq
    rw [← String.toList_ofList (l := u ++ '\\' :: '\n' :: v), heq] at hbackslash
    exact absurd hbackslash (by decide)
  have hword : Token.Alike m ⟨.word text (first ++ rest), place⟩
      ⟨.word (String.ofList (u ++ '\\' :: '\n' :: v)) (first ++ moveParts m rest), place⟩ :=
    ⟨rfl, first, rest, rfl, rfl, hrest⟩
  have hmovable : Movable m later := fun token hmem => hafter token (List.mem_append_left _ hmem)
  have hunnamed := mt (nameExpected_inside stop).mpr hunread.noName
  have hkeyword : roleAfter before.done ≠ .argument → Token.SameKeyword ⟨.word text (first ++ rest), place⟩
      ⟨.word (String.ofList (u ++ '\\' :: '\n' :: v)) (first ++ moveParts m rest), place⟩ := by
    intro hrole
    obtain ⟨hnone, hne⟩ := hunread.noKeyword.resolve_left hrole
    exact .none hnone (Keyword.ofText?_of_isGuard rfl hbackslash) hne hin
  have hrespelled := Respelled.continued hword hkeyword hunnamed hmovable
  -- So they spell the same script.
  have hread : SourceReader.Moves m (fun source place => parseAt n place source.toList)
      fun source place => parseAt n place source.toList := fun source place body hm hbody => parseAt_move hbody hm
  obtain ⟨_, hnil, script', hsame, hspells'⟩ := hspells.respelled hread rfl hrespelled
  cases hnil
  refine ⟨script', ?_, hsame⟩
  unfold parseAt
  rw [tokenize_eq_ok_iff.mpr ⟨hsize, hcontinued⟩]
  show parseTokens _ _ = _
  rw [List.map_append, ← List.cons_append, ← List.append_assoc]
  exact hspells'.parseTokens (by simpa using hmax) _

/-- A script is none anymore if a line is continued within a word that is read as a name. -/
theorem parseAt_continuedName (hpoint : PointInWord origin front u w before r)
    (h : parseAt (n + 1) origin (front ++ (u ++ w)) = .ok script)
    (htokens : tokenize (front ++ (u ++ w)) origin =
      .ok (before.done.reverse ++ ⟨.word text parts, place⟩ :: after))
    (hsize : (front ++ (u ++ '\\' :: '\n' :: w)).length ≤ maxScriptSize)
    (hname : NameExpected before.done after) :
    ∃ e, parseAt (n + 1) origin (front ++ (u ++ '\\' :: '\n' :: w)) = .error e := by
  obtain ⟨inside, stop, hinside, -, -, hspells⟩ := parseAt_spells h
  rw [htokens] at hinside
  obtain ⟨later, rfl, rfl⟩ := exists_inside (Except.ok.inj hinside).symm
  -- The name is plain, so it does not start like an assignment.
  have hplain := hspells.plain_of_nameExpected ((nameExpected_inside stop).mp hname) rfl
  have hassigns : startsAssignment text.toList = true → startsAssignment u = true ∨
      leadsToKeyword (later ++ [⟨.endOfInput, stop⟩]) = false :=
    fun hstarts => absurd (startsAssignment_of_plain hplain.2) (by simp [Lexeme.text, hstarts])
  obtain ⟨first, rest, v, rfl, htext, hrest, hafter, hcontinued⟩ :=
    tokensFrom_continued hpoint rfl (tokenize_eq_ok_iff.mp htokens).2 hassigns
  cases hnew : parseAt (n + 1) origin (front ++ (u ++ '\\' :: '\n' :: w)) with
  | error e => exact ⟨e, rfl⟩
  | ok script' =>
    -- It has a backslash now, which no name has.
    exfalso
    obtain ⟨inside', stop', hinside', -, -, hspells'⟩ := parseAt_spells hnew
    rw [tokenize_eq_ok_iff.mpr ⟨hsize, hcontinued⟩] at hinside'
    obtain ⟨later', hlater, rfl⟩ := exists_inside (Except.ok.inj hinside').symm
    have hname' := (nameExpected_inside stop').mp (hlater ▸ hname.move _)
    refine (hspells'.plain_of_nameExpected hname' rfl).1 ?_
    simp [Lexeme.text]

end

/-- **A line that is continued within a word** joins two lines of a script if nothing but the parts of the word is read:
the script is the same, up to the places. Where a name is expected there is no script anymore. -/
theorem parse_continued {front u w : String} {before : Tokens} {r : Reading} {text : String} {parts : List WordPart}
    {place : Place} {after : List Token} {script : Sequence}
    (hpoint : PointInWord ⟨1, 1⟩ front.toList u.toList w.toList before r) (h : parse (front ++ u ++ w) = .ok script)
    (htokens : tokenize (front ++ u ++ w).toList ⟨1, 1⟩ =
      .ok (before.done.reverse ++ ⟨.word text parts, place⟩ :: after))
    (hsize : (front ++ u ++ "\\\n" ++ w).length ≤ maxScriptSize) :
    (IsUnread u.toList text before.done after →
        ∃ script', parse (front ++ u ++ "\\\n" ++ w) = .ok script' ∧ script'.unplaced = script.unplaced) ∧
      (NameExpected before.done after → ∃ e, parse (front ++ u ++ "\\\n" ++ w) = .error e) := by
  have hold : (front ++ u ++ w).toList = front.toList ++ (u.toList ++ w.toList) := by simp
  have hnew : (front ++ u ++ "\\\n" ++ w).toList = front.toList ++ (u.toList ++ '\\' :: '\n' :: w.toList) := by simp
  rw [← String.length_toList] at hsize
  unfold parse at h ⊢
  rw [hold] at h htokens
  rw [hnew] at hsize ⊢
  -- Both texts are read with the same bound.
  have hbound : (front.toList ++ (u.toList ++ w.toList)).length <
      (front.toList ++ (u.toList ++ '\\' :: '\n' :: w.toList)).length + 1 := by
    simp only [List.length_append, List.length_cons]
    omega
  rw [← parseAt_eq_parseFrom hbound] at h
  rw [← parseAt_eq_parseFrom (Nat.lt_succ_self _)]
  exact ⟨parseAt_continued hpoint h htokens hsize, parseAt_continuedName hpoint h htokens hsize⟩

/-- What has been read up to the argument of a command with an assignment. -/
def beforeArgument : Tokens where
  done := [⟨.word "y" [.literal "y"], ⟨1, 5⟩⟩, ⟨.word "x=1" [.literal "x=1"], ⟨1, 1⟩⟩]
  commandStart := false

theorem pointInArgument :
    PointInWord ⟨1, 1⟩ "x=1 y ".toList "a".toList "b$(c)\n".toList beforeArgument ⟨none, [], ['a'], ['a']⟩ := by
  have hfront : "x=1 y ".toList = ['x', '=', '1', ' ', 'y', ' '] := rfl
  have hu : "a".toList = ['a'] := rfl
  have hw : "b$(c)\n".toList = ['b', '$', '(', 'c', ')', '\n'] := rfl
  rw [hfront, hu, hw]
  have hassignment : ({} : Tokens).Took ⟨1, 1⟩ 'x' ['=', '1', ' ', 'y', ' ', 'a', 'b', '$', '(', 'c', ')', '\n']
      (⟨[⟨.word "x=1" [.literal "x=1"], ⟨1, 1⟩⟩], true⟩, ⟨1, 4⟩,
        [' ', 'y', ' ', 'a', 'b', '$', '(', 'c', ')', '\n']) :=
    Tokens.step_eq_ok_iff.mp (by cbv)
  have hname : (⟨[⟨.word "x=1" [.literal "x=1"], ⟨1, 1⟩⟩], true⟩ : Tokens).Took ⟨1, 5⟩ 'y'
      [' ', 'a', 'b', '$', '(', 'c', ')', '\n']
      (⟨[⟨.word "y" [.literal "y"], ⟨1, 5⟩⟩, ⟨.word "x=1" [.literal "x=1"], ⟨1, 1⟩⟩], false⟩, ⟨1, 6⟩,
        [' ', 'a', 'b', '$', '(', 'c', ')', '\n']) :=
    Tokens.step_eq_ok_iff.mp (by cbv)
  constructor
  · exact .turn hassignment (.turn (.blank (.inl rfl)) (.turn hname (.turn (.blank (.inl rfl)) .here)))
  · exact ⟨'a', _, rfl, by decide, by decide, by decide⟩
  · exact .turn (Reading.step_eq_some_iff.mp (by cbv)) .here
  · rfl
  · decide
  · decide

/-- The tokens of the argument and of what comes after it. -/
theorem tokenize_argument : tokenize ("x=1 y " ++ "a" ++ "b$(c)\n").toList ⟨1, 1⟩ =
    .ok (beforeArgument.done.reverse ++ ⟨.word "ab$(c)" [.literal "ab", .substitution "c" ⟨1, 11⟩ none], ⟨1, 7⟩⟩ ::
      [⟨.newline, ⟨1, 13⟩⟩, ⟨.endOfInput, ⟨2, 1⟩⟩]) := by
  rw [tokenize, if_neg (by decide), tokensFrom_eq_tokensWithin (Nat.le_refl _)]
  cbv

theorem isUnread_argument :
    IsUnread "a".toList "ab$(c)" beforeArgument.done [⟨.newline, ⟨1, 13⟩⟩, ⟨.endOfInput, ⟨2, 1⟩⟩] := by
  refine ⟨.inr ⟨by decide, by decide⟩, ?_, fun h => absurd h (by decide)⟩
  rintro (⟨last, hmem, hnext⟩ | hcall)
  · obtain rfl := Option.some.inj hmem
    exact absurd hnext (by decide)
  · refine hcall fun token hmem => ?_
    obtain rfl := Option.some.inj hmem
    rfl

/-- What comes after the name of a function. -/
def functionTokens : List Token :=
  [⟨.operator .leftParen, ⟨1, 4⟩⟩, ⟨.operator .rightParen, ⟨1, 5⟩⟩, ⟨.operator .leftParen, ⟨1, 7⟩⟩,
    ⟨.word "echo" [.literal "echo"], ⟨1, 8⟩⟩, ⟨.word "hi" [.literal "hi"], ⟨1, 13⟩⟩, ⟨.operator .rightParen, ⟨1, 15⟩⟩,
    ⟨.operator .semicolon, ⟨1, 16⟩⟩, ⟨.word "foo" [.literal "foo"], ⟨1, 18⟩⟩, ⟨.endOfInput, ⟨1, 21⟩⟩]

theorem tokenize_function : tokenize ("" ++ "fo" ++ "o() (echo hi); foo").toList ⟨1, 1⟩ =
    .ok (({} : Tokens).done.reverse ++ ⟨.word "foo" [.literal "foo"], ⟨1, 1⟩⟩ :: functionTokens) := by
  rw [tokenize, if_neg (by decide), tokensFrom_eq_tokensWithin (Nat.le_refl _)]
  cbv

theorem pointInFunctionName :
    PointInWord ⟨1, 1⟩ "".toList "fo".toList "o() (echo hi); foo".toList {} ⟨none, [], ['o', 'f'], ['o', 'f']⟩ := by
  have hword : "fo".toList = ['f', 'o'] := rfl
  rw [hword]
  have hfirst : Reading.Took isMetacharacter {} ⟨1, 1⟩ 'f' ('o' :: "o() (echo hi); foo".toList)
      (⟨none, [], ['f'], ['f']⟩, ⟨1, 2⟩, 'o' :: "o() (echo hi); foo".toList) :=
    Reading.step_eq_some_iff.mp (by cbv)
  have hsecond : Reading.Took isMetacharacter ⟨none, [], ['f'], ['f']⟩ ⟨1, 2⟩ 'o' "o() (echo hi); foo".toList
      (⟨none, [], ['o', 'f'], ['o', 'f']⟩, ⟨1, 3⟩, "o() (echo hi); foo".toList) :=
    Reading.step_eq_some_iff.mp (by cbv)
  constructor
  · exact .here
  · exact ⟨'f', _, rfl, by decide, by decide, by decide⟩
  · exact .turn hfirst (.turn hsecond .here)
  · rfl
  · decide
  · decide

/-- The line can be continued in the argument, and not in the name of the function. -/
theorem twoPoints_continued :
    (∃ script script', parse ("x=1 y " ++ "a" ++ "b$(c)\n") = .ok script ∧
      parse ("x=1 y " ++ "a" ++ "\\\n" ++ "b$(c)\n") = .ok script' ∧ script'.unplaced = script.unplaced) ∧
    ∃ script e, parse ("" ++ "fo" ++ "o() (echo hi); foo") = .ok script ∧
      parse ("" ++ "fo" ++ "\\\n" ++ "o() (echo hi); foo") = .error e := by
  have hargument : (parse ("x=1 y " ++ "a" ++ "b$(c)\n")).isOk = true := by
    rw [parse, parseFrom_eq_parseWithin]
    cbv
  have hfunction : (parse ("" ++ "fo" ++ "o() (echo hi); foo")).isOk = true := by
    rw [parse, parseFrom_eq_parseWithin]
    cbv
  constructor
  -- Only the first parse is run, and the other one follows from the theorem.
  · cases h : parse ("x=1 y " ++ "a" ++ "b$(c)\n") with
    | error e =>
      rw [h] at hargument
      cases hargument
    | ok script =>
      obtain ⟨script', hnew, hsame⟩ :=
        (parse_continued pointInArgument h tokenize_argument (by decide)).1 isUnread_argument
      exact ⟨script, script', rfl, hnew, hsame⟩
  · cases h : parse ("" ++ "fo" ++ "o() (echo hi); foo") with
    | error e =>
      rw [h] at hfunction
      cases hfunction
    | ok script =>
      have hcall : NameExpected [] functionTokens := .inr fun hunless => absurd (hunless _ rfl) (by decide)
      obtain ⟨e, hnew⟩ := (parse_continued pointInFunctionName h tokenize_function (by decide)).2 hcall
      exact ⟨script, e, rfl, hnew⟩

/-- **A continued line is seen** in the name of a function, in a keyword, in the name of the variable of a loop, and in
an assignment with a keyword after it: what is a script without it is none with it. -/
theorem functionName_continued :
    (∃ r, PointInWord ⟨1, 1⟩ "".toList "fo".toList "o() (echo hi); foo".toList {} r) ∧
      (parse "foo() (echo hi); foo").isOk = true ∧
      parse "fo\\\no() (echo hi); foo" = .error ⟨.invalidFunctionName "fo\\\no", ⟨1, 1⟩⟩ ∧
      (parse "if :; then :; fi").isOk = true ∧ (parse "i\\\nf :; then :; fi").isOk = false ∧
      (parse "for ab in c; do :; done").isOk = true ∧ (parse "for a\\\nb in c; do :; done").isOk = false ∧
      (parse "if a=1 then :; fi").isOk = true ∧ (parse "if a\\\n=1 then :; fi").isOk = false := by
  refine ⟨⟨_, pointInFunctionName⟩, ?_, ?_, ?_, ?_, ?_, ?_, ?_, ?_⟩
  all_goals
    rw [parse, parseFrom_eq_parseWithin]
    cbv

end Shell
