/-
Scripts at other places.

The places in a script say where it was read, and nothing else about it. A `Move` takes places to places; it moves
a script by moving every place in it, and leaves the rest alone. Two moves are used. One takes a text from the
start of a script to where it stands in another (`Move.shift`). The other takes all places to one, and what it
makes of a script is the script without its places (`Sequence.unplaced`): two scripts are the same up to their
places if that is the same.
-/
import Mathlib.Logic.Basic
import Shell.Token

set_option autoImplicit false

namespace Shell

/-! ## 1. Moves -/

/-- Where places and lines go. -/
structure Move where
  place : Place → Place
  line : Nat → Nat
  /-- Both agree. -/
  line_place : ∀ p : Place, (place p).line = line p.line

namespace Move

/-- One move after another. -/
def andThen (m m' : Move) : Move where
  place p := m'.place (m.place p)
  line l := m'.line (m.line l)
  line_place p := by rw [m'.line_place, m.line_place]

/-- All places become one, which is not a place in a script. -/
def away : Move where
  place _ := ⟨0, 0⟩
  line _ := 0
  line_place _ := rfl

/-- A text that starts at the first line goes `lines` lines down, and its first line `columns` columns to the
right. -/
def shift (lines columns : Nat) : Move where
  place p := ⟨p.line + lines, if p.line = 1 then p.column + columns else p.column⟩
  line l := l + lines
  line_place _ := rfl

/-- Where all places go to one, it does not matter where they were before. -/
theorem andThen_away (m : Move) : m.andThen away = away := rfl

/-- On the lines of a script a shift goes along with the characters. -/
theorem shift_after {lines columns : Nat} {place : Place} (h : 1 ≤ place.line) (c : Char) :
    (shift lines columns).place (place.after c) = ((shift lines columns).place place).after c := by
  unfold shift Place.after
  by_cases hc : c = '\n'
  · simp only [if_pos hc, Place.mk.injEq]
    exact ⟨by omega, if_neg (by omega)⟩
  · simp only [if_neg hc, Place.mk.injEq]
    refine ⟨trivial, ?_⟩
    split <;> omega

end Move

/-! ## 2. Moved scripts -/

mutual

/-- The part at another place. The argument of `${NAME-...}` has no line to move. -/
def WordPart.move (m : Move) : WordPart → WordPart
  | .literal text => .literal text
  | .singleQuoted text => .singleQuoted text
  | .escaped char => .escaped char
  | .doubleQuoted parts => .doubleQuoted (moveParts m parts)
  | .parameter name => .parameter name
  | .length name => .length name
  | .conditional name op ⟨line, parts⟩ => .conditional name op ⟨line, moveParts m parts⟩
  | .substitution source place body => .substitution source (m.place place) (moveBody m body)
  | .arithmetic expression => .arithmetic (expression.move m)

def moveParts (m : Move) : List WordPart → List WordPart
  | [] => []
  | part :: parts => part.move m :: moveParts m parts

/-- A word has the line that it starts on. -/
def Word.move (m : Move) : Word → Word
  | ⟨line, parts⟩ => ⟨m.line line, moveParts m parts⟩

def moveWords (m : Move) : List Word → List Word
  | [] => []
  | word :: words => word.move m :: moveWords m words

def moveName (m : Move) : Option Word → Option Word
  | none => none
  | some word => some (word.move m)

def moveItems (m : Move) : Option (List Word) → Option (List Word)
  | none => none
  | some words => some (moveWords m words)

/-- An assignment has a line, and its value has one as well. -/
def Assignment.move (m : Move) : Assignment → Assignment
  | ⟨name, append, value, line⟩ => ⟨name, append, value.move m, m.line line⟩

def moveAssignments (m : Move) : List Assignment → List Assignment
  | [] => []
  | assignment :: assignments => assignment.move m :: moveAssignments m assignments

/-- A command has the line that it starts on, and so has every command inside of it. -/
def Command.move (m : Move) : Command → Command
  | .simple line name args assignments =>
    .simple (m.line line) (moveName m name) (moveWords m args) (moveAssignments m assignments)
  | .choice line condition body branches otherwise =>
    .choice (m.line line) (condition.move m) (body.move m) (moveBranches m branches) (moveBody m otherwise)
  | .loop line kind condition body => .loop (m.line line) kind (condition.move m) (body.move m)
  | .each line name words body => .each (m.line line) name (moveItems m words) (body.move m)
  | .group line body => .group (m.line line) (body.move m)
  | .subshell line body => .subshell (m.line line) (body.move m)
  | .function line name body => .function (m.line line) name (body.move m)
  | .arithmetic line expression => .arithmetic (m.line line) (expression.move m)

def Branch.move (m : Move) : Branch → Branch
  | ⟨condition, body⟩ => ⟨condition.move m, body.move m⟩

def moveBranches (m : Move) : List Branch → List Branch
  | [] => []
  | branch :: branches => branch.move m :: moveBranches m branches

def Pipeline.move (m : Move) : Pipeline → Pipeline
  | ⟨negated, first, rest⟩ => ⟨negated, first.move m, moveCommands m rest⟩

def moveCommands (m : Move) : List Command → List Command
  | [] => []
  | command :: commands => command.move m :: moveCommands m commands

def Joined.move (m : Move) : Joined → Joined
  | ⟨connective, pipeline⟩ => ⟨connective, pipeline.move m⟩

def moveJoined (m : Move) : List Joined → List Joined
  | [] => []
  | joined :: more => joined.move m :: moveJoined m more

def AndOrList.move (m : Move) : AndOrList → AndOrList
  | ⟨first, rest⟩ => ⟨first.move m, moveJoined m rest⟩

def moveStatements (m : Move) : List AndOrList → List AndOrList
  | [] => []
  | statement :: statements => statement.move m :: moveStatements m statements

/-- A list is its statements, each at its new place. -/
def Sequence.move (m : Move) : Sequence → Sequence
  | ⟨statements⟩ => ⟨moveStatements m statements⟩

/-- The script of a substitution, if there is one. -/
def moveBody (m : Move) : Option Sequence → Option Sequence
  | none => none
  | some body => some (body.move m)

end

/-! ## 3. Moves after moves

One lemma for each kind of phrase, by recursion along the phrase as the move itself is defined. Used as they are
needed: for scripts, words and their parts. -/

mutual

/-- A part of a word that is moved twice is moved by both moves together. -/
theorem WordPart.move_andThen (m m' : Move) : ∀ part : WordPart, (part.move m).move m' = part.move (m.andThen m')
  | .literal _ | .singleQuoted _ | .escaped _ | .parameter _ | .length _ => rfl
  | .doubleQuoted parts => congrArg WordPart.doubleQuoted (moveParts_andThen m m' parts)
  | .conditional name op ⟨line, parts⟩ =>
    congrArg (fun parts => WordPart.conditional name op ⟨line, parts⟩) (moveParts_andThen m m' parts)
  | .substitution source place body =>
    congrArg (WordPart.substitution source ((m.andThen m').place place)) (moveBody_andThen m m' body)
  | .arithmetic expression => congrArg WordPart.arithmetic (Word.move_andThen m m' expression)

theorem moveParts_andThen (m m' : Move) : ∀ parts : List WordPart,
    moveParts m' (moveParts m parts) = moveParts (m.andThen m') parts
  | [] => rfl
  | part :: parts => congrArg₂ List.cons (WordPart.move_andThen m m' part) (moveParts_andThen m m' parts)

theorem Word.move_andThen (m m' : Move) : ∀ word : Word, (word.move m).move m' = word.move (m.andThen m')
  | ⟨line, parts⟩ => congrArg (Word.mk ((m.andThen m').line line)) (moveParts_andThen m m' parts)

theorem moveWords_andThen (m m' : Move) : ∀ words : List Word,
    moveWords m' (moveWords m words) = moveWords (m.andThen m') words
  | [] => rfl
  | word :: words => congrArg₂ List.cons (Word.move_andThen m m' word) (moveWords_andThen m m' words)

theorem moveName_andThen (m m' : Move) : ∀ name : Option Word,
    moveName m' (moveName m name) = moveName (m.andThen m') name
  | none => rfl
  | some word => congrArg some (Word.move_andThen m m' word)

theorem moveItems_andThen (m m' : Move) : ∀ words : Option (List Word),
    moveItems m' (moveItems m words) = moveItems (m.andThen m') words
  | none => rfl
  | some words => congrArg some (moveWords_andThen m m' words)

theorem Assignment.move_andThen (m m' : Move) : ∀ assignment : Assignment,
    (assignment.move m).move m' = assignment.move (m.andThen m')
  | ⟨name, append, value, line⟩ =>
    congrArg (fun value => Assignment.mk name append value ((m.andThen m').line line)) (Word.move_andThen m m' value)

theorem moveAssignments_andThen (m m' : Move) : ∀ assignments : List Assignment,
    moveAssignments m' (moveAssignments m assignments) = moveAssignments (m.andThen m') assignments
  | [] => rfl
  | assignment :: assignments =>
    congrArg₂ List.cons (Assignment.move_andThen m m' assignment) (moveAssignments_andThen m m' assignments)

/-- A command that is moved twice is moved by both moves together. -/
theorem Command.move_andThen (m m' : Move) : ∀ command : Command,
    (command.move m).move m' = command.move (m.andThen m')
  | .simple line name args assignments => by
    simp only [Command.move, moveName_andThen m m' name, moveWords_andThen m m' args,
      moveAssignments_andThen m m' assignments]
    rfl
  | .choice line condition body branches otherwise => by
    simp only [Command.move, Sequence.move_andThen m m' condition, Sequence.move_andThen m m' body,
      moveBranches_andThen m m' branches, moveBody_andThen m m' otherwise]
    rfl
  | .loop line kind condition body => by
    simp only [Command.move, Sequence.move_andThen m m' condition, Sequence.move_andThen m m' body]
    rfl
  | .each line name words body => by
    simp only [Command.move, moveItems_andThen m m' words, Sequence.move_andThen m m' body]
    rfl
  | .group line body => congrArg (Command.group _) (Sequence.move_andThen m m' body)
  | .subshell line body => congrArg (Command.subshell _) (Sequence.move_andThen m m' body)
  | .function line name body => congrArg (Command.function _ name) (Sequence.move_andThen m m' body)
  | .arithmetic line expression => congrArg (Command.arithmetic _) (Word.move_andThen m m' expression)

theorem Branch.move_andThen (m m' : Move) : ∀ branch : Branch,
    (branch.move m).move m' = branch.move (m.andThen m')
  | ⟨condition, body⟩ =>
    congrArg₂ Branch.mk (Sequence.move_andThen m m' condition) (Sequence.move_andThen m m' body)

theorem moveBranches_andThen (m m' : Move) : ∀ branches : List Branch,
    moveBranches m' (moveBranches m branches) = moveBranches (m.andThen m') branches
  | [] => rfl
  | branch :: branches =>
    congrArg₂ List.cons (Branch.move_andThen m m' branch) (moveBranches_andThen m m' branches)

theorem Pipeline.move_andThen (m m' : Move) : ∀ pipeline : Pipeline,
    (pipeline.move m).move m' = pipeline.move (m.andThen m')
  | ⟨negated, first, rest⟩ =>
    congrArg₂ (Pipeline.mk negated) (Command.move_andThen m m' first) (moveCommands_andThen m m' rest)

theorem moveCommands_andThen (m m' : Move) : ∀ commands : List Command,
    moveCommands m' (moveCommands m commands) = moveCommands (m.andThen m') commands
  | [] => rfl
  | command :: commands =>
    congrArg₂ List.cons (Command.move_andThen m m' command) (moveCommands_andThen m m' commands)

theorem Joined.move_andThen (m m' : Move) : ∀ joined : Joined,
    (joined.move m).move m' = joined.move (m.andThen m')
  | ⟨connective, pipeline⟩ => congrArg (Joined.mk connective) (Pipeline.move_andThen m m' pipeline)

theorem moveJoined_andThen (m m' : Move) : ∀ joined : List Joined,
    moveJoined m' (moveJoined m joined) = moveJoined (m.andThen m') joined
  | [] => rfl
  | joined :: more => congrArg₂ List.cons (Joined.move_andThen m m' joined) (moveJoined_andThen m m' more)

theorem AndOrList.move_andThen (m m' : Move) : ∀ statement : AndOrList,
    (statement.move m).move m' = statement.move (m.andThen m')
  | ⟨first, rest⟩ => congrArg₂ AndOrList.mk (Pipeline.move_andThen m m' first) (moveJoined_andThen m m' rest)

theorem moveStatements_andThen (m m' : Move) : ∀ statements : List AndOrList,
    moveStatements m' (moveStatements m statements) = moveStatements (m.andThen m') statements
  | [] => rfl
  | statement :: statements =>
    congrArg₂ List.cons (AndOrList.move_andThen m m' statement) (moveStatements_andThen m m' statements)

/-- **Two moves are one.** -/
theorem Sequence.move_andThen (m m' : Move) : ∀ sequence : Sequence,
    (sequence.move m).move m' = sequence.move (m.andThen m')
  | ⟨statements⟩ => congrArg Sequence.mk (moveStatements_andThen m m' statements)

theorem moveBody_andThen (m m' : Move) : ∀ body : Option Sequence,
    moveBody m' (moveBody m body) = moveBody (m.andThen m') body
  | none => rfl
  | some body => congrArg some (Sequence.move_andThen m m' body)

end

/-- A script that has been moved is as empty as it was. -/
theorem statements_ne_nil {m : Move} {body body' : Sequence} (h : body'.move m = body.move m)
    (hne : body.statements ≠ []) : body'.statements ≠ [] := by
  obtain ⟨statements⟩ := body
  obtain ⟨statements'⟩ := body'
  rintro rfl
  cases statements with
  | nil => exact hne rfl
  | cons statement statements => cases Sequence.mk.inj h

/-- The script without its places. -/
def Sequence.unplaced (sequence : Sequence) : Sequence := sequence.move .away

/-- Without its places a script is the same wherever it stands. -/
theorem Sequence.unplaced_move (m : Move) (sequence : Sequence) :
    (sequence.move m).unplaced = sequence.unplaced := sequence.move_andThen m .away

end Shell
