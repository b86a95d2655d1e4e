/-
Arguments that are handed on.

A function that calls another one with `"$@"` gives it the arguments that it was called with, all of them and as they
are. So do functions that call each other so, however many there are: in every one of their frames are the
arguments of the first (`sequence_relays`), and the body of the innermost runs with them (`advance_relays`).
-/
import Shell.Proofs.Exec.Runs
import Shell.Proofs.Exec.Signals
import Shell.Proofs.Word.Arguments

set_option autoImplicit false

namespace Shell.Execution

variable {c : Context} {s : State}

/-! ## 1. One call

`"$@"` alone in a word gives one field for each positional parameter. So the fields are the name of the function and
the arguments, and running them is the call. -/

/-- A call whose status is recorded. -/
def recorded (call : Exec Nat) : Exec Outcome := do
  let status ← call
  Exec.modifyEnv fun env => { env with status := status }
  return .status status

/-- The statement of one call: it is counted, and the status of the call is recorded. -/
def calling (call : Exec Nat) : Exec Outcome := do
  countCommand
  recorded call

/-- `name "$@"` -/
def callWithAll (name : String) : Sequence := ⟨[plainStatement name [.doubleQuoted [.parameter "@"]]]⟩

/-- A call only depends on what the body comes to from the state that the call makes. -/
theorem callFunction_congr {run run' : Runner} {name : String} {body body' : Sequence} {args : List String}
    (h : ∀ next, run body c (s.enterCall ⟨args, some name⟩) next =
      run' body' c (s.enterCall ⟨args, some name⟩) next) (next : Except Abort Nat → State → Job Ending) :
    callFunction run name body args c s next = callFunction run' name body' args c s next := by
  -- Where calls are nested too deep, the body does not run at all.
  by_cases hdepth : (s.env.callDepth : Int) < c.limits.maxCallDepth
  · rw [callFunction_eq run name body args hdepth, callFunction_eq run' name body' args hdepth]
    exact h _
  · have hle : c.limits.maxCallDepth ≤ (s.env.callDepth : Int) := Int.not_lt.mp hdepth
    rw [callFunction_of_le run name body args hle, callFunction_of_le run' name body' args hle]

/-- A sequence of one statement comes to what the statement comes to. -/
theorem statements_singleton (one : AndOrList → Exec Outcome) (status : Nat) (list : AndOrList) :
    statements one status [list] = one list := by
  funext c s next
  refine congrArg (one list c s) (funext fun r => funext fun s' => ?_)
  cases r with
  | error abort => rfl
  | ok outcome => cases outcome <;> rfl

/-- To count a list changes nothing in the state that the list starts from. -/
theorem countCommand_congr {α : Type} {x y : Exec α} (h : ∀ next, x c s next = y c s next)
    (next : Except Abort α → State → Job Ending) :
    (do countCommand; x) c s next = (do countCommand; y) c s next := by
  rw [countCommand_bind, countCommand_bind]
  refine congrArg Job.count (funext fun n => ?_)
  show (if c.limits.maxCommandCount < n then tooManyCommands else x) c s next =
    (if c.limits.maxCommandCount < n then tooManyCommands else y) c s next
  split
  · rfl
  · exact h next

/-- A call that runs as another does may stand for it. -/
theorem calling_congr {call call' : Exec Nat} (h : ∀ next, call c s next = call' c s next)
    (next : Except Abort Outcome → State → Job Ending) : calling call c s next = calling call' c s next :=
  countCommand_congr (x := recorded call) (y := recorded call') (fun _ => h _) next

/-- The words of `name "$@"` are the name and the positional parameters. -/
theorem fields_callWithAll (run : Runner) (name : String) :
    Expansion.fields run [⟨1, [.literal name]⟩, ⟨1, [.doubleQuoted [.parameter "@"]]⟩] =
      (do return name :: (← Exec.env).args : Exec (List String)) := by
  have hliteral : literal? [WordPart.literal name] = some name.toList := by
    simp [literal?, WordPart.literalTexts?, WordPart.literalText?]
  have hname : Expansion.wordFields run ⟨1, [.literal name]⟩ = (pure [name] : Exec (List String)) :=
    Expansion.wordFields_of_literal? hliteral (List.cons_ne_nil _ _) run
  rw [Expansion.fields, Expansion.fields, Expansion.fields, hname]
  funext c s next
  refine (Expansion.wordFields_allArguments run 1 _).trans ?_
  show next (.ok ([name] ++ (s.env.args ++ []))) s = _
  rw [List.append_nil]
  rfl

/-- A call is what runs for fields that start with the name of a function. -/
theorem runFields_function (run : Runner) {name : String} {body : Sequence} (args : List String)
    (h : Meaning.resolve? s.env c.spawner name = some (.function body))
    (next : Except Abort Outcome → State → Job Ending) :
    runFields run (name :: args) c s next =
      (do return .status (← callFunction run name body args) : Exec Outcome) c s next := by
  have hresolve (f : Environment → Context → Exec Outcome) :
      (do f (← Exec.env) (← Exec.context)) c s next = f s.env c c s next := rfl
  rw [runFields, hresolve, h]

/-- The status of a call is recorded when the call is a list by itself. -/
theorem andOr_of_call {run : Runner} {x : Command} {call : Exec Nat}
    (h : ∀ next, command run x c s next = (do return .status (← call) : Exec Outcome) c s next)
    (next : Except Abort Outcome → State → Job Ending) :
    andOr run ⟨⟨false, x, []⟩, []⟩ c s next = recorded call c s next := by
  show command run x c s _ = _
  rw [h]
  refine congrArg (call c s) (funext fun r => funext fun s' => ?_)
  cases r with
  | error abort => cases abort <;> rfl
  | ok status => rfl

/-- **`name "$@"` calls the function with the positional parameters as they are.** -/
theorem sequence_callWithAll (budget : Nat) {name : String} {body : Sequence}
    (h : Meaning.resolve? s.env c.spawner name = some (.function body))
    (next : Except Abort Outcome → State → Job Ending) :
    sequence (budget + 1) (callWithAll name) c s next =
      calling (callFunction (sequence budget) name body s.env.args) c s next := by
  have hnamed (next : Except Abort Outcome → State → Job Ending) :
      runNamed (sequence budget) [⟨1, [.literal name]⟩, ⟨1, [.doubleQuoted [.parameter "@"]]⟩] [] c s next =
        runFields (sequence budget) (name :: s.env.args) c s next := by
    -- There is nothing to set before the command and nothing to restore after it.
    unfold runNamed
    rw [fields_callWithAll]
    rfl
  have hcommand (next : Except Abort Outcome → State → Job Ending) :
      command (sequence budget)
          (.simple 1 (some ⟨1, [.literal name]⟩) [⟨1, [.doubleQuoted [.parameter "@"]]⟩] []) c s next =
        (do return .status (← callFunction (sequence budget) name body s.env.args) : Exec Outcome) c s next :=
    (hnamed next).trans (runFields_function _ _ h next)
  -- The list has a single statement, so there is nothing to go on with.
  have hsingle : sequence (budget + 1) (callWithAll name) = (do
      countCommand
      andOr (sequence budget) (plainStatement name [.doubleQuoted [.parameter "@"]])) :=
    statements_singleton (fun list => do countCommand; andOr (sequence budget) list) 0 _
  rw [hsingle]
  exact countCommand_congr (y := recorded (callFunction (sequence budget) name body s.env.args))
    (andOr_of_call hcommand) next

/-! ## 2. Any number of calls

By induction on the functions. A call that is the only statement of a body may be replaced by any code that does the
same from every state of the call. -/

/-- Functions, the first of them `name`, each of which calls the next one with `args`; `last` is what the innermost one
does. -/
def nestedCalls (args : List String) (last : Exec Outcome) : (name : String) → List String → Exec Nat
  | name, [] => callFunction (fun _ => last) name ⟨[]⟩ args
  | name, inner :: names => callFunction (fun _ => calling (nestedCalls args last inner names)) name ⟨[]⟩ args

/-- Functions, the first of them `name`, each of which does nothing but call the next one with `"$@"`. The last one has
the body `last`. -/
def Relays (env : Environment) (spawner : Spawner) (last : Sequence) : (name : String) → List String → Prop
  | name, [] => Meaning.resolve? env spawner name = some (.function last)
  | name, inner :: names =>
    Meaning.resolve? env spawner name = some (.function (callWithAll inner)) ∧ Relays env spawner last inner names

/-- A call changes nothing in what functions do. -/
theorem Relays.enterCall {last : Sequence} {name : String} {names : List String}
    (h : Relays s.env c.spawner last name names) (frame : Frame) :
    Relays (s.enterCall frame).env c.spawner last name names := by
  induction names generalizing name with
  | nil => exact h
  | cons inner names ih => exact ⟨h.1, ih h.2⟩

/-- **Arguments that are handed on with `"$@"` stay as they are, however deep the calls are nested.** -/
theorem sequence_relays (budget : Nat) {last : Sequence} {name : String} {names : List String}
    (h : Relays s.env c.spawner last name names) (next : Except Abort Outcome → State → Job Ending) :
    sequence (budget + names.length + 1) (callWithAll name) c s next =
      calling (nestedCalls s.env.args (sequence budget last) name names) c s next := by
  induction names generalizing name s next with
  | nil =>
    rw [List.length_nil, Nat.add_zero, sequence_callWithAll budget h]
    exact calling_congr (callFunction_congr fun _ => rfl) next
  | cons inner names ih =>
    -- In the frame of the call are the arguments, and the other functions are called from there.
    rw [List.length_cons, ← Nat.add_assoc, sequence_callWithAll _ h.1]
    refine calling_congr (callFunction_congr fun next => ?_) next
    exact ih (s := s.enterCall ⟨s.env.args, some name⟩) (h.2.enterCall _) next

/-! ## 3. Where the innermost function runs

The equation of the calls says nothing of whether the last one is made. It is, if the limits leave room, and then
its frame can be looked at. -/

/-- The state in which the innermost of such functions starts, with a frame for each of them. -/
def enterCalls (args : List String) : (name : String) → List String → State → State
  | name, [], s => s.enterCall ⟨args, some name⟩
  | name, inner :: names, s => enterCalls args inner names (s.enterCall ⟨args, some name⟩)

/-- In every frame of nested calls with the same arguments are these arguments. -/
theorem args_enterCalls (args : List String) (name : String) (names : List String) (s : State) :
    (enterCalls args name names s).env.args = args := by
  induction names generalizing name s with
  | nil => rfl
  | cons inner names ih => exact ih inner (s.enterCall ⟨args, some name⟩)

/-- A call whose status is recorded starts as the call does. -/
theorem exists_recorded (call : Exec Nat) (c : Context) (s : State) (next : Except Abort Outcome → State → Job Ending) :
    ∃ next', recorded call c s next = call c s next' :=
  ⟨_, rfl⟩

/-- A call starts as its body does in the frame of the call. -/
theorem exists_callFunction (x : Exec Outcome) (name : String) (args : List String)
    (h : (s.env.callDepth : Int) < c.limits.maxCallDepth) (next : Except Abort Nat → State → Job Ending) :
    ∃ next', callFunction (fun _ => x) name ⟨[]⟩ args c s next = x c (s.enterCall ⟨args, some name⟩) next' := by
  rw [callFunction_eq (fun _ => x) name ⟨[]⟩ args h]
  exact ⟨_, rfl⟩

/-- **The innermost function does run**, if there is room for the calls and for the lists in which they stand, and its
frame has the arguments of the first. -/
theorem advance_nestedCalls (args : List String) (last : Exec Outcome) (name : String) (names : List String)
    (hdepth : (s.env.callDepth : Int) + names.length < c.limits.maxCallDepth)
    (next : Except Abort Nat → State → Job Ending) :
    ∃ next', ∀ task (w : World), (w.count : Int) + names.length ≤ c.limits.maxCommandCount →
      (nestedCalls args last name names c s next).advance task w =
        (last c (enterCalls args name names s) next').advance task { w with count := w.count + names.length } := by
  -- Each function but the last one counts the list in which it calls the next, and is one call deeper.
  induction names generalizing name s next with
  | nil =>
    obtain ⟨next', hcall⟩ := exists_callFunction last name args (by simpa using hdepth) next
    refine ⟨next', fun task w _ => ?_⟩
    rw [nestedCalls, hcall]
    rfl
  | cons inner names ih =>
    rw [List.length_cons] at hdepth ⊢
    let s' := s.enterCall ⟨args, some name⟩
    obtain ⟨after, hcall⟩ := exists_callFunction (calling (nestedCalls args last inner names)) name args
      (by omega : (s.env.callDepth : Int) < c.limits.maxCallDepth) next
    obtain ⟨next', hrecorded⟩ := exists_recorded (nestedCalls args last inner names) c s' after
    obtain ⟨next'', hrest⟩ := ih inner (s := s') (by simp only [s', State.enterCall]; omega) next'
    refine ⟨next'', fun task w hroom => ?_⟩
    -- The list that is counted is one of those there is room for.
    have hlimit : ¬ c.limits.maxCommandCount < ((w.count + 1 : Nat) : Int) := by omega
    rw [nestedCalls, hcall, calling, advance_counted, if_neg hlimit, hrecorded, hrest task _ (by push_cast; omega)]
    simp only [Nat.add_assoc, Nat.add_comm 1]
    rfl

/-- So functions that hand on their arguments run the last one with the arguments that they were given. -/
theorem advance_relays (budget : Nat) {last : Sequence} {name : String} {names : List String}
    (h : Relays s.env c.spawner last name names)
    (hdepth : (s.env.callDepth : Int) + names.length < c.limits.maxCallDepth)
    (next : Except Abort Outcome → State → Job Ending) :
    ∃ next', ∀ task (w : World), (w.count : Int) + names.length + 1 ≤ c.limits.maxCommandCount →
      (sequence (budget + names.length + 1) (callWithAll name) c s next).advance task w =
        (sequence budget last c (enterCalls s.env.args name names s) next').advance task
          { w with count := w.count + 1 + names.length } := by
  obtain ⟨next', hrecorded⟩ := exists_recorded (nestedCalls s.env.args (sequence budget last) name names) c s next
  obtain ⟨next'', hinner⟩ := advance_nestedCalls s.env.args (sequence budget last) name names hdepth next'
  refine ⟨next'', fun task w hroom => ?_⟩
  have hlimit : ¬ c.limits.maxCommandCount < ((w.count + 1 : Nat) : Int) := by omega
  rw [sequence_relays budget h, calling, advance_counted, if_neg hlimit, hrecorded,
    hinner task _ (by push_cast; omega)]

/-! ## 4. Quoted arguments -/

/-- **What is quoted passes through unchanged.** `A"$@"B` is expanded to the positional parameters as they are, with `A`
before the first and `B` behind the last; without parameters it is the field `AB`, or no field if neither is written.
So functions that hand on their arguments with `"$@"` are all called with the same ones, and the body of the last one
runs with these if there is room for the calls; and `"$x"` is one field, with the value of `x`. What separates fields
makes no difference. -/
theorem quoted_arguments (run : Runner) (c : Context) (s : State) :
    (∀ line before behind a b next, WordPart.literalTexts? before = some a → WordPart.literalTexts? behind = some b →
      Expansion.wordFields run ⟨line, before ++ .doubleQuoted [.parameter "@"] :: behind⟩ c s next =
        next (.ok (if s.env.args = [] then if before = [] ∧ behind = [] then [] else [a ++ b]
          else (s.env.args.modifyHead (a ++ ·)).modifyLast (· ++ b))) s) ∧
    (∀ budget last name names next, Relays s.env c.spawner last name names →
      sequence (budget + names.length + 1) (callWithAll name) c s next =
        calling (nestedCalls s.env.args (sequence budget last) name names) c s next ∧
      (enterCalls s.env.args name names s).env.args = s.env.args ∧
      ((s.env.callDepth : Int) + names.length < c.limits.maxCallDepth →
        ∃ next', ∀ task (w : World), (w.count : Int) + names.length + 1 ≤ c.limits.maxCommandCount →
          (sequence (budget + names.length + 1) (callWithAll name) c s next).advance task w =
            (sequence budget last c (enterCalls s.env.args name names s) next').advance task
              { w with count := w.count + 1 + names.length })) ∧
    (∀ line name next, Name.isIdentifier name.toList = true →
      Expansion.wordFields run ⟨line, [.doubleQuoted [.parameter name]]⟩ c s next =
        next (.ok [(s.env.get? name).getD ""]) s) := by
  refine ⟨?_, ?_, ?_⟩
  · intro line before behind a b next hbefore hbehind
    exact Expansion.wordFields_arguments run line hbefore hbehind next
  · intro budget last name names next h
    exact ⟨sequence_relays budget h next, args_enterCalls _ _ _ _, fun hdepth => advance_relays budget h hdepth next⟩
  · intro line name next h
    -- A name that is an identifier is neither of the two parameters that stand for the arguments.
    have hspecial : name ≠ "@" ∧ name ≠ "*" := by
      constructor <;> rintro rfl <;> exact absurd h (by decide)
    exact Expansion.wordFields_quotedParameter run line hspecial (Expansion.value?_of_isIdentifier h s.env) next

/-- Three arguments, one of them empty and one with a blank. Blanks and `c` separate fields, and `f` calls `g`, which
does nothing. -/
def spacedArguments : State where
  env :=
    { vars := ⟨[("IFS", " c"), ("x", " c ")]⟩
      functions := ⟨[("f", callWithAll "g"), ("g", ⟨[]⟩)]⟩
      frame := ⟨["a b", "", "c"], none⟩ }

/-- Two arguments, one of them with a space and one empty, between brackets in a word, through a call, and next to
the value of a variable in quotes. -/
theorem spacedArguments_passedOn :
    (∀ next, Expansion.wordFields (sequence 0) ⟨1, [.literal "(", .doubleQuoted [.parameter "@"], .literal ")"]⟩
        ({} : Session).context spacedArguments next =
      next (.ok ["(a b", "", "c)"]) spacedArguments) ∧
    (∀ next, sequence 2 (callWithAll "f") ({} : Session).context spacedArguments next =
      calling (nestedCalls ["a b", "", "c"] (sequence 0 ⟨[]⟩) "f" ["g"]) ({} : Session).context spacedArguments next) ∧
    (∀ next, Expansion.wordFields (sequence 0) ⟨1, [.doubleQuoted [.parameter "x"]]⟩ ({} : Session).context
        spacedArguments next = next (.ok [" c "]) spacedArguments) := by
  obtain ⟨hall, hcalls, hone⟩ := quoted_arguments (sequence 0) ({} : Session).context spacedArguments
  refine ⟨fun next => ?_, fun next => ?_, fun next => ?_⟩
  · exact hall 1 [.literal "("] [.literal ")"] "(" ")" next (by decide) (by decide)
  · exact (hcalls 0 ⟨[]⟩ "f" ["g"] next ⟨rfl, rfl⟩).1
  · exact hone 1 "x" next (by decide)

end Shell.Execution
