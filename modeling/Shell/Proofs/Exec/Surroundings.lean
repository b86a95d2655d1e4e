/-
What stands around code that runs.

Code runs inside a sequence of which a rest is still to run, inside an and-or list, inside the
condition of a choice, inside a round of a loop, or while variables are set for a command. A
`Surrounding` is one of these at some moment of a run: with what is left of the sequence, of the list
or of the rounds. `put` puts code there, and the equations of the second section (`Surrounding.Frames`) say that all
constructs run their parts in this way. What is not a surrounding is a call, a fork or a pipeline of
more stages: no signal comes through them.

A signal is handed from the innermost surrounding outwards. Everything but a loop passes it on as
it is, without running anything (`put_broken`). So `break` leaves the code after the loop that it is
meant for as the next to run (`plug_broken`), whatever stands between the loops.
-/
import Shell.Proofs.Exec.Commands

set_option autoImplicit false

namespace Shell

open Execution

/-- A construct with a part of it running. -/
inductive Surrounding where
  /-- A sequence, with the and-or lists after the one that runs. -/
  | sequence (one : AndOrList → Exec Outcome) (rest : List AndOrList)
  /-- An and-or list, with the pipelines after the one that runs. -/
  | list (run : Runner) (rest : List Joined)
  /-- A pipeline of one command. -/
  | pipeline (negated : Bool)
  /-- A choice of which a condition runs. -/
  | choice (run : Runner) (body : Sequence) (branches : List Branch) (otherwise : Option Sequence)
  /-- A command with variables set for its time. -/
  | temporary (saved : List Restore)
  /-- A loop of which the condition runs, with the rounds that may follow and the status so far. -/
  | condition (run : Runner) (kind : LoopKind) (condition body : Sequence) (left status : Nat)
  /-- A loop of which the body runs. -/
  | body (run : Runner) (kind : LoopKind) (condition body : Sequence) (left : Nat)
  /-- A loop over words, with the words that follow. -/
  | each (run : Runner) (name : String) (body : Sequence) (words : List String) (left : Nat)

namespace Surrounding

/-! ## 1. Code in its surroundings

One surrounding for each place of a construct where code may stand. `resume` says what the construct does with the
outcome of that code, signals included. -/

/-- The surroundings that a signal may be meant for. -/
def isLoop : Surrounding → Bool
  | condition .. | body .. | each .. => true
  | _ => false

/-- How a surrounding changes the state when it is left. -/
def leave : Surrounding → State → State
  | temporary saved, s => { s with env := s.env.restoreTemporary saved }
  | condition .., s | body .., s | each .., s => { s with loopDepth := s.loopDepth - 1 }
  | _, s => s

/-- What a loop does with the outcome of its body, where `again` goes on with the next round after
a status. -/
def afterBody (again : Nat → Exec Outcome) (outcome : Outcome) : Exec Outcome :=
  match Reaction.ofOutcome outcome with
  | .pass outcome => return outcome
  | .stop => return .status 0
  | .next => again 0
  | .status code => again code

/-- What a surrounding does with the outcome of the code in it. -/
def resume : Surrounding → Outcome → Exec Outcome
  | sequence one rest, outcome =>
    match outcome with
    | .status status => statements one status rest
    | signal => return signal
  | list run rest, outcome => joined run outcome rest
  | pipeline negated, outcome => record negated outcome
  | choice run chosen branches otherwise, outcome =>
    match outcome with
    | .status 0 => run chosen
    | .status _ => choose run otherwise branches
    | signal => return signal
  | temporary _, outcome => return outcome
  | condition run kind test round left status, outcome =>
    match Reaction.ofOutcome outcome with
    | .pass outcome => return outcome
    | .stop => return .status status
    | .next => rounds run kind test round left status
    | .status code =>
      if goesOn kind code then run round >>= afterBody (rounds run kind test round left)
      else return .status status
  | body run kind test round left, outcome => afterBody (rounds run kind test round left) outcome
  | each run name round words left, outcome => afterBody (roundsOver run name round words left) outcome

/-- The aborts that a surrounding makes an outcome of: `exit` after `!`. -/
def catching : Surrounding → Exec Outcome → Exec Outcome
  | pipeline negated, x => x.handle fun
    | .exit status => if negated then return .status status else Exec.abort (.exit status)
    | a => Exec.abort a
  | _, x => x

/-- Code in a surrounding, which is left in the end however the code ends. -/
def put (f : Surrounding) (x : Exec Outcome) : Exec Outcome :=
  (f.catching x >>= f.resume).ensure f.leave

/-- Code in its surroundings, the innermost first. -/
def plug (fs : List Surrounding) (x : Exec Outcome) : Exec Outcome :=
  fs.foldl (fun x f => f.put x) x

/-! ## 2. Constructs are surroundings of their parts -/

variable (run : Runner)

/-- A statement runs with the others after it. -/
theorem statements_eq_put (one : AndOrList → Exec Outcome) (status : Nat) (l : AndOrList)
    (rest : List AndOrList) :
    statements one status (l :: rest) = (sequence one rest).put (one l) :=
  congrArg (one l >>= ·) (funext fun outcome => by cases outcome <;> rfl)

/-- The first pipeline of a list runs with the joined ones after it. -/
theorem andOr_eq_put (l : AndOrList) :
    andOr run l = (list run l.rest).put (Execution.pipeline run l.first) := rfl

/-- So does each joined pipeline that is run. -/
theorem joined_eq_put {status : Nat} {next : Joined} (rest : List Joined)
    (h : isTaken next.connective status = true) :
    joined run (.status status) (next :: rest) =
      (list run rest).put (Execution.pipeline run next.pipeline) := by
  show (if isTaken next.connective status = true then _ else _) = _
  rw [if_pos h]
  rfl

/-- A command that is a pipeline by itself runs inside of it. -/
theorem pipeline_eq_put {p : Pipeline} (h : p.rest.isEmpty = true) :
    Execution.pipeline run p = (pipeline p.negated).put (command run p.first) :=
  pipeline_of_isEmpty h

/-- A condition runs with the branches after it. -/
theorem choose_eq_put (otherwise : Option Sequence) (branch : Branch) (branches : List Branch) :
    choose run otherwise (branch :: branches) =
      (choice run branch.body branches otherwise).put (run branch.condition) :=
  congrArg (run branch.condition >>= ·)
    (funext fun outcome => by cases outcome with
      | status code => cases code <;> rfl
      | returned | broken | continued => rfl)

/-- A command runs while variables are set for it. -/
theorem withTemporary_eq_put (values : List (String × String)) (x : Exec Outcome) :
    withTemporary values x = (do
      let (env, saved) := (← Exec.env).applyTemporary values
      Exec.modifyEnv fun _ => env
      (temporary saved).put x) := by
  have hput (saved : List Restore) : (temporary saved).put x =
      x.ensure fun s => { s with env := s.env.restoreTemporary saved } :=
    congrArg (Exec.ensure · (temporary saved).leave) (Exec.bind_pure x)
  simp only [withTemporary, hput]

/-- What begins a loop. -/
def enterLoop (s : State) : State := { s with loopDepth := s.loopDepth + 1 }

/-- What ends a loop. -/
def leaveLoop (s : State) : State := { s with loopDepth := s.loopDepth - 1 }

/-- The condition of a round runs inside of the loop. -/
theorem rounds_eq_put (kind : LoopKind) (c b : Sequence) (left status : Nat) :
    (rounds run kind c b (left + 1) status).ensure leaveLoop =
      (condition run kind c b left status).put (run c) := by
  refine congrArg (fun f => (run c >>= f).ensure leaveLoop) (funext fun outcome => ?_)
  simp only [resume]
  cases Reaction.ofOutcome outcome <;> rfl

/-- The body of a loop runs when the condition allows. -/
theorem condition_resume_eq_put {kind : LoopKind} {code : Nat} (c b : Sequence) (left status : Nat)
    (h : goesOn kind code = true) :
    ((condition run kind c b left status).resume (.status code)).ensure leaveLoop =
      (body run kind c b left).put (run b) := by
  show Exec.ensure (if goesOn kind code = true then _ else _) leaveLoop = _
  rw [if_pos h]
  rfl

/-- The body of a round runs inside of the loop. -/
theorem roundsOver_eq_put (name word : String) (words : List String) (b : Sequence)
    (left status : Nat) :
    (roundsOver run name b (word :: words) (left + 1) status).ensure leaveLoop = (do
      Exec.modifyEnv fun env => env.set name word
      (each run name b words left).put (run b)) := by
  rfl

/-- Whatever the executor does with the runner `run`, it runs the parts of constructs in these surroundings. So what is
said of code in its surroundings is said of the constructs themselves. -/
structure Frames (run : Runner) : Prop where
  statements : ∀ one status l rest, Execution.statements one status (l :: rest) = (sequence one rest).put (one l)
  andOr : ∀ l, Execution.andOr run l = (list run l.rest).put (Execution.pipeline run l.first)
  joined : ∀ (status : Nat) (next : Joined) rest, isTaken next.connective status = true →
    Execution.joined run (.status status) (next :: rest) =
      (list run rest).put (Execution.pipeline run next.pipeline)
  pipeline : ∀ p : Pipeline, p.rest.isEmpty = true →
    Execution.pipeline run p = (Surrounding.pipeline p.negated).put (command run p.first)
  choose : ∀ otherwise branch branches, Execution.choose run otherwise (branch :: branches) =
    (choice run branch.body branches otherwise).put (run branch.condition)
  temporary : ∀ values x, withTemporary values x = (do
    let (env, saved) := (← Exec.env).applyTemporary values
    Exec.modifyEnv fun _ => env
    (Surrounding.temporary saved).put x)
  /-- A loop runs its rounds and is left in the end. -/
  inLoop : ∀ x : Exec Outcome, Execution.inLoop x = (do
    Exec.modify enterLoop
    x.ensure leaveLoop)
  /-- A round runs the condition, from which the loop is left if there is no further round. -/
  rounds : ∀ kind test round left status,
    (Execution.rounds run kind test round (left + 1) status).ensure leaveLoop =
      (condition run kind test round left status).put (run test)
  /-- It runs the body if the condition allows. -/
  body : ∀ kind code test round left status, goesOn kind code = true →
    ((condition run kind test round left status).resume (.status code)).ensure leaveLoop =
      (Surrounding.body run kind test round left).put (run round)
  roundsOver : ∀ name word words round left status,
    (Execution.roundsOver run name round (word :: words) (left + 1) status).ensure leaveLoop = (do
      Exec.modifyEnv fun env => env.set name word
      (each run name round words left).put (run round))

theorem frames : Frames run where
  statements := statements_eq_put
  andOr := andOr_eq_put run
  joined _ _ rest h := joined_eq_put run rest h
  pipeline _ h := pipeline_eq_put run h
  choose := choose_eq_put run
  temporary := withTemporary_eq_put
  inLoop _ := rfl
  rounds kind test round left status := rounds_eq_put run kind test round left status
  body _ _ test round left status h := condition_resume_eq_put run test round left status h
  roundsOver name word words round left status := roundsOver_eq_put run name word words round left status

/-! ## 3. Signals on their way

A surrounding that is not a loop gives the signal to the next one, and a loop takes one level off it or ends. The
rest of the construct does not run in either case. -/

variable {c : Context} {s : State}

/-- How many of the surroundings are loops. -/
def loops (fs : List Surrounding) : Nat := fs.countP isLoop

/-- The state after surroundings have been left, the innermost first. -/
def leaveAll (fs : List Surrounding) (s : State) : State := fs.foldl (fun s f => f.leave s) s

/-- The status of a loop that `break` ends: in its condition the last round counts, and the body it
ends with success. -/
def endStatus : Surrounding → Nat
  | condition _ _ _ _ _ status => status
  | _ => 0

/-- What is not a loop passes `break` on, and runs nothing. -/
theorem put_broken {f : Surrounding} (h : f.isLoop = false) (levels : Nat) :
    f.put (return .broken levels) c s = (return .broken levels : Exec Outcome) c (f.leave s) := by
  cases f with
  | list run rest => cases rest <;> rfl
  | sequence | pipeline | choice | temporary => rfl
  | condition | body | each => cases h

/-- A loop passes `break` on for one level less. -/
theorem put_broken_succ {f : Surrounding} (h : f.isLoop = true) {levels : Nat} (hl : 1 ≤ levels) :
    f.put (return .broken (levels + 1)) c s =
      (return .broken levels : Exec Outcome) c (f.leave s) := by
  obtain ⟨levels, rfl⟩ := Nat.exists_eq_add_of_le' hl
  cases f with
  | sequence | list | pipeline | choice | temporary => cases h
  | condition | body | each => rfl

/-- `break` for one level ends a loop. -/
theorem put_broken_one {f : Surrounding} (h : f.isLoop = true) :
    f.put (return .broken 1) c s = (return .status f.endStatus : Exec Outcome) c (f.leave s) := by
  cases f with
  | sequence | list | pipeline | choice | temporary => cases h
  | condition | body | each => rfl

/-- Code that does the same in a context and a state does the same in its surroundings. -/
theorem plug_congr {x y : Exec Outcome} {s' : State} (fs : List Surrounding)
    (h : x c s = y c s') : plug fs x c s = plug fs y c s' := by
  induction fs generalizing x y with
  | nil => exact h
  | cons f fs ih =>
    refine ih (funext fun next => ?_)
    -- Every surrounding runs the code first, and with what follows it alone.
    cases f <;> exact congrFun h _

/-- The innermost surrounding comes first. -/
theorem plug_cons (f : Surrounding) (fs : List Surrounding) (x : Exec Outcome) :
    plug (f :: fs) x = plug fs (f.put x) := rfl

/-- And it is left first. -/
theorem leaveAll_cons (f : Surrounding) (fs : List Surrounding) (s : State) :
    leaveAll (f :: fs) s = leaveAll fs (f.leave s) := rfl

/-- A loop is one loop more. -/
theorem loops_cons_of_isLoop {f : Surrounding} (h : f.isLoop = true) (fs : List Surrounding) :
    loops (f :: fs) = loops fs + 1 :=
  List.countP_cons_of_pos h

/-- Nothing else is. -/
theorem loops_cons_of_not_isLoop {f : Surrounding} (h : f.isLoop = false)
    (fs : List Surrounding) : loops (f :: fs) = loops fs :=
  List.countP_cons_of_neg (by simp [h])

/-- With loops one leaves as many levels, and with everything else none. -/
theorem loopDepth_leaveAll (fs : List Surrounding) (s : State) :
    (leaveAll fs s).loopDepth = s.loopDepth - loops fs := by
  induction fs generalizing s with
  | nil => rfl
  | cons f fs ih =>
    rw [leaveAll_cons, ih]
    -- Only a loop is counted, and leaving it takes one off.
    cases hf : f.isLoop with
    | true =>
      have hleave : (f.leave s).loopDepth = s.loopDepth - 1 := by
        cases f with
        | sequence | list | pipeline | choice | temporary => cases hf
        | condition | body | each => rfl
      rw [hleave, loops_cons_of_isLoop hf]
      omega
    | false =>
      have hleave : (f.leave s).loopDepth = s.loopDepth := by
        cases f with
        | sequence | list | pipeline | choice | temporary => rfl
        | condition | body | each => cases hf
      rw [hleave, loops_cons_of_not_isLoop hf]

/-- **`break` ends as many loops as it has levels**, the innermost ones, and what runs next is what
stands around the last of them. The induction follows the signal outwards. -/
theorem plug_broken (fs : List Surrounding) {levels : Nat} (hone : 1 ≤ levels)
    (hle : levels ≤ loops fs) (s : State) :
    ∃ inner loop outer, fs = inner ++ loop :: outer ∧ loop.isLoop = true ∧
      loops inner + 1 = levels ∧
      plug fs (return .broken levels) c s =
        plug outer (return .status loop.endStatus) c (leaveAll (inner ++ [loop]) s) := by
  -- From the inside to the outside. What is no loop passes the signal on as it is, and each loop takes one level
  -- from it.
  induction fs generalizing levels s with
  | nil => exact absurd hle (by simp only [loops, List.countP_nil]; omega)
  | cons f fs ih =>
    cases hf : f.isLoop with
    | false =>
      rw [loops_cons_of_not_isLoop hf] at hle
      obtain ⟨inner, loop, outer, rfl, hloop, hcount, hplug⟩ := ih hone hle (f.leave s)
      refine ⟨f :: inner, loop, outer, rfl, hloop, ?_, ?_⟩
      · rw [loops_cons_of_not_isLoop hf, hcount]
      · rw [plug_cons, plug_congr _ (put_broken hf levels), hplug]
        rfl
    | true =>
      -- The last level ends this loop; with more than one the signal goes on outside of it.
      obtain rfl | hmore := Nat.eq_or_lt_of_le hone
      · exact ⟨[], f, fs, rfl, hf, rfl, plug_congr fs (put_broken_one hf)⟩
      · obtain ⟨more, rfl⟩ := Nat.exists_eq_add_of_le' hmore
        rw [loops_cons_of_isLoop hf] at hle
        obtain ⟨inner, loop, outer, rfl, hloop, hcount, hplug⟩ :=
          ih (by omega : 1 ≤ more + 1) (by omega) (f.leave s)
        refine ⟨f :: inner, loop, outer, rfl, hloop, ?_, ?_⟩
        · rw [loops_cons_of_isLoop hf, hcount]
        · rw [plug_cons, plug_congr _ (put_broken_succ hf (by omega)), hplug]
          rfl

/-- `break` for more loops than there are ends them all and goes on outwards. -/
theorem plug_broken_of_lt (fs : List Surrounding) {levels : Nat} (h : loops fs < levels)
    (s : State) :
    plug fs (return .broken levels) c s =
      (return .broken (levels - loops fs) : Exec Outcome) c (leaveAll fs s) := by
  -- The same way, but the levels are more than the loops, so the signal comes out.
  induction fs generalizing levels s with
  | nil => rfl
  | cons f fs ih =>
    cases hf : f.isLoop with
    | false =>
      rw [loops_cons_of_not_isLoop hf] at h ⊢
      rw [plug_cons, plug_congr _ (put_broken hf levels), ih h, leaveAll_cons]
    | true =>
      rw [loops_cons_of_isLoop hf] at h ⊢
      obtain ⟨more, rfl⟩ := Nat.exists_eq_add_of_le' (Nat.zero_lt_of_lt h)
      rw [plug_cons, plug_congr _ (put_broken_succ hf (by omega)), ih (by omega), leaveAll_cons,
        Nat.add_sub_add_right]

end Surrounding

end Shell
