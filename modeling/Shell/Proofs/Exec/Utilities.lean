/-
What a run keeps by itself, and proper utilities.

A comparison that ignores its second run says something of the first one alone. `Comparison.ends` is one:
its jobs go together if all ends of the first are of a kind. So all that the modules before this one say
about two runs holds of one, and what comes of it here is what code ensures (`Exec.Ensures`): every
node of a script keeps the depth that it runs at, its signals are for what is around, and what stops it may
stop it (`Node.keeps_exec`).

The one thing that is asked of the utilities is that they come back with a reply, unless something stops
them that may (`Utility.Sound`). A utility reads its own input, writes to its own two outputs, and copies the
one to the other. When a write is refused it may do something else, and in the end it has a reply or has been
stopped. `Makes` says so of an action, and a utility of which all actions are so made is proper. Whatever relation
between jobs is kept by these few operations is kept by a proper utility (`Makes.together`). So it is sound, which
says that nothing else can stop it. The standard utilities are proper: besides a refused write there is
one thing that stops `cat`, the name of a file that no file can have.
-/
import Shell.Proofs.Exec.Commands
import Shell.Utility

set_option autoImplicit false

namespace Shell

/-! ## 1. Sound utilities

The executor calls utilities through a table that anybody may fill. What is proved of runs asks of them only that
they come back with a reply unless something stops them that may. -/

/-- An action of a utility that nothing stops but what may stop the utility. -/
def Invocation.Allows {α : Type} (call : Invocation) (limits : Limits) (x : Action Ending α) :
    Prop :=
  x.Ensures limits fun
    | .ok _ => True
    | .error abort => call.Stops abort

/-- A utility comes back with a reply, unless something stops it that may. -/
def Utility.Sound (utility : Utility) (limits : Limits) : Prop :=
  ∀ call : Invocation, call.Allows limits (utility call)

/-- All utilities that code in a context can start are sound. -/
def Context.Sound (c : Context) : Prop :=
  ∀ name utility, c.spawner.find? name = some utility → utility.Sound c.limits

/-- What can be started does not depend on the streams. -/
theorem Context.Sound.congr {c : Context} (hc : c.Sound) {c' : Context}
    (hlimits : c'.limits = c.limits) (hspawner : c'.spawner = c.spawner) : c'.Sound := by
  intro name utility h
  rw [hspawner] at h
  rw [hlimits]
  exact hc name utility h

/-- Code that is run by a sound runner keeps its depth, and its signals are for what is around. -/
def Runner.Sound (run : Runner) : Prop :=
  ∀ c d body, c.Sound → (run body).Keeps c d c.Stops (Outcome.Fits d)

/-! ## 2. A run and its ends

A comparison in which the second run is not looked at is a statement about the first one. So the rules for two runs
are rules for the ends of one as well. -/

/-- Whatever the stages of pipelines come to, as long as that is in `S`, a utility comes back with a reply,
unless something stops it that may. -/
def Utility.SoundFor (S : Except Abort Ending → Prop) (utility : Utility) : Prop :=
  ∀ (call : Invocation) (next : Except Abort Reply → Job Ending) (R : Except Abort Ending → Prop),
    (∀ reply, (next (.ok reply)).Ends S R) →
    (∀ abort, call.Stops abort → (next (.error abort)).Ends S R) → (utility call next).Ends S R

/-- The ends of the jobs that code becomes: a comparison that ignores the second run. -/
def Comparison.ends (limits : Limits) (good : Nat → Prop) (byte : ∀ n < 256, good n) : Comparison where
  limits := limits
  limits' := limits
  lenient := False
  counting := False
  good := good
  Deep _ := True
  Sound c := c.limits = limits ∧ ∀ name utility, c.spawner.find? name = some utility →
    utility.SoundFor (StageResult limits good)
  Task := Except Abort Ending → Prop
  Serves _ _ := True
  stage _ _ := StageResult limits good
  Together R _ job _ := job.Ends (StageResult limits good) R
  below := ⟨Int.le_refl _, Int.le_refl _, Int.le_refl _, rfl⟩
  strict := limits.same False
  byte := byte
  deep_loop := id
  deep_fork _ := id
  deep_call _ hd _ := hd
  limits_eq := And.left
  sound_streams _ _ := id
  sound_capturing _ := id
  serves_capturing _ := id
  serves_stage _ _ := id
  mono _ := id
  read _ := .read
  write _ _ h hr := .write h hr
  count h := .count fun n => h n False.elim
  openSink := .openSink
  sinkText := .sinkText
  utility hc _ hf _ _ _ h hr := hc.2 _ _ hf _ _ _ h hr
  pipeline _ _ _ hs h _ := .pipeline hs h
  finish := .finish
  fail := .fail
  pardon := False.elim

/-- Whatever follows code need only deal with the results and states of `Q`, if all stages end in one of
the ways `S`. -/
def Exec.EnsuresFor {α : Type} (S : Except Abort Ending → Prop) (x : Exec α) (c : Context) (s : State)
    (Q : Except Abort α → State → Prop) : Prop :=
  ∀ (next : Except Abort α → State → Job Ending) (R : Except Abort Ending → Prop),
    (∀ r s', Q r s' → (next r s').Ends S R) → (x c s next).Ends S R

/-- What all statuses are like if nothing is known of them. -/
theorem stageResult_anyhow (limits : Limits) : StageResult limits (fun _ => True) = StageEnd limits :=
  funext fun _ => propext ⟨And.left, fun h => ⟨h, fun _ _ _ _ => trivial⟩⟩

section

variable {c : Context} {d : Depth} {E : Abort → Prop} {α : Type} {V : α → Prop} {x x' : Exec α}
  {s : State} {k : Nat}

/-- Related code keeps its depth, and what happens to the environments around it is that arithmetic
assigns there. -/
theorem Comparison.Related.ensuresFor {good : Nat → Prop} {byte : ∀ n < 256, good n}
    (h : (ends c.limits good byte).Related k c d E V x x') (hc : (ends c.limits good byte).Sound c)
    (hs : (ends c.limits good byte).At d s) :
    x.EnsuresFor (StageResult c.limits good) c s fun r s' =>
      (ends c.limits good byte).At d s' ∧ (ends c.limits good byte).Meets E V r ∧
        ∃ log, x.Assigns c s log r s' :=
  fun next R hn => h hc trivial R s k next next trivial hs (Nat.le_refl k)
    (fun r s' log hs' hr hx => hn r s' ⟨hs', hr, log, hx⟩) False.elim

/-- A comparison that says of a run that it ends, and nothing of its statuses. -/
abbrev Comparison.anyEnds (limits : Limits) : Comparison := ends limits (fun _ => True) fun _ _ => trivial

/-- In a sound context, the comparison that allows any ends is one that holds. -/
theorem Context.Sound.anyEnds (hc : c.Sound) : (Comparison.anyEnds c.limits).Sound c := by
  refine ⟨rfl, fun name utility hf call next R h hr => ?_⟩
  rw [stageResult_anyhow] at h hr ⊢
  refine hc name utility hf call next R fun r hok => ?_
  cases r with
  | ok reply => exact h reply
  | error abort => exact hr abort hok

/-- Each state is at its own depth. -/
theorem State.at_depth (s : State) (limits : Limits) : (Comparison.anyEnds limits).At s.depth s :=
  ⟨rfl, trivial, fun _ _ => trivial, fun _ _ => trivial⟩

/-- **From a comparison to one run**: code that is related to itself ensures that its depth is kept, that its
results are of the kinds, and that there is a list of what arithmetic has assigned around it. -/
theorem Comparison.Related.ensures (h : (anyEnds c.limits).Related k c s.depth E V x x')
    (hc : c.Sound) :
    x.Ensures c s fun r s' => s'.depth = s.depth ∧ (anyEnds c.limits).Meets E V r ∧
      ∃ log, x.Assigns c s log r s' := by
  intro next R hn
  have hends := h.ensuresFor hc.anyEnds (s.at_depth _) next R
  rw [stageResult_anyhow] at hends
  exact hends fun r s' hr => hn r s' ⟨hr.1.depth, hr.2⟩

/-- Of these, that the depth is kept. -/
theorem Comparison.Related.keeps (h : (anyEnds c.limits).Related k c d E V x x') (hc : c.Sound) :
    x.Keeps c d E V := by
  rintro s rfl
  refine (h.ensures hc).mono fun r s' hr => ?_
  cases r with
  | ok a => exact ⟨hr.1, hr.2.1⟩
  | error abort => exact ⟨hr.1, hr.2.1.1⟩

end

/-! ## 3. Sequences and nodes

Sequences take one from a budget at each list, and the induction is on the budget. For the nodes of a script nothing
but their sequences is left open then. -/

namespace Execution

/-- Sequences of any budget are sound runners. -/
theorem sound_sequence (budget : Nat) : Runner.Sound (sequence budget) :=
  fun c d body hc =>
    ((runs_self (K := .anyEnds c.limits) (k := 0) budget c d body).keeps hc).mono (fun _ ha => ha)
      fun _ ho => ho.1

/-- The budget of a whole script depends on the limit alone. -/
theorem sound_run : Runner.Sound run :=
  fun c d body hc => Exec.keeps_context.bind fun _ hc' => by
    subst hc'
    exact sound_sequence _ _ d body hc

end Execution

/-- A part of a script that comes to an outcome when it runs. -/
inductive Node where
  | sequence (body : Sequence)
  | list (l : AndOrList)
  | pipeline (p : Pipeline)
  | command (c : Command)

/-- Runs a node with a budget of and-or lists that can be inside each other. -/
def Node.exec (budget : Nat) : Node → Exec Outcome
  | .sequence body => Execution.sequence budget body
  | .list l => Execution.andOr (Execution.sequence budget) l
  | .pipeline p => Execution.pipeline (Execution.sequence budget) p
  | .command c => Execution.command (Execution.sequence budget) c

/-- **Two runs of a node go together.** -/
theorem Node.comes {K : Comparison} {k : Nat} {c : Context} {d : Depth} (budget : Nat) (node : Node) :
    K.Comes k c d (node.exec budget) (node.exec budget) := by
  have hrun := Execution.runs_self (K := K) (k := k) budget
  cases node with
  | sequence body => exact hrun c d body
  | list l => exact Execution.related_andOr hrun l
  | pipeline p => exact Execution.related_pipeline hrun p
  | command inner => exact Execution.related_command hrun inner

/-- **Every node keeps the depth that it runs at**, and its signals are for what is around it. -/
theorem Node.keeps_exec {c : Context} (hc : c.Sound) (d : Depth) (budget : Nat) (node : Node) :
    (node.exec budget).Keeps c d c.Stops (Outcome.Fits d) :=
  (Comparison.Related.keeps (k := 0) (node.comes budget) hc).mono (fun _ ha => ha) fun _ ho => ho.1

/-! ## 4. What a utility does

`Makes` lists the operations that a utility may be made of. A relation that the operations keep is kept by all such
utilities, without a look at any of them. -/

/-- An action that goes on with another one when it is stopped. -/
def Action.recover {ρ α : Type} (x : Action ρ α) (f : Abort → Action ρ α) : Action ρ α := fun next =>
  x fun
    | .ok a => next (.ok a)
    | .error abort => f abort next

/-- An action that is made of what a utility may do that is started with `call`. -/
inductive Invocation.Makes (call : Invocation) : {α : Type} → Action Ending α → Prop where
  | pure {α : Type} (a : α) : Makes call (Pure.pure a : Action Ending α)
  | bind {α β : Type} {x : Action Ending α} {f : α → Action Ending β} (hx : Makes call x)
      (hf : ∀ a, Makes call (f a)) : Makes call (x >>= f)
  | recover {α : Type} {x : Action Ending α} {f : Abort → Action Ending α} (hx : Makes call x)
      (hf : ∀ abort, call.Stops abort → Makes call (f abort)) : Makes call (x.recover f)
  | abort {α : Type} {abort : Abort} (h : call.Stops abort) :
      Makes call (Action.abort abort : Action Ending α)
  | read (request : Request) : Makes call (Action.read call.input request)
  | write {output : Output} (text : String) (h : output = call.output ∨ output = call.errors) :
      Makes call (Action.write output text)
  | copy : Makes call (Action.copy call.input call.output)
  | copyNumbered (number : Nat) : Makes call (Action.copyNumbered call.input call.output number)

/-- A utility does nothing but what utilities may do. -/
def Utility.Proper (utility : Utility) : Prop := ∀ call : Invocation, call.Makes (utility call)

/-- All utilities that code in a context can start are proper. -/
def Context.Proper (c : Context) : Prop :=
  ∀ name utility, c.spawner.find? name = some utility → utility.Proper

namespace Invocation

variable {call : Invocation}

/-- A relation between jobs that is kept by the operations on the streams of a utility. -/
structure Serves (call : Invocation) (T : Job Ending → Job Ending → Prop) : Prop where
  read : ∀ wanted next next', (∀ text, T (next text) (next' text)) →
    T (.read call.input wanted next) (.read call.input wanted next')
  write : ∀ output text next next', output = call.output ∨ output = call.errors →
    T (next none) (next' none) →
    (∀ abort, output.Refuses abort → T (next (some abort)) (next' (some abort))) →
    T (.write output text next) (.write output text next')
  copy : ∀ wanted number next next', (∀ last, T (next (.ok last)) (next' (.ok last))) →
    (∀ abort, call.output.Refuses abort → T (next (.error abort)) (next' (.error abort))) →
    T (.copy call.input call.output wanted number next)
      (.copy call.input call.output wanted number next')

/-- **What the operations keep the utility keeps.** -/
theorem Makes.together {α : Type} {x : Action Ending α} (h : call.Makes x)
    {T : Job Ending → Job Ending → Prop} (ht : call.Serves T)
    (next next' : Except Abort α → Job Ending) (hn : ∀ a, T (next (.ok a)) (next' (.ok a)))
    (hr : ∀ abort, call.Stops abort → T (next (.error abort)) (next' (.error abort))) :
    T (x next) (x next') := by
  -- A command is built from a few requests. What the two jobs do is the same after each.
  induction h with
  | pure a => exact hn a
  | bind _ _ ihx ihf => exact ihx _ _ (fun a => ihf a next next' hn hr) hr
  | recover _ _ ihx ihf => exact ihx _ _ hn fun abort ha => ihf abort ha next next' hn hr
  | abort h => exact hr _ h
  | read request => exact ht.read _ _ _ hn
  | @write output text ho =>
    refine ht.write _ _ _ _ ho (hn ()) fun abort ha => hr abort ?_
    rcases ho with rfl | rfl
    · exact .inl ha
    · exact .inr (.inl ha)
  | copy => exact ht.copy _ _ _ _ (fun _ => hn ()) fun abort ha => hr abort (.inl ha)
  | copyNumbered number => exact ht.copy _ _ _ _ (fun _ => hn _) fun abort ha => hr abort (.inl ha)

/-- Both branches are made of these operations. -/
theorem makes_ite {α : Type} {p : Prop} [Decidable p] {x y : Action Ending α} (hx : call.Makes x)
    (hy : call.Makes y) : call.Makes (if p then x else y) := by
  split
  · exact hx
  · exact hy

end Invocation

/-- A proper utility comes back with a reply whatever stages come to, unless it has been stopped. -/
theorem Utility.Proper.soundFor {utility : Utility} (h : utility.Proper)
    (S : Except Abort Ending → Prop) : utility.SoundFor S :=
  fun call next R hn hr => (h call).together (T := fun job _ => job.Ends S R)
    ⟨fun _ _ _ h => .read h, fun _ _ _ _ _ h hr => .write h hr, fun _ _ _ _ h hr => .copy h hr⟩
    next next hn hr

/-- Proper utilities are sound. -/
theorem Context.Proper.sound {c : Context} (h : c.Proper) : c.Sound := by
  intro name utility hf call next R hn
  exact (h name utility hf).soundFor _ call next R (fun reply => hn (.ok reply) trivial)
    fun abort ha => hn (.error abort) ha

/-! ## 5. The utilities

Each utility is taken apart once, into the operations that it is made of. -/

namespace Utility

open Invocation

variable {call : Invocation}

/-- `argv` writes its arguments. -/
theorem Argv.proper : Argv.utility.Proper := fun _ => .pure _

/-- `tac` reads its input, and writes lines of it. -/
theorem Tac.proper : Tac.utility.Proper := fun _ =>
  makes_ite ((Makes.read .all).bind fun _ => .pure _) (.pure _)

/-- `env` writes a listing. -/
theorem Variables.proper_env : Utility.Proper Variables.env := fun _ => makes_ite (.pure _) (.pure _)

/-- `printenv` writes one value or a listing. -/
theorem Variables.proper_printenv : Utility.Proper Variables.printenv := fun _ =>
  makes_ite (.pure _) (.pure _)

namespace Head

/-- By induction on the lines that are left. -/
theorem makes_copyLines (count : Nat) : call.Makes (copyLines call count) := by
  induction count with
  | zero => exact .pure _
  | succ count ih =>
    refine (Makes.read .line).bind fun line => ?_
    exact makes_ite (.pure _) ((Makes.write line (.inl rfl)).bind fun _ => ih)

/-- `head` copies lines, and complains of its arguments. -/
theorem proper : Head.utility.Proper := by
  intro call
  unfold Head.utility
  cases lineCount call.args with
  | error mistake => exact .pure _
  | ok count => exact (makes_copyLines count).bind fun _ => .pure _

end Head

namespace Cat

/-- By induction on the lines. -/
theorem makes_writeLines (number : Nat) (lines : List Text.Line) :
    call.Makes (writeLines call.output number lines) := by
  induction lines generalizing number with
  | nil => exact .pure _
  | cons line lines ih => exact (Makes.write _ (.inl rfl)).bind fun _ => ih _

/-- A copy of the input, with numbers or without. -/
theorem makes_copyInput (numbering : Bool) (number : Nat) :
    call.Makes (copyInput call numbering number) :=
  makes_ite (.copyNumbered number) (Makes.copy.bind fun _ => .pure _)

/-- A copy of a file, whose lines are numbered on. -/
theorem makes_copyFile (numbering : Bool) (number : Nat) (bytes : List UInt8) :
    call.Makes (copyFile call numbering number bytes) :=
  makes_ite (makes_writeLines _ _) ((Makes.write _ (.inl rfl)).bind fun _ => .pure _)

/-- The one thing that stops `cat` besides its writes is a null character in a file name. -/
theorem makes_copyAll (numbering : Bool) (number : Nat) (sources : List String) :
    call.Makes (copyAll call numbering number sources) := by
  induction sources generalizing number with
  | nil => exact .pure _
  | cons source sources ih =>
    unfold copyAll
    refine makes_ite ((makes_copyInput numbering number).bind fun _ => ih _) ?_
    cases call.files.contents source with
    | ok bytes => exact (makes_copyFile numbering number bytes).bind fun _ => ih _
    | error problem =>
      -- Sources that cannot be read are reported, and the next one follows. Only a name with a null in it stops the
      -- command.
      cases problem with
      | null => exact .abort (.inr (.inr ⟨_, rfl, by decide⟩))
      | missing | notDirectory | isDirectory | nameTooLong =>
        exact (ih number).bind fun _ => .pure _

/-- `cat` copies its sources, one after the other, and is stopped by a name that no file can have. -/
theorem proper : Cat.utility.Proper := by
  intro call
  unfold Cat.utility
  cases readArgs {} call.args with
  | error option => exact .pure _
  | ok options => exact (makes_copyAll _ _ _).bind fun _ => .pure _

end Cat

end Utility

/-! ## 6. The utilities of a shell -/

/-- What a table made of entries holds is one of them. -/
theorem Table.mem_of_get?_ofList {α : Type} {entries : List (String × α)} {key : String} {value : α}
    (h : (Table.ofList entries).get? key = some value) : (key, value) ∈ entries := by
  -- The entries are put into the table one after the other, so the table that is already there has to be any.
  have hfold (entries : List (String × α)) (t : Table α)
      (h : (entries.foldl (fun t e => t.insert e.1 e.2) t).get? key = some value) :
      (key, value) ∈ entries ∨ t.get? key = some value := by
    induction entries generalizing t with
    | nil => exact .inr h
    | cons e entries ih =>
      rcases ih _ h with hmem | hget
      · exact .inl (List.mem_cons_of_mem e hmem)
      · rw [get?_insert] at hget
        split at hget
        · next he =>
          obtain rfl := he
          obtain rfl := Option.some.inj hget
          exact .inl List.mem_cons_self
        · exact .inr hget
  exact (hfold entries ∅ h).resolve_right (by simp)

/-- The standard utilities, one after the other. -/
theorem Utility.proper_of_standard {name : String} {utility : Utility}
    (h : Utility.standard.get? name = some utility) : utility.Proper := by
  have hmem := Table.mem_of_get?_ofList h
  simp only [List.mem_cons, Prod.mk.injEq, List.not_mem_nil, or_false] at hmem
  rcases hmem with ⟨-, rfl⟩ | ⟨-, rfl⟩ | ⟨-, rfl⟩ | ⟨-, rfl⟩ | ⟨-, rfl⟩ | ⟨-, rfl⟩
  · exact Argv.proper
  · exact Cat.proper
  · exact Variables.proper_env
  · exact Head.proper
  · exact Variables.proper_printenv
  · exact Tac.proper

/-- With the standard utilities alone, all that can be started is proper. -/
theorem Context.proper_of_standard {c : Context} (h : c.spawner = [Utility.standard]) : c.Proper := by
  intro name utility hfind
  have hget : Utility.standard.get? name = some utility := by
    rw [h] at hfind
    cases hs : Utility.standard.get? name <;> simp_all [Spawner.find?]
  exact Utility.proper_of_standard hget

/-- So a shell with the standard utilities is sound. -/
theorem Context.sound_of_standard {c : Context} (h : c.spawner = [Utility.standard]) : c.Sound :=
  (proper_of_standard h).sound

end Shell
