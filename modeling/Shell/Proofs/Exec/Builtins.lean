/-
Builtins.

A builtin changes variables, export marks, functions and the positional parameters of its own frame,
and none of these is part of the depth or of the last status (`Environment.standing`). What it comes to is
a byte, as only the low eight bits count of a number that it is given, and its own statuses are small.
`return`, `break` and `continue` are where signals arise: the first looks whether there is a call, and the
other two count no more loops than there are (`related_leaveFunction`, `related_signalLoops`). `eval`
runs a script, and `command` and `builtin` run what they end with.
-/
import Shell.Builtin.Run
import Shell.Proofs.Exec.Words
import Shell.Proofs.Printf.Faults

set_option autoImplicit false

namespace Shell

open Comparison

variable {K : Comparison} {k : Nat} {run run' : Runner} {c : Context} {d : Depth}

/-! ## 1. Answers and changes -/

/-- Code comes to an outcome that its depth allows, or is stopped. -/
abbrev Comparison.Comes (K : Comparison) (k : Nat) (c : Context) (d : Depth) (x x' : Exec Outcome) :
    Prop :=
  K.Related k c d c.Stops (Outcome.May K.good d) x x'

/-- A status that is allowed is one that code may come to. -/
theorem Comparison.comes_status {status : Nat} (h : K.good status) :
    K.Comes k c d (pure (.status status)) (pure (.status status)) :=
  related_pure ⟨trivial, h⟩

/-- A status that is written down is a byte. -/
theorem Comparison.comes_small (status : Nat) (h : status < 256) :
    K.Comes k c d (pure (.status status)) (pure (.status status)) :=
  comes_status (K.byte status h)

/-- An answer writes what it has to say, and then comes to its status. -/
theorem Answer.related_give (answer : Answer) (h : K.good answer.status) :
    K.Comes k c d answer.give answer.give :=
  (related_writeOutput _).bind fun _ _ => related_context <|
    (related_writeErrors _ fun _ => Context.stops_of_refuses (.inr rfl)).bind fun _ _ => comes_status h

/-- A diagnostic and a status. -/
theorem Comparison.comes_diagnosed (message : String) (status : Nat) (h : status < 256) :
    K.Comes k c d (do Exec.diagnose message; return .status status)
      (do Exec.diagnose message; return .status status) :=
  (related_diagnose message).bind fun _ _ => comes_small status h

/-- What builtins leave as it is: the calls that an environment is in, and the last status. -/
def Environment.standing (env : Environment) : (Nat × List Frame) × Nat := (env.calls, env.status)

/-- What holds of the depth and the status does if these are the same. -/
theorem Comparison.Holds.of_standing {env env' : Environment} (h : K.Holds d env)
    (he : env'.standing = env.standing) : K.Holds d env' := by
  have hstatus : env'.status = env.status := congrArg Prod.snd he
  exact ⟨(congrArg Prod.fst he).trans h.calls, by rw [hstatus]; exact h.good⟩

/-- An environment that was read is put in place of the present one with changes that leave its standing
alone. -/
theorem Comparison.related_replaceEnv {E : Abort → Prop} {env after : Environment} (h : K.Holds d env)
    (he : after.standing = env.standing) :
    K.Related k c d E (fun _ => True) (Exec.modifyEnv fun _ => after) (Exec.modifyEnv fun _ => after) :=
  related_modifyEnv fun _ _ => h.of_standing he

namespace Variables

/-- A builtin that looks at nothing but its arguments and the environment leaves the standing of the
environment alone, and answers with a byte. -/
structure Change.Keeps (change : Change) : Prop where
  standing : ∀ env args, (change env args).2.standing = env.standing
  status : ∀ env args, (change env args).1.status < 256

/-- What every operand keeps is kept by all of them. -/
theorem forEach_keeps {P : Environment → Prop} {step : Step} (h : ∀ env operand env', P env →
    step env operand = .ok env' → P env') {env : Environment} (he : P env) (operands : List String) :
    P (forEach step env operands).2 := by
  have hfold (done : List String × Environment) (hd : P done.2) : P (operands.foldl step.run done).2 := by
    induction operands generalizing done with
    | nil => exact hd
    | cons operand operands ih =>
      refine ih _ ?_
      unfold Step.run
      split
      · next env' hs => exact h _ _ env' hd hs
      · exact hd
  exact hfold ([], env) he

/-- What no operand changes is the same after all of them. -/
theorem standing_forEach {step : Step} (h : ∀ env operand env', step env operand = .ok env' →
    env'.standing = env.standing) (env : Environment) (operands : List String) :
    (forEach step env operands).2.standing = env.standing :=
  forEach_keeps (P := fun after => after.standing = env.standing)
    (fun _ _ env' hsame hs => (h _ _ env' hs).trans hsame) rfl operands

/-- Each operand gives no more than a failure. -/
theorem status_forEach (step : Step) (env : Environment) (operands : List String) :
    (forEach step env operands).1.status < 256 := by
  unfold forEach
  simp only
  split <;> decide

/-- `set` changes the positional parameters and options, and no more. -/
theorem keeps_set : Change.Keeps set where
  standing env args := by
    unfold set
    split
    · rfl
    · split
      · rfl
      · split <;> rfl
  status env args := by
    unfold set
    split
    · exact (by decide : (0 : Nat) < 256)
    · split
      · exact (by decide : (0 : Nat) < 256)
      · split
        · exact (by decide : (2 : Nat) < 256)
        · exact (by decide : (0 : Nat) < 256)

/-- Shifting the parameters is a change of the frame alone. -/
theorem standing_shiftBy (env : Environment) (count : Int) :
    (shiftBy env count).2.standing = env.standing ∧ (shiftBy env count).1.status < 256 := by
  unfold shiftBy Environment.shift?
  split
  · next h =>
    split at h
    · cases h
    · obtain rfl := Option.some.inj h
      exact ⟨rfl, (by decide : (0 : Nat) < 256)⟩
  · exact ⟨rfl, (by decide : (1 : Nat) < 256)⟩

/-- `shift` takes parameters away, or refuses. -/
theorem keeps_shift : Change.Keeps shift := by
  have hshift (env : Environment) (args : List String) :
      (shift env args).2.standing = env.standing ∧ (shift env args).1.status < 256 := by
    unfold shift
    split
    · exact standing_shiftBy env 1
    · split
      · exact standing_shiftBy env _
      · exact ⟨rfl, (by decide : (1 : Nat) < 256)⟩
    · exact ⟨rfl, (by decide : (1 : Nat) < 256)⟩
  exact ⟨fun env args => (hshift env args).1, fun env args => (hshift env args).2⟩

/-- An export mark is given or taken. -/
theorem standing_exportOne (remove : Bool) (env : Environment) (operand : ExportOperand) :
    (exportOne remove env operand).standing = env.standing := by
  unfold exportOne
  cases operand.value <;> cases remove <;> rfl

/-- `export` gives marks and values, and lists them without operands. -/
theorem keeps_exportNames : Change.Keeps exportNames where
  standing env args := by
    unfold exportNames
    split
    · rfl
    · next request _ =>
      split
      · rfl
      · refine standing_forEach (fun env operand env' h => ?_) env _
        unfold exportStep at h
        simp only at h
        split at h
        · obtain rfl := Except.ok.inj h
          exact standing_exportOne _ _ _
        · cases h
  status env args := by
    unfold exportNames
    split
    · exact (by decide : (2 : Nat) < 256)
    · split
      · exact (by decide : (0 : Nat) < 256)
      · exact status_forEach _ env _

/-- `unset` takes variables and functions away. -/
theorem keeps_unset : Change.Keeps unset where
  standing env args := by
    unfold unset
    split
    · rfl
    · next mode names _ =>
      refine standing_forEach (fun env name env' h => ?_) env names
      unfold unsetStep at h
      split at h
      · obtain rfl := Except.ok.inj h
        rfl
      · split at h
        · cases h
        · split at h
          · obtain rfl := Except.ok.inj h
            rfl
          · obtain rfl := Except.ok.inj h
            rfl
  status env args := by
    unfold unset
    split
    · exact (by decide : (2 : Nat) < 256)
    · exact status_forEach _ env _

/-- A builtin that keeps what is compared comes to the same in both runs. -/
theorem Change.Keeps.related {change : Change} (h : change.Keeps) (args : List String) :
    K.Comes k c d (Exec.change (change · args)) (Exec.change (change · args)) :=
  related_env.bind fun env he => (related_replaceEnv he (h.standing env args)).bind fun _ _ =>
    Answer.related_give _ (K.byte _ (h.status env args))

end Variables

/-! ## 2. Leaving -/

namespace Control

/-- Only eight bits count. -/
theorem byte_lt (n : Int) : byte n < 256 := by
  unfold byte
  omega

/-- The status that is given is the last one or a byte, and so is that of a refusal. -/
theorem good_readStatus (name : String) {last : Nat} (h : K.good last) (args : List String) :
    (∀ status, readStatus name last args = .ok status → K.good status) ∧
      ∀ refusal, readStatus name last args = .error refusal → K.good refusal.status := by
  unfold readStatus
  split
  · exact ⟨fun status hs => Except.ok.inj hs ▸ h, nofun⟩
  · split
    · exact ⟨fun status hs => Except.ok.inj hs ▸ K.byte _ (byte_lt _), nofun⟩
    · exact ⟨nofun, fun refusal hr => Except.error.inj hr ▸ K.byte 2 (by decide)⟩
  · exact ⟨nofun, fun refusal hr => Except.error.inj hr ▸ K.byte 1 (by decide)⟩

/-- `exit` ends with a byte, or with the last status, which is one. -/
theorem related_exit (args : List String) : K.Comes k c d (exit args) (exit args) := by
  refine related_env.bind fun env he => ?_
  have hgood := good_readStatus (K := K) "exit" he.good args
  cases hr : readStatus "exit" env.status args with
  | error refusal => exact Answer.related_give refusal (hgood.2 refusal hr)
  | ok status => exact related_abort trivial (K.byte _ (byte_lt _))

/-- `return` is a signal only where there is a call. -/
theorem related_leaveFunction (args : List String) :
    K.Comes k c d (leaveFunction args) (leaveFunction args) := by
  refine related_env.bind fun env he => ?_
  have hgood := good_readStatus (K := K) "return" he.good args
  cases hr : readStatus "return" env.status args with
  | error refusal => exact Answer.related_give refusal (hgood.2 refusal hr)
  | ok status =>
    have hstatus := hgood.1 status hr
    refine Related.ite (fun _ => Answer.related_give _ ?_) fun hpos => related_pure ⟨?_, hstatus⟩
    · show K.good (if status = 0 then 1 else status)
      split
      · exact K.byte 1 (by decide)
      · exact hstatus
    · have hcalls : env.callDepth = d.calls.1 := congrArg Prod.fst he.calls
      show 0 < d.calls.1
      omega

/-- Nobody leaves less than one loop. -/
theorem one_le_of_readLevels {name : String} {args : List String} {levels : Nat}
    (h : readLevels name args = .ok levels) : 1 ≤ levels := by
  unfold readLevels at h
  split at h
  · exact Nat.le_of_eq (Except.ok.inj h)
  · split at h
    · split at h
      · cases h
      · obtain rfl := Except.ok.inj h
        omega
    · cases h
  · cases h

/-- A number of loops that is refused is a failure. -/
theorem status_of_readLevels {name : String} {args : List String} {refusal : Answer}
    (h : readLevels name args = .error refusal) : refusal.status = 1 := by
  unfold readLevels at h
  split at h
  · cases h
  · split at h
    · split at h
      · exact Except.error.inj h ▸ rfl
      · cases h
    · exact Except.error.inj h ▸ rfl
  · exact Except.error.inj h ▸ rfl

/-- `break` and `continue` are signals for one of the loops that there are. -/
theorem related_signalLoops (name : String) {signal : Nat → Outcome} (args : List String)
    (h : ∀ levels, 1 ≤ levels → levels ≤ d.loops → (signal levels).May K.good d) :
    K.Comes k c d (signalLoops name signal args) (signalLoops name signal args) := by
  unfold signalLoops
  cases hl : readLevels name args with
  | error refusal =>
    exact Answer.related_give refusal (K.byte _ (by rw [status_of_readLevels hl]; decide))
  | ok levels =>
    refine related_get.bind fun s hs => ?_
    refine Related.ite (fun _ => Answer.related_give _ (K.byte 0 (by decide))) fun hpos => ?_
    have hloops : s.loopDepth = d.loops := congrArg Depth.loops hs.depth
    have hone := one_le_of_readLevels hl
    exact related_pure (h _ (by omega) (by omega))

end Control

/-! ## 3. What builtins answer -/

/-- Answers to several questions make a byte. -/
theorem Describe.status_join (answers : List Answer) : (Describe.join answers).status < 256 := by
  unfold Describe.join
  simp only
  split <;> decide

/-- `type` fails for a name that means nothing. -/
theorem Describe.status_typeNames (meanings : String → List Meaning) (args : List String) :
    (Describe.typeNames meanings args).status < 256 := by
  unfold Describe.typeNames
  split
  · exact (by decide : (2 : Nat) < 256)
  · exact (by decide : (1 : Nat) < 256)
  · exact status_join _

/-- What `command` and `builtin` answer themselves is small. -/
theorem Call.status_of_follow {which : Builtin} {args : List String} {answer : Answer}
    (h : Call.follow which args = .answer answer) : answer.status < 256 := by
  fun_induction Call.follow which args with
  | case1 args letter _ => exact Call.answer.inj h ▸ (by decide : (2 : Nat) < 256)
  | case2 => exact Call.answer.inj h ▸ (by decide : (0 : Nat) < 256)
  | case3 => cases h
  | case4 _ _ _ _ _ _ ih => exact ih h
  | case5 => cases h
  | case6 => exact Call.answer.inj h ▸ (by decide : (0 : Nat) < 256)
  | case7 _ _ _ _ ih => exact ih h
  | case8 => exact Call.answer.inj h ▸ (by decide : (1 : Nat) < 256)
  | case9 => cases h

/-! ## 4. The other builtins -/

namespace Builtin

/-- `test` answers from its arguments alone. -/
theorem related_runTest (name : String) (args : List String) :
    K.Comes k c d (runTest name args) (runTest name args) := by
  unfold runTest
  refine Related.ite (fun _ => comes_small 1 (by decide)) fun _ => ?_
  refine related_env.bind fun env _ => related_context ?_
  rw [Context.within_files]
  cases Test.evaluate ⟨env, c.files⟩ args with
  | ok holds => cases holds <;> exact comes_small _ (by decide)
  | error mistake => exact Answer.related_give _ (K.byte 2 (by decide))

/-- `[` is `test` with a bracket behind it. -/
theorem related_runBracket (args : List String) :
    K.Comes k c d (runBracket args) (runBracket args) :=
  Related.ite (fun _ => related_runTest _ _) fun _ => Answer.related_give _ (K.byte 2 (by decide))

/-- A line is assigned to the names that are given, or to REPLY. -/
theorem assign_keeps {P : Environment → Prop} {names : List String}
    (h : ∀ env name value, name = "REPLY" ∨ name ∈ names → P env → P (env.set name value))
    {env : Environment} (he : P env) (line : List Char) : P (Read.assign env names line) := by
  have hfold (pairs : List (String × List Char)) (hpairs : ∀ pair ∈ pairs, pair.1 ∈ names)
      (env : Environment) (he : P env) :
      P (pairs.foldl (fun env pair => env.set pair.1 (String.ofList pair.2)) env) := by
    induction pairs generalizing env with
    | nil => exact he
    | cons pair pairs ih =>
      have hname := hpairs pair List.mem_cons_self
      exact ih (fun p hp => hpairs p (List.mem_cons_of_mem _ hp)) _ (h env pair.1 _ (.inr hname) he)
  unfold Read.assign
  split
  · exact h env "REPLY" _ (.inl rfl) he
  · exact hfold _ (fun pair hpair => (List.of_mem_zip hpair).1) env he

/-- `read` sets variables. -/
theorem standing_assign (env : Environment) (names : List String) (line : List Char) :
    (Read.assign env names line).standing = env.standing :=
  assign_keeps (P := fun after => after.standing = env.standing) (fun _ _ _ _ hsame => hsame) rfl line

/-- `read` waits for a line, and sets variables from it. -/
theorem related_runRead (args : List String) : K.Comes k c d (runRead args) (runRead args) := by
  unfold runRead
  cases Read.readArgs {} args with
  | error mistake =>
    refine Answer.related_give _ (K.byte _ ?_)
    cases mistake with
    | invalidOption => exact (by decide : (2 : Nat) < 256)
    | notName => exact (by decide : (1 : Nat) < 256)
  | ok request =>
    refine related_context (related_read _ fun text => ?_)
    refine Related.bind (V := fun _ => True) (related_modifyEnv fun env he => ?_) fun _ _ => ?_
    · exact he.of_standing (standing_assign env _ _)
    · have hstatus (ended : Bool) : Read.status ended < 256 := by cases ended <;> decide
      exact comes_small _ (hstatus _)

/-- `eval` runs its arguments as a script, which is where the two runs may differ. -/
theorem related_runEval (hrun : K.Runs k run run') (args : List String) :
    K.Comes k c d (runEval run args) (runEval run' args) := by
  unfold runEval
  refine Related.ite (fun _ => comes_small 0 (by decide)) fun _ => ?_
  cases parse (" ".intercalate args) with
  | ok script => exact hrun c d script
  | error e => exact Answer.related_give _ (K.byte 2 (by decide))

/-- The expressions of `let` are evaluated one after the other. -/
theorem related_evaluateAll (value : Int64) (texts : List String) :
    K.Related k c d c.Spoils (fun _ => True) (evaluateAll value texts) (evaluateAll value texts) := by
  induction texts generalizing value with
  | nil => exact related_pure trivial
  | cons text texts ih => exact (Expansion.related_evaluate text).bind fun value _ => ih value

/-- `let` is a failure if its last value is zero. -/
theorem related_runLet (args : List String) : K.Comes k c d (runLet args) (runLet args) := by
  refine Related.ite (fun _ => Answer.related_give _ (K.byte 1 (by decide))) fun _ => ?_
  have hvalue : K.Related k c d c.Spoils (Outcome.May K.good d)
      (do return Outcome.status (if (← evaluateAll 0 args) = 0 then 1 else 0))
      (do return Outcome.status (if (← evaluateAll 0 args) = 0 then 1 else 0)) := by
    refine (related_evaluateAll 0 args).bind fun value _ => related_pure ⟨trivial, K.byte _ ?_⟩
    split <;> decide
  refine hvalue.handle (fun abort ha _ => ?_) fun _ => Exec.eq_abort (fun _ => rfl) fun _ => rfl
  cases abort with
  | expansion e => exact Answer.related_give _ (K.byte 1 (by decide))
  | exit _ => exact ha.elim
  | cancelled => exact ha.elim
  | limit _ => exact related_abort trivial trivial
  | brokenPipe =>
    exact related_abort (Context.stops_of_spoils ha fun _ he => by cases he) trivial
  | fault _ => exact related_abort ha trivial

/-- `printf` writes, and answers whether all arguments could be read. -/
theorem related_runPrintf (args : List String) : K.Comes k c d (runPrintf args) (runPrintf args) := by
  refine related_context (related_env.bind fun env he => ?_)
  -- Both runs have the same memory and write to the same stream, so `printf` answers alike.
  have hroom : (⟨(c.within K.limits').host.memory, (c.within K.limits').output, (c.within K.limits').captured⟩ :
      Printf.Room) = ⟨c.host.memory, c.output, c.captured⟩ := rfl
  rw [hroom]
  obtain ⟨f, hfault, hr⟩ | ⟨answer, after, hr, hle, hafter⟩ :=
    Printf.answer_cases ⟨c.host.memory, c.output, c.captured⟩ env args
  · rw [hr]
    exact related_abort (fun hf => absurd hf hfault.ne_noCapacity) trivial
  · rw [hr]
    have hstanding : after.standing = env.standing := by
      rcases hafter with rfl | ⟨name, text, -, rfl⟩ <;> rfl
    exact (related_replaceEnv he hstanding).bind fun _ _ =>
      Answer.related_give answer (K.byte _ (Nat.lt_of_le_of_lt hle (by decide)))

/-- What names stand for does not depend on limits. -/
theorem related_meanings {β : Type} {E : Abort → Prop} {V : β → Prop}
    {f f' : (String → List Meaning) → Exec β} (h : ∀ meanings, K.Related k c d E V (f meanings) (f' meanings)) :
    K.Related k c d E V (Exec.meanings >>= f) (Exec.meanings >>= f') := by
  have hmeanings : K.Related k c d E (fun _ => True) Exec.meanings Exec.meanings :=
    related_env.bind fun _ _ => related_context (related_pure trivial)
  exact hmeanings.bind fun meanings _ => h meanings

/-- The builtins that are no plain change of the environment. -/
theorem related_runOther (hrun : K.Runs k run run') (which : Builtin) (args : List String) :
    K.Comes k c d (runOther run which args) (runOther run' which args) := by
  cases which with
  | echo => exact Answer.related_give _ (K.byte 0 (by decide))
  | exit => exact Control.related_exit args
  | «return» => exact Control.related_leaveFunction args
  | «break» => exact Control.related_signalLoops "break" args fun _ h h' => ⟨⟨h, h'⟩, trivial⟩
  | «continue» => exact Control.related_signalLoops "continue" args fun _ h h' => ⟨⟨h, h'⟩, trivial⟩
  | test => exact related_runTest "test" args
  | bracket => exact related_runBracket args
  | shift => exact Variables.keeps_shift.related args
  | set => exact Variables.keeps_set.related args
  | unset => exact Variables.keeps_unset.related args
  | «export» => exact Variables.keeps_exportNames.related args
  | eval => exact related_runEval hrun args
  | read => exact related_runRead args
  | «let» => exact related_runLet args
  | printf => exact related_runPrintf args
  | type =>
    exact related_meanings fun meanings =>
      Answer.related_give _ (K.byte _ (Describe.status_typeNames meanings args))
  | colon | succeed | command | builtin => exact comes_small 0 (by decide)
  | fail => exact comes_small 1 (by decide)

/-- A utility writes where the code that starts it writes, and only eight bits of its status count. -/
theorem related_start {name : String} {utility : Utility}
    (h : c.spawner.find? name = some utility) (args : List String) :
    K.Related k c d c.Stops K.good (Exec.start utility args) (Exec.start utility args) := by
  refine related_context (related_env.bind fun env _ => related_lift fun hc t j next next' ht hj hn => ?_)
  refine K.utility hc ht h rfl rfl rfl (fun reply => ?_) fun abort ha => ?_
  · refine together_writeText _ ht (.inl rfl) (together_writeText _ ht (.inr rfl) ?_ ?_) ?_
    · exact hn (.ok _) (K.byte _ (Control.byte_lt _))
    · exact fun abort ha => hn (.error abort)
        ⟨Context.stops_of_refuses (.inr rfl) ha, good_of_refuses ha⟩
    · exact fun abort ha => hn (.error abort)
        ⟨Context.stops_of_refuses (.inl rfl) ha, good_of_refuses ha⟩
  · rcases ha with ha | ha | ⟨f, rfl, hf⟩
    · exact hn (.error abort) ⟨Context.stops_of_refuses (.inl rfl) ha, good_of_refuses ha⟩
    · exact hn (.error abort) ⟨Context.stops_of_refuses (.inr rfl) ha, good_of_refuses ha⟩
    · exact hn (.error (.fault f)) ⟨fun he => absurd he hf, trivial⟩

/-- **Every builtin** comes to the same in both runs. -/
theorem related_run (hrun : K.Runs k run run') (which : Builtin) (args : List String) :
    K.Comes k c d (Builtin.run run which args) (Builtin.run run' which args) := by
  unfold Builtin.run
  cases hcall : Call.follow which args with
  | answer answer => exact Answer.related_give answer (K.byte _ (Call.status_of_follow hcall))
  | describe verbose names =>
    exact related_meanings fun meanings => Answer.related_give _ (K.byte _ (Describe.status_join _))
  | utility name args =>
    refine related_context ?_
    rw [Context.within_spawner]
    cases hu : c.spawner.find? name with
    | some utility =>
      exact (related_start hu args).bind fun _ hstatus => comes_status hstatus
    | none => exact Answer.related_give _ (K.byte 127 (by decide))
  | builtin which args => exact related_runOther hrun which args

end Builtin

end Shell
