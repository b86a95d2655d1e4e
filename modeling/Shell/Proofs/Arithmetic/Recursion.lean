/-
How deep an evaluation goes.

The value of a variable may be an expression again, with variables whose values are expressions. These texts need not
get shorter from one to the next, they may lead back to the first one, and an evaluation changes them on its way. So
an evaluator counts how many of them it is in: up before it starts on the text of a variable, down after it, whether
the text has a value or fails, and the text that would be one too many is not evaluated at all.

Evaluation as it is defined takes along the depth that is left and has no counter. So an evaluator with one is described
here (`Runs`): what a call for a text, a tree or a variable asks for, one thing after another (`Call.plan`), and what
the counter is meanwhile. Every call asks for smaller trees at the same depth, or for a text at the next one, and there
are only so many depths; so every call has a run (`exists_runs`). All runs come to what evaluation comes to, and leave
the counter as it was (`Runs.value`).
-/
import Shell.Proofs.Arithmetic.SignedConstants

set_option autoImplicit false

namespace Shell.Arithmetic

open Shell.Text

/-! ## 1. Calls and what they ask for -/

/-- What an evaluator can be called for. -/
inductive Call where
  /-- The expression in a text. -/
  | whole (source : List Char)
  /-- A tree that was read from a text. -/
  | tree (source : List Char) (e : Expr)
  /-- The value of a variable. -/
  | variable (name : String)

/-- What a call asks for, one thing after another. What comes next may depend on what has been found. -/
inductive Plan where
  | done (result : Except Failure Int64)
  | read (name : String) (next : Option String → Plan)
  | assign (name : String) (value : Int64) (next : Plan)
  | call (call : Call) (next : Int64 → Plan)
  /-- The text of a variable is to be evaluated, one level deeper. -/
  | deeper (name : String) (source : List Char)

/-- To ask for one call, whose value is the value. -/
def Plan.only (c : Call) : Plan := .call c fun value => .done (.ok value)

/-- What a tree asks for. -/
def Expr.plan (source : List Char) : Expr → Plan
  | .number value => .done (.ok value)
  | .variable name => .only (.variable name)
  | .unary op operand => .call (.tree source operand) fun value => .done (.ok (op.apply value))
  | .binary .and left right =>
    .call (.tree source left) fun l =>
      if l == 0 then .done (.ok 0)
      else .call (.tree source right) fun r => .done (.ok (truth (r != 0)))
  | .binary .or left right =>
    .call (.tree source left) fun l =>
      if l != 0 then .done (.ok 1)
      else .call (.tree source right) fun r => .done (.ok (truth (r != 0)))
  | .binary op left right =>
    .call (.tree source left) fun l => .call (.tree source right) fun r => .done (op.apply source l r)
  | .conditional condition ifTrue ifFalse =>
    .call (.tree source condition) fun value =>
      if value != 0 then .only (.tree source ifTrue) else .only (.tree source ifFalse)
  | .assign none name value =>
    .call (.tree source value) fun value => .assign name value (.done (.ok value))
  | .assign (some op) name value =>
    .call (.tree source value) fun r => .call (.variable name) fun l =>
      match op.apply source l r with
      | .ok value => .assign name value (.done (.ok value))
      | .error failure => .done (.error failure)
  | .update step name before =>
    .call (.variable name) fun old =>
      .assign name (step.apply old) (.done (.ok (if before then step.apply old else old)))
  | .comma left right => .call (.tree source left) fun _ => .only (.tree source right)

/-- What a variable asks for when its text, without white space at the ends, is known. -/
def valuePlan (name : String) (value : List Char) : Plan :=
  if value.isEmpty then .done (.ok 0)
  else if isConstant (value.dropWhile fun c => c == '+' || c == '-') then
    .done ((readConstant (value.dropWhile fun c => c == '+' || c == '-')).map fun n =>
      if value.head? = some '-' then -n else n)
  else .deeper name value

def Call.plan : Call → Plan
  | .whole source =>
    match parse source with
    | .error failure => .done (.error failure)
    | .ok none => .done (.ok 0)
    | .ok (some e) => .only (.tree source e)
  | .tree source e => e.plan source
  | .variable name => .read name fun value => valuePlan name (trim (value.getD "").toList)

/-! ## 2. Runs -/

/-- An evaluator: the variables, and how many texts of variables it is in. -/
structure Evaluator (σ : Type) where
  vars : σ
  depth : Nat

/-- What can be seen of a run. -/
inductive Access where
  | read (name : String)
  | assign (name : String)
  /-- The counter has been raised to `depth`. -/
  | enter (depth : Nat)
  deriving DecidableEq, Repr

section

variable {σ : Type}

/-- `Runs store p s trace r s'`: an evaluator in the state `s` does what `p` asks for, with the accesses `trace`,
comes to `r` and is left in `s'`. There is no rule that leaves the counter raised: it is taken down again after the
text of a variable, whatever that comes to, and also when the text is not evaluated because it is too deep. -/
inductive Runs (store : Store σ) :
    Plan → Evaluator σ → List Access → Except Failure Int64 → Evaluator σ → Prop where
  | done {r : Except Failure Int64} {s : Evaluator σ} : Runs store (.done r) s [] r s
  | read {name next trace r} {s s' : Evaluator σ}
      (h : Runs store (next (store.lookup s.vars name)) s trace r s') :
      Runs store (.read name next) s (.read name :: trace) r s'
  | assign {name value next trace r} {s s' : Evaluator σ}
      (h : Runs store next ⟨store.assign s.vars name (toString value.toInt), s.depth⟩ trace r s') :
      Runs store (.assign name value next) s (.assign name :: trace) r s'
  | call {c next trace trace' value r} {s s₁ s' : Evaluator σ}
      (h : Runs store c.plan s trace (.ok value) s₁) (h' : Runs store (next value) s₁ trace' r s') :
      Runs store (.call c next) s (trace ++ trace') r s'
  | fail {c next trace failure} {s s' : Evaluator σ} (h : Runs store c.plan s trace (.error failure) s') :
      Runs store (.call c next) s trace (.error failure) s'
  | tooDeep {name source} {s : Evaluator σ} (h : maxDepth < s.depth + 1) :
      Runs store (.deeper name source) s [.enter (s.depth + 1)] (.error (.mistake (.tooDeep name)))
        ⟨s.vars, s.depth + 1 - 1⟩
  | deeper {name source trace r} {s s' : Evaluator σ} (hle : s.depth + 1 ≤ maxDepth)
      (h : Runs store (Call.whole source).plan ⟨s.vars, s.depth + 1⟩ trace r s') :
      Runs store (.deeper name source) s (.enter (s.depth + 1) :: trace) r ⟨s'.vars, s'.depth - 1⟩

/-! ## 3. What a run comes to -/

section

variable (store : Store σ)

/-- What a call comes to when the values of variables may lead through `depth` further texts. -/
def Call.value (depth : Nat) : Call → Eval σ Int64
  | .whole source => evaluateWith store (resolve store depth) source
  | .tree source e => e.eval store (resolve store depth) source
  | .variable name => resolve store depth name

/-- What is asked for, done with the evaluation of the calls in it. -/
def Plan.value (depth : Nat) : Plan → Eval σ Int64
  | .done r => liftM r
  | .read name next => do (next (store.lookup (← get) name)).value depth
  | .assign name value next => do
    let _ ← store.put name value
    next.value depth
  | .call c next => do (next (← c.value store depth)).value depth
  | .deeper name source =>
    match depth with
    | 0 => throw (.mistake (.tooDeep name))
    | depth + 1 => (Call.whole source).value store depth

theorem Plan.value_only (depth : Nat) (c : Call) : (Plan.only c).value store depth = c.value store depth :=
  bind_pure (c.value store depth)

theorem Expr.value_plan (depth : Nat) (source : List Char) (e : Expr) :
    (e.plan source).value store depth = e.eval store (resolve store depth) source := by
  cases e with
  | number value => rfl
  | «variable» name => exact Plan.value_only store depth _
  | unary op operand => rfl
  | binary op left right =>
    cases op with
    | and =>
      refine bind_congr fun l => ?_
      dsimp only
      split <;> rfl
    | or =>
      refine bind_congr fun l => ?_
      dsimp only
      split <;> rfl
    | _ => rfl
  | conditional condition ifTrue ifFalse =>
    refine bind_congr fun value => ?_
    dsimp only
    split <;> exact Plan.value_only store depth _
  | assign op name value =>
    cases op with
    | none => rfl
    | some op =>
      -- The operator may fail, which the plan and the evaluator see at the same point.
      refine bind_congr fun r => bind_congr fun l => ?_
      dsimp only
      cases op.apply source l r <;> rfl
  | update step name before => rfl
  | comma left right => exact bind_congr fun _ => Plan.value_only store depth _

theorem valuePlan_value (depth : Nat) (name : String) (value : List Char) :
    (valuePlan name value).value store depth =
      if value.isEmpty then pure 0
      else if isConstant (value.dropWhile fun c => c == '+' || c == '-') then do
        let n ← liftM (readConstant (value.dropWhile fun c => c == '+' || c == '-'))
        return if value.head? = some '-' then -n else n
      else match depth with
        | 0 => throw (.mistake (.tooDeep name))
        | depth + 1 => evaluateWith store (resolve store depth) value := by
  unfold valuePlan
  split
  · rfl
  · split
    · show liftM _ = _
      cases readConstant (value.dropWhile fun c => c == '+' || c == '-') <;> rfl
    · rfl

/-- **What a call asks for comes to what the call comes to.** -/
theorem Call.value_plan (depth : Nat) (c : Call) : c.plan.value store depth = c.value store depth := by
  cases c with
  | whole source =>
    show _ = evaluateWith store (resolve store depth) source
    rw [plan, evaluateWith]
    cases parse source with
    | error failure => rfl
    | ok tree =>
      cases tree with
      | none => rfl
      | some e => exact Plan.value_only store depth _
  | tree source e => exact e.value_plan store depth source
  | «variable» name =>
    rw [plan, Plan.value]
    simp only [valuePlan_value]
    cases depth with
    | zero =>
      show _ = resolve store 0 name
      rw [resolve]
    | succ depth =>
      show _ = resolve store (depth + 1) name
      rw [resolve]

end

variable {store : Store σ}

/-- **A run comes to what evaluation comes to** with the depth that is left, in the result and in the variables, and
the counter is back where it was. -/
theorem Runs.value {p : Plan} {s s' : Evaluator σ} {trace : List Access} {r : Except Failure Int64}
    (h : Runs store p s trace r s') :
    (p.value store (maxDepth - s.depth)).run s.vars = (r, s'.vars) ∧ s'.depth = s.depth := by
  -- Along the run: what is asked for first is done, and what is asked for then is done from there.
  induction h with
  | @done r s => exact ⟨by cases r <;> rfl, rfl⟩
  | read h ih => exact ih
  | assign h ih => exact ih
  | @call c next trace trace' value r s s₁ s' h h' ih ih' =>
    rw [ih.2] at ih'
    refine ⟨?_, ih'.2⟩
    unfold Plan.value
    rw [Eval.run_bind, ← Call.value_plan, ih.1]
    exact ih'.1
  | @fail c next trace failure s s' h ih =>
    refine ⟨?_, ih.2⟩
    unfold Plan.value
    rw [Eval.run_bind, ← Call.value_plan, ih.1]
  | @tooDeep name source s h =>
    have hleft : maxDepth - s.depth = 0 := by omega
    refine ⟨?_, Nat.add_sub_cancel s.depth 1⟩
    rw [hleft]
    rfl
  | @deeper name source trace r s s' hle h ih =>
    have hleft : maxDepth - s.depth = maxDepth - (s.depth + 1) + 1 := by omega
    refine ⟨?_, by show s'.depth - 1 = s.depth; rw [ih.2]; exact Nat.add_sub_cancel s.depth 1⟩
    rw [hleft]
    show ((Call.whole source).value store (maxDepth - (s.depth + 1))).run s.vars = (r, s'.vars)
    rw [← Call.value_plan]
    exact ih.1

/-- **A run of a call comes to what the call comes to**, and the counter is back where it was. -/
theorem Runs.value_call {c : Call} {s s' : Evaluator σ} {trace : List Access} {r : Except Failure Int64}
    (h : Runs store c.plan s trace r s') :
    (c.value store (maxDepth - s.depth)).run s.vars = (r, s'.vars) ∧ s'.depth = s.depth := by
  rw [← Call.value_plan]
  exact h.value

/-- The counter never gets higher than one above the limit, where a text is given up. -/
theorem Runs.enter_le {p : Plan} {s s' : Evaluator σ} {trace : List Access} {r : Except Failure Int64}
    (h : Runs store p s trace r s') (hs : s.depth ≤ maxDepth) :
    ∀ depth, .enter depth ∈ trace → depth ≤ maxDepth + 1 := by
  induction h with
  | done => nofun
  | read h ih | assign h ih =>
    intro depth hmem
    exact ih hs depth ((List.mem_cons.mp hmem).resolve_left nofun)
  | @call c next trace trace' value r s s₁ s' h h' ih ih' =>
    intro depth hmem
    rcases List.mem_append.mp hmem with hmem | hmem
    · exact ih hs depth hmem
    · exact ih' (h.value.2 ▸ hs) depth hmem
  | fail h ih => exact ih hs
  | tooDeep h =>
    intro depth hmem
    obtain rfl := Access.enter.inj (List.mem_singleton.mp hmem)
    omega
  | deeper hle h ih =>
    intro depth hmem
    rcases List.mem_cons.mp hmem with hmem | hmem
    · obtain rfl := Access.enter.inj hmem
      omega
    · exact ih hle depth hmem

/-! ## 4. Every call has a run -/

/-- The size of a tree. -/
def Expr.size : Expr → Nat
  | .number _ | .variable _ | .update _ _ _ => 1
  | .unary _ operand => operand.size + 1
  | .binary _ left right | .comma left right => left.size + right.size + 1
  | .conditional condition ifTrue ifFalse => condition.size + ifTrue.size + ifFalse.size + 1
  | .assign _ _ value => value.size + 1

/-- The size of what a call is for. A variable has none: its text counts at the next depth. -/
def Call.size : Call → Nat
  | .whole source =>
    match parse source with
    | .ok (some e) => e.size + 1
    | _ => 0
  | .tree _ e => e.size
  | .variable _ => 0

/-- All calls that are asked for at the same depth are smaller than `size`. -/
def Plan.Within (size : Nat) : Plan → Prop
  | .done _ | .deeper _ _ => True
  | .read _ next => ∀ value, (next value).Within size
  | .assign _ _ next => next.Within size
  | .call c next => c.size < size ∧ ∀ value, (next value).Within size

theorem Plan.within_only {size : Nat} {c : Call} (h : c.size < size) : (Plan.only c).Within size :=
  ⟨h, fun _ => trivial⟩

theorem Expr.within_plan (source : List Char) (e : Expr) : (e.plan source).Within e.size := by
  cases e with
  | number value => trivial
  | «variable» name => exact Plan.within_only Nat.one_pos
  | unary op operand => exact ⟨Nat.lt_succ_self _, fun _ => trivial⟩
  | binary op left right =>
    -- What a plan asks for next is always an operand, and operands are smaller than the expression.
    have hleft : left.size < left.size + right.size + 1 := by omega
    have hright : right.size < left.size + right.size + 1 := by omega
    cases op with
    | and | or =>
      refine ⟨hleft, fun l => ?_⟩
      dsimp only
      split
      · trivial
      · exact ⟨hright, fun _ => trivial⟩
    | _ => exact ⟨hleft, fun _ => ⟨hright, fun _ => trivial⟩⟩
  | conditional condition ifTrue ifFalse =>
    refine ⟨show condition.size < condition.size + ifTrue.size + ifFalse.size + 1 by omega, fun value => ?_⟩
    dsimp only
    split
    · exact Plan.within_only (show ifTrue.size < condition.size + ifTrue.size + ifFalse.size + 1 by omega)
    · exact Plan.within_only (show ifFalse.size < condition.size + ifTrue.size + ifFalse.size + 1 by omega)
  | assign op name value =>
    cases op with
    | none => exact ⟨Nat.lt_succ_self _, fun _ => trivial⟩
    | some op =>
      refine ⟨Nat.lt_succ_self _, fun r => ⟨Nat.succ_pos _, fun l => ?_⟩⟩
      dsimp only
      cases op.apply source l r <;> trivial
  | update step name before => exact ⟨Nat.one_pos, fun _ => trivial⟩
  | comma left right =>
    exact ⟨show left.size < left.size + right.size + 1 by omega,
      fun _ => Plan.within_only (show right.size < left.size + right.size + 1 by omega)⟩

/-- **A call asks for smaller ones at its own depth**, and for nothing else but texts at the next one. -/
theorem Call.within_plan (c : Call) : c.plan.Within c.size := by
  cases c with
  | whole source =>
    unfold plan size
    dsimp only
    cases parse source with
    | error failure => trivial
    | ok tree =>
      cases tree with
      | none => trivial
      | some e => exact Plan.within_only (Nat.lt_succ_self _)
  | tree source e => exact e.within_plan source
  | «variable» name =>
    intro value
    dsimp only
    unfold valuePlan
    split
    · trivial
    · split <;> trivial

/-- What is asked for has a run if every call in it has one, at this depth and at the next. -/
theorem Plan.exists_runs {size depth : Nat}
    (hcall : ∀ (c : Call) (s : Evaluator σ), s.depth = depth → c.size < size → ∃ trace r s', Runs store c.plan s trace r s')
    (hdeeper : ∀ (c : Call) (s : Evaluator σ), s.depth = depth + 1 → depth + 1 ≤ maxDepth →
      ∃ trace r s', Runs store c.plan s trace r s')
    {p : Plan} (hp : p.Within size) {s : Evaluator σ} (hs : s.depth = depth) :
    ∃ trace r s', Runs store p s trace r s' := by
  -- What comes after a call is asked for at the same depth, since a run leaves the counter as it was.
  induction p generalizing s with
  | done r => exact ⟨[], r, s, .done⟩
  | read name next ih =>
    obtain ⟨trace, r, s', h⟩ := ih _ (hp _) hs
    exact ⟨_, r, s', .read h⟩
  | assign name value next ih =>
    obtain ⟨trace, r, s', h⟩ := ih (s := ⟨store.assign s.vars name (toString value.toInt), s.depth⟩) hp hs
    exact ⟨_, r, s', .assign h⟩
  | call c next ih =>
    obtain ⟨trace, r, s₁, h⟩ := hcall c s hs hp.1
    cases r with
    | error failure => exact ⟨trace, _, s₁, .fail h⟩
    | ok value =>
      obtain ⟨trace', r, s', h'⟩ := ih value (hp.2 value) (h.value.2.trans hs)
      exact ⟨_, r, s', .call h h'⟩
  | deeper name source =>
    by_cases hle : s.depth + 1 ≤ maxDepth
    · obtain ⟨trace, r, s', h⟩ := hdeeper (.whole source) ⟨s.vars, s.depth + 1⟩ (by rw [hs]) (hs ▸ hle)
      exact ⟨_, r, _, .deeper hle h⟩
    · exact ⟨_, _, _, .tooDeep (Nat.lt_of_not_le hle)⟩

/-- **Every call has a run**: from call to call either less depth is left, or as much and what is called for is
smaller. -/
theorem exists_runs (store : Store σ) (c : Call) (s : Evaluator σ) : ∃ trace r s', Runs store c.plan s trace r s' :=
  Plan.exists_runs (fun c' s' _hs _hsize => exists_runs store c' s')
    (fun c' s' _hs _hle => exists_runs store c' s') c.within_plan rfl
termination_by (maxDepth - s.depth, c.size)
decreasing_by
  · rw [_hs]
    exact Prod.Lex.right _ _hsize
  · exact Prod.Lex.left _ _ (by omega)

/-! ## 5. One evaluator for many texts -/

/-- An evaluator is called for texts one after another, whatever each comes to. -/
inductive RunsAll (store : Store σ) :
    List (List Char) → Evaluator σ → List (List Access × Except Failure Int64) → Evaluator σ → Prop where
  | nil {s : Evaluator σ} : RunsAll store [] s [] s
  | cons {source sources trace r steps} {s s₁ s' : Evaluator σ}
      (h : Runs store (Call.whole source).plan s trace r s₁) (h' : RunsAll store sources s₁ steps s') :
      RunsAll store (source :: sources) s ((trace, r) :: steps) s'

/-- What texts come to when each is evaluated anew, with the variables that those before it have left. -/
def outcomes (store : Store σ) : List (List Char) → σ → List (Except Failure Int64) × σ
  | [], vars => ([], vars)
  | source :: sources, vars =>
    let first := (evaluate store source).run vars
    let rest := outcomes store sources first.2
    (first.1 :: rest.1, rest.2)

/-- All that texts leave behind for those after them is in the variables. -/
theorem RunsAll.outcomes {sources : List (List Char)} {s s' : Evaluator σ}
    {steps : List (List Access × Except Failure Int64)} (h : RunsAll store sources s steps s') (hs : s.depth = 0) :
    (steps.map Prod.snd, s'.vars) = outcomes store sources s.vars ∧ s'.depth = 0 := by
  induction h with
  | nil => exact ⟨rfl, hs⟩
  | @cons source sources trace r steps s s₁ s' h h' ih =>
    obtain ⟨hvalue, hdepth⟩ := h.value_call
    rw [hs] at hvalue
    obtain ⟨hrest, hend⟩ := ih (hdepth.trans hs)
    have hfirst : (evaluate store source).run s.vars = (r, s₁.vars) := hvalue
    refine ⟨?_, hend⟩
    unfold Arithmetic.outcomes
    rw [hfirst]
    dsimp only
    rw [← hrest]
    rfl

theorem RunsAll.enter_le {sources : List (List Char)} {s s' : Evaluator σ}
    {steps : List (List Access × Except Failure Int64)} (h : RunsAll store sources s steps s') (hs : s.depth ≤ maxDepth) :
    ∀ step ∈ steps, ∀ depth, .enter depth ∈ step.1 → depth ≤ maxDepth + 1 := by
  induction h with
  | nil => nofun
  | cons h h' ih =>
    rw [List.forall_mem_cons]
    exact ⟨h.enter_le hs, ih (h.value.2 ▸ hs)⟩

theorem exists_runsAll (store : Store σ) (sources : List (List Char)) (s : Evaluator σ) :
    ∃ steps s', RunsAll store sources s steps s' := by
  induction sources generalizing s with
  | nil => exact ⟨[], s, .nil⟩
  | cons source sources ih =>
    obtain ⟨trace, r, s₁, h⟩ := exists_runs store (.whole source) s
    obtain ⟨steps, s', h'⟩ := ih s₁
    exact ⟨_, s', .cons h h'⟩

/-- **Every evaluation ends**, with a value or a failure, whatever is in the variables and whatever becomes of them.
A call asks for smaller calls at its depth, or for a text at the next depth, and the counter never gets higher than
one above the limit. After a call it is what it was before, so an evaluator that is called for one text after another
comes to what new evaluators come to: what goes from one to the next, also from one that has failed, is the
variables. -/
theorem evaluation_ends (store : Store σ) :
    (∀ c : Call, c.plan.Within c.size) ∧
    (∀ (c : Call) (s : Evaluator σ), s.depth ≤ maxDepth →
      (∃ trace r s', Runs store c.plan s trace r s') ∧
      ∀ trace r s', Runs store c.plan s trace r s' →
        (r, s'.vars) = (c.value store (maxDepth - s.depth)).run s.vars ∧ s'.depth = s.depth ∧
          ∀ depth, .enter depth ∈ trace → depth ≤ maxDepth + 1) ∧
    (∀ (sources : List (List Char)) (vars : σ),
      (∃ steps s', RunsAll store sources ⟨vars, 0⟩ steps s') ∧
      ∀ steps s', RunsAll store sources ⟨vars, 0⟩ steps s' →
        (steps.map Prod.snd, s'.vars) = outcomes store sources vars ∧ s'.depth = 0 ∧
          ∀ step ∈ steps, ∀ depth, .enter depth ∈ step.1 → depth ≤ maxDepth + 1) := by
  refine ⟨Call.within_plan, ?_, ?_⟩
  · intro c s hs
    refine ⟨exists_runs store c s, fun trace r s' h => ?_⟩
    obtain ⟨hvalue, hdepth⟩ := h.value_call
    exact ⟨hvalue.symm, hdepth, h.enter_le hs⟩
  · intro sources vars
    refine ⟨exists_runsAll store sources ⟨vars, 0⟩, fun steps s' h => ?_⟩
    obtain ⟨houtcomes, hdepth⟩ := h.outcomes rfl
    exact ⟨houtcomes, hdepth, h.enter_le (Nat.zero_le _)⟩

/-- A variable that is its own text cannot be evaluated, but it can be assigned, and is then what it was assigned. -/
theorem selfReference_ends :
    ∃ steps s', RunsAll tables ["a".toList, "a = 5".toList, "a".toList] ⟨⟨[("a", "a")]⟩, 0⟩ steps s' ∧
      steps.map Prod.snd = [.error (.mistake (.tooDeep "a")), .ok 5, .ok 5] ∧ s' = ⟨⟨[("a", "5")]⟩, 0⟩ := by
  obtain ⟨-, -, hall⟩ := evaluation_ends tables
  obtain ⟨⟨steps, s', h⟩, hends⟩ := hall ["a".toList, "a = 5".toList, "a".toList] ⟨[("a", "a")]⟩
  obtain ⟨houtcomes, hdepth, -⟩ := hends steps s' h
  have hvalues : outcomes tables ["a".toList, "a = 5".toList, "a".toList] ⟨[("a", "a")]⟩ =
      ([.error (.mistake (.tooDeep "a")), .ok 5, .ok 5], ⟨[("a", "5")]⟩) := by decide +kernel
  obtain ⟨hresults, hvars⟩ := Prod.mk.inj (houtcomes.trans hvalues)
  obtain ⟨vars, depth⟩ := s'
  obtain rfl : depth = 0 := hdepth
  obtain rfl : vars = ⟨[("a", "5")]⟩ := hvars
  exact ⟨steps, _, h, hresults, rfl⟩

end

end Shell.Arithmetic
