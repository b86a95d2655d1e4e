/-
Compound assignments.

`x += e` evaluates `e` first and reads `x` then, but `x = x + e` reads `x` first. So the one is short for the other only
as far as the order does not matter: `x += v` with the value `v` of `e` is `x = x + v` (`Expr.eval_compound`), and
`x += e` is `x = x + e` unless evaluating `e` and reading `x` get in each other's way, where to read `x` may be to
evaluate its text, which reads and assigns variables itself.

What gets in the way is seen in the runs of both. A run depends on the variables that it reads and changes those that
it assigns (`Runs.frame`, `Runs.untouched`). So two runs from the same variables, neither of which assigns what the
other reads or assigns, come to the same in either order (`Runs.swap`).
-/
import Shell.Proofs.Arithmetic.Recursion

set_option autoImplicit false

namespace Shell.Arithmetic

open Shell.Text

variable {σ α β : Type} {store : Store σ}

/-! ## 1. What a run depends on and what it changes -/

/-- A variable has what it was assigned last. -/
def Store.Answers (store : Store σ) : Prop :=
  ∀ s name value other,
    store.lookup (store.assign s name value) other = if name = other then some value else store.lookup s other

theorem tables_answers : tables.Answers := fun s name value other => s.get?_insert name other value

/-- A variable that a run does not assign keeps its text. -/
theorem Runs.untouched (answers : store.Answers) {p : Plan} {s s' : Evaluator σ} {trace : List Access}
    {r : Except Failure Int64} (h : Runs store p s trace r s') {name : String} (hname : .assign name ∉ trace) :
    store.lookup s'.vars name = store.lookup s.vars name := by
  induction h with
  | done | tooDeep => rfl
  | read h ih => exact ih fun hmem => hname (List.mem_cons_of_mem _ hmem)
  | @assign other value next trace r s s' h ih =>
    have hne : other ≠ name := by
      rintro rfl
      exact hname List.mem_cons_self
    rw [ih fun hmem => hname (List.mem_cons_of_mem _ hmem), answers, if_neg hne]
  | call h h' ih ih' =>
    rw [ih' fun hmem => hname (List.mem_append_right _ hmem), ih fun hmem => hname (List.mem_append_left _ hmem)]
  | fail h ih => exact ih hname
  | deeper hle h ih => exact ih fun hmem => hname (List.mem_cons_of_mem _ hmem)

/-- **A run only depends on what it reads**: from variables that have the same texts as far as they are read, it goes
the same way, and the variables that it assigns have the same texts after it. -/
theorem Runs.frame (answers : store.Answers) {p : Plan} {s s' t : Evaluator σ} {trace : List Access}
    {r : Except Failure Int64} (h : Runs store p s trace r s') (hdepth : t.depth = s.depth)
    (hreads : ∀ name, .read name ∈ trace → store.lookup s.vars name = store.lookup t.vars name) :
    ∃ t', Runs store p t trace r t' ∧
      ∀ name, store.lookup s.vars name = store.lookup t.vars name ∨ .assign name ∈ trace →
        store.lookup s'.vars name = store.lookup t'.vars name := by
  -- Along the run, the variables with the same texts are those from the start and those assigned since.
  induction h generalizing t with
  | done => exact ⟨t, .done, fun name hname => hname.resolve_right nofun⟩
  | @read name next trace r s s' h ih =>
    rw [hreads name List.mem_cons_self] at h ih
    obtain ⟨t', ht', hsame⟩ := ih hdepth fun other hmem => hreads other (List.mem_cons_of_mem _ hmem)
    refine ⟨t', .read ht', fun other hother => hsame other ?_⟩
    rcases hother with hother | hmem
    · exact .inl hother
    · exact .inr (List.mem_of_ne_of_mem (by nofun) hmem)
  | @assign name value next trace r s s' h ih =>
    -- After the assignment the variable has the same text on both sides.
    have hassigned : ∀ other, store.lookup s.vars other = store.lookup t.vars other ∨ name = other →
        store.lookup (store.assign s.vars name (toString value.toInt)) other =
          store.lookup (store.assign t.vars name (toString value.toInt)) other := by
      intro other hother
      rw [answers, answers]
      split
      · rfl
      · next hne => exact hother.resolve_right hne
    obtain ⟨t', ht', hsame⟩ := ih (t := ⟨store.assign t.vars name (toString value.toInt), t.depth⟩) hdepth
      fun other hmem => hassigned other (.inl (hreads other (List.mem_cons_of_mem _ hmem)))
    refine ⟨t', .assign ht', fun other hother => hsame other ?_⟩
    rcases hother with hother | hmem
    · exact .inl (hassigned other (.inl hother))
    · rcases List.mem_cons.mp hmem with heq | hmem
      · exact .inl (hassigned other (.inr (Access.assign.inj heq).symm))
      · exact .inr hmem
  | @call c next trace trace' value r s s₁ s' h h' ih ih' =>
    obtain ⟨t₁, ht₁, hsame⟩ := ih hdepth fun name hmem => hreads name (List.mem_append_left _ hmem)
    have hdepth₁ : t₁.depth = s₁.depth := by rw [ht₁.value.2, h.value.2, hdepth]
    obtain ⟨t', ht', hsame'⟩ := ih' hdepth₁ fun name hmem =>
      hsame name (.inl (hreads name (List.mem_append_right _ hmem)))
    refine ⟨t', .call ht₁ ht', fun name hname => hsame' name ?_⟩
    rcases hname with hname | hmem
    · exact .inl (hsame name (.inl hname))
    · rcases List.mem_append.mp hmem with hmem | hmem
      · exact .inl (hsame name (.inr hmem))
      · exact .inr hmem
  | fail h ih =>
    obtain ⟨t', ht', hsame⟩ := ih hdepth hreads
    exact ⟨t', .fail ht', hsame⟩
  | @tooDeep name source s h =>
    rw [← hdepth] at h ⊢
    exact ⟨_, .tooDeep h, fun other hother => hother.resolve_right fun hmem => nomatch List.mem_singleton.mp hmem⟩
  | @deeper name source trace r s s' hle h ih =>
    rw [← hdepth] at hle ⊢
    obtain ⟨t', ht', hsame⟩ := ih (t := ⟨t.vars, t.depth + 1⟩) (congrArg (· + 1) hdepth)
      fun other hmem => hreads other (List.mem_cons_of_mem _ hmem)
    refine ⟨_, .deeper hle ht', fun other hother => hsame other ?_⟩
    rcases hother with hother | hmem
    · exact .inl hother
    · exact .inr (List.mem_of_ne_of_mem (by nofun) hmem)

/-! ## 2. Runs that do not get in each other's way -/

/-- What is assigned in the one trace is neither read nor assigned in the other. -/
def Independent (trace trace' : List Access) : Prop :=
  (∀ name, .assign name ∈ trace → .read name ∉ trace' ∧ .assign name ∉ trace') ∧
    ∀ name, .assign name ∈ trace' → .read name ∉ trace

/-- **Two runs that are independent come to the same in either order**, and leave the same texts. -/
theorem Runs.swap (answers : store.Answers) {p p' : Plan} {s s₁ s₁' : Evaluator σ} {trace trace' : List Access}
    {r r' : Except Failure Int64} (h : Runs store p s trace r s₁) (h' : Runs store p' s trace' r' s₁')
    (hindependent : Independent trace trace') :
    ∃ s₂ s₂', Runs store p' s₁ trace' r' s₂ ∧ Runs store p s₁' trace r s₂' ∧
      ∀ name, store.lookup s₂.vars name = store.lookup s₂'.vars name := by
  obtain ⟨hforth, hback⟩ := hindependent
  obtain ⟨s₂, hs₂, hsame⟩ := h'.frame answers h.value.2 fun name hmem =>
    (h.untouched answers fun hassign => (hforth name hassign).1 hmem).symm
  obtain ⟨s₂', hs₂', hsame'⟩ := h.frame answers h'.value.2 fun name hmem =>
    (h'.untouched answers fun hassign => hback name hassign hmem).symm
  refine ⟨s₂, s₂', hs₂, hs₂', fun name => ?_⟩
  by_cases hmem : .assign name ∈ trace
  · -- The second run does not assign the variable, so it has what the first run gave it.
    rw [hs₂.untouched answers (hforth name hmem).2]
    exact hsame' name (.inr hmem)
  · rw [hs₂'.untouched answers hmem]
    refine (hsame name ?_).symm
    by_cases hmem' : .assign name ∈ trace'
    · exact .inr hmem'
    · exact .inl (h.untouched answers hmem).symm

/-! ## 3. The text in failures -/

/-- Two evaluations differ at most in how they fail. -/
def Eval.SameButFailures (x y : Eval σ α) : Prop :=
  ∀ s, (∃ a s', x.run s = (.ok a, s') ∧ y.run s = (.ok a, s')) ∨
    ∃ failure failure' s', x.run s = (.error failure, s') ∧ y.run s = (.error failure', s')

theorem Eval.sameButFailures_refl (x : Eval σ α) : SameButFailures x x := by
  intro s
  rcases hx : x.run s with ⟨_ | a, s'⟩
  · exact .inr ⟨_, _, s', rfl, rfl⟩
  · exact .inl ⟨a, s', rfl, rfl⟩

theorem Eval.SameButFailures.bind {x y : Eval σ α} {f g : α → Eval σ β} (h : SameButFailures x y)
    (hf : ∀ a, SameButFailures (f a) (g a)) : SameButFailures (x >>= f) (y >>= g) := by
  intro s
  rcases h s with ⟨a, s', hx, hy⟩ | ⟨failure, failure', s', hx, hy⟩
  · simp only [run_bind, hx, hy]
    exact hf a s'
  · simp only [run_bind, hx, hy]
    exact .inr ⟨failure, failure', s', rfl, rfl⟩

theorem BinaryOp.sameButFailures_apply (source source' : List Char) (op : BinaryOp) (l r : Int64) :
    Eval.SameButFailures (liftM (op.apply source l r) : Eval σ Int64) (liftM (op.apply source' l r)) := by
  have hguard : ∀ (p : Prop) [Decidable p] (failure failure' : Failure) (value : Int64),
      Eval.SameButFailures (liftM (if p then .error failure else .ok value : Except Failure Int64) : Eval σ Int64)
        (liftM (if p then .error failure' else .ok value : Except Failure Int64)) := by
    intro p _ failure failure' value s
    by_cases hp : p
    · rw [if_pos hp, if_pos hp]
      exact .inr ⟨failure, failure', s, rfl, rfl⟩
    · rw [if_neg hp, if_neg hp]
      exact .inl ⟨value, s, rfl, rfl⟩
  cases op with
  | div | rem | pow => exact hguard _ _ _ _
  | _ => exact Eval.sameButFailures_refl _

/-- The text that a tree was read from is only there to be shown. -/
theorem Expr.sameButFailures_eval (resolve : String → Eval σ Int64) (source source' : List Char) (e : Expr) :
    Eval.SameButFailures (e.eval store resolve source) (e.eval store resolve source') := by
  have hsame : ∀ x : Eval σ Int64, Eval.SameButFailures x x := Eval.sameButFailures_refl
  induction e with
  | number value => exact hsame _
  | «variable» name => exact hsame _
  | unary op operand ih => exact ih.bind fun _ => hsame _
  | binary op left right ihl ihr =>
    cases op with
    | and | or =>
      -- The right operand is read for some values of the left one only.
      refine ihl.bind fun l => ?_
      split
      · exact hsame _
      · exact ihr.bind fun _ => hsame _
    | _ => exact ihl.bind fun l => ihr.bind fun r => BinaryOp.sameButFailures_apply source source' _ l r
  | conditional condition ifTrue ifFalse ihc iht ihf =>
    refine ihc.bind fun value => ?_
    split
    · exact iht
    · exact ihf
  | assign op name value ih =>
    cases op with
    | none => exact ih.bind fun _ => hsame _
    | some op =>
      refine ih.bind fun r => (hsame _).bind fun l => ?_
      exact (BinaryOp.sameButFailures_apply source source' op l r).bind fun _ => hsame _
  | update step name before => exact hsame _
  | comma left right ihl ihr => exact ihl.bind fun _ => ihr

/-! ## 4. Compound assignments -/

/-- The value and the texts that are left are the same, or both evaluations have failed. -/
def Store.SameEnd (store : Store σ) : Except Failure Int64 × σ → Except Failure Int64 × σ → Prop
  | (.ok value, s), (.ok value', s') => value = value' ∧ ∀ name, store.lookup s name = store.lookup s' name
  | (.error _, _), (.error _, _) => True
  | _, _ => False

/-- From these variables, two calls do not get in each other's way. -/
def Store.Apart (store : Store σ) (s : σ) (c c' : Call) : Prop :=
  ∃ trace r s₁ trace' r' s₁', Runs store c.plan ⟨s, 0⟩ trace r s₁ ∧ Runs store c'.plan ⟨s, 0⟩ trace' r' s₁' ∧
    Independent trace trace'

/-- **A compound assignment is the assignment of what the operator makes of the value**, with the old value as it is
when the new one is known. -/
theorem Expr.eval_compound {op : BinaryOp} (hop : .assign (some op) ∈ Symbol.all) (resolve : String → Eval σ Int64)
    (source : List Char) (x : String) (e : Expr) :
    (Expr.assign (some op) x e).eval store resolve source = (do
      let value ← e.eval store resolve source
      (Expr.assign none x (.binary op (.variable x) (.number value))).eval store resolve source) := by
  refine bind_congr fun r => ?_
  show _ = ((Expr.binary op (.variable x) (.number r)).eval store resolve source >>= fun value => store.put x value)
  cases op with
  | and | or => exact absurd hop (by decide)
  | _ => exact (bind_assoc _ _ _).symm

theorem Store.SameEnd.of_sameButFailures {p : Except Failure Int64 × σ} {x y : Eval σ Int64} {s : σ}
    (h : store.SameEnd p (x.run s)) (hxy : Eval.SameButFailures x y) : store.SameEnd p (y.run s) := by
  rcases hxy s with ⟨value, s', hx, hy⟩ | ⟨failure, failure', s', hx, hy⟩
  · rwa [hy, ← hx]
  · rw [hx] at h
    rw [hy]
    rcases p with ⟨_ | _, _⟩
    · trivial
    · exact h.elim

theorem Store.Answers.sameEnd_put (answers : store.Answers) {s s' : σ}
    (h : ∀ name, store.lookup s name = store.lookup s' name) (name : String) (value : Int64) :
    store.SameEnd ((store.put name value).run s) ((store.put name value).run s') := by
  refine ⟨rfl, fun other => ?_⟩
  show store.lookup (store.assign s name (toString value.toInt)) other =
    store.lookup (store.assign s' name (toString value.toInt)) other
  rw [answers, answers, h other]

/-- The trees of `x op= e` and `x = x op e`, where `e` and `x` do not get in each other's way. -/
theorem Expr.sameEnd_compound (answers : store.Answers) {op : BinaryOp} (hop : .assign (some op) ∈ Symbol.all)
    {x : String} {e : Expr} {source : List Char} {s s₁ s₁' : Evaluator σ} {trace trace' : List Access}
    {r r' : Except Failure Int64} (he : Runs store (Call.tree source e).plan s trace r s₁)
    (hx : Runs store (Call.variable x).plan s trace' r' s₁') (hindependent : Independent trace trace') :
    let values := resolve store (maxDepth - s.depth)
    store.SameEnd (((Expr.assign (some op) x e).eval store values source).run s.vars)
      (((Expr.assign none x (.binary op (.variable x) e)).eval store values source).run s.vars) := by
  intro values
  obtain ⟨s₂, s₂', hx₂, he₂, hsame⟩ := he.swap answers hx hindependent
  -- `e` before `x`, as in the compound assignment.
  have hfirst : (e.eval store values source).run s.vars = (r, s₁.vars) := he.value_call.1
  have hsecond : (values x).run s₁.vars = (r', s₂.vars) := by
    have hvalue := hx₂.value_call.1
    rwa [he.value.2] at hvalue
  -- `x` before `e`, as in the other one.
  have hfirst' : (values x).run s.vars = (r', s₁'.vars) := hx.value_call.1
  have hsecond' : (e.eval store values source).run s₁'.vars = (r, s₂'.vars) := by
    have hvalue := he₂.value_call.1
    rwa [hx.value.2] at hvalue
  have hbinary : (Expr.binary op (.variable x) e).eval store values source = (do
      let l ← values x
      let r ← e.eval store values source
      liftM (op.apply source l r)) := by
    cases op with
    | and | or => exact absurd hop (by decide)
    | _ => rfl
  have hleft : ((Expr.assign (some op) x e).eval store values source).run s.vars = _ :=
    Eval.run_bind (e.eval store values source) _ s.vars
  have hright : ((Expr.assign none x (.binary op (.variable x) e)).eval store values source).run s.vars = _ :=
    Eval.run_bind ((Expr.binary op (.variable x) e).eval store values source) _ s.vars
  rw [hleft, hright, hbinary, hfirst, Eval.run_bind, hfirst']
  cases r with
  | error failure =>
    cases r' with
    | error failure' => trivial
    | ok l =>
      simp only [Eval.run_bind, hsecond']
      trivial
  | ok value =>
    cases r' with
    | error failure' =>
      simp only [Eval.run_bind, hsecond]
      trivial
    | ok l =>
      simp only [Eval.run_bind, hsecond, hsecond']
      cases op.apply source l value with
      | error failure => trivial
      | ok result => exact answers.sameEnd_put hsame x result

/-- **Compound assignment.** A text of the form `x op= e` comes to what `e` and then `x = x op v` come to, where `v` is
the value of `e`. It comes to what a text of the form `x = x op e` comes to, with the same texts in the variables,
or both fail, if evaluating `e` and reading `x` do not get in each other's way. -/
theorem compound_assignment (answers : store.Answers) {op : BinaryOp} (hop : .assign (some op) ∈ Symbol.all)
    {x : String} {e : Expr} {compound plain : List Char}
    (hcompound : parse compound = .ok (some (.assign (some op) x e)))
    (hplain : parse plain = .ok (some (.assign none x (.binary op (.variable x) e)))) (s : σ) :
    (evaluate store compound).run s = (do
        let value ← e.eval store (resolve store maxDepth) compound
        (Expr.assign none x (.binary op (.variable x) (.number value))).eval store (resolve store maxDepth)
          compound).run s ∧
      (store.Apart s (.tree compound e) (.variable x) →
        store.SameEnd ((evaluate store compound).run s) ((evaluate store plain).run s)) := by
  have hleft : (evaluate store compound).run s =
      ((Expr.assign (some op) x e).eval store (resolve store maxDepth) compound).run s := by
    rw [evaluate, evaluateWith_run, hcompound]
  have hright : (evaluate store plain).run s = ((Expr.assign none x (.binary op (.variable x) e)).eval store
      (resolve store maxDepth) plain).run s := by
    rw [evaluate, evaluateWith_run, hplain]
  constructor
  · rw [hleft, Expr.eval_compound hop]
  · rintro ⟨trace, r, s₁, trace', r', s₁', he, hx, hindependent⟩
    rw [hleft, hright]
    have hend := Expr.sameEnd_compound answers hop he hx hindependent
    exact hend.of_sameButFailures (Expr.sameButFailures_eval _ compound plain _)

/-- A variable whose text is blank or a constant is read and nothing else is done. So it is not in the way of a call
that does not assign it. -/
theorem Store.apart_of_constant {s : σ} {x : String} {c : Call} {trace : List Access} {r : Except Failure Int64}
    {s₁ : Evaluator σ} (h : Runs store c.plan ⟨s, 0⟩ trace r s₁) (hx : .assign x ∉ trace)
    (hvalue : let value := trim ((store.lookup s x).getD "").toList
      value = [] ∨ isConstant (value.dropWhile isSign) = true) : store.Apart s c (.variable x) := by
  have hplan : ∃ result, valuePlan x (trim ((store.lookup s x).getD "").toList) = .done result := by
    unfold valuePlan
    rcases hvalue with hempty | hconstant
    · exact ⟨_, if_pos (List.isEmpty_iff.mpr hempty)⟩
    · split
      · exact ⟨_, rfl⟩
      · exact ⟨_, if_pos hconstant⟩
  obtain ⟨result, hplan⟩ := hplan
  have hread : Runs store (Call.variable x).plan ⟨s, 0⟩ [.read x] result ⟨s, 0⟩ :=
    .read (by dsimp only; rw [hplan]; exact .done)
  refine ⟨trace, r, s₁, _, result, _, h, hread, ?_, ?_⟩
  · intro name hname
    refine ⟨fun hmem => ?_, by simp⟩
    obtain rfl := Access.read.inj (List.mem_singleton.mp hmem)
    exact hx hname
  · intro name hmem
    cases List.mem_singleton.mp hmem

/-- `x` is 1. -/
def oneInX : Table String := ⟨[("x", "1")]⟩

/-- `x += (y = 3)` and `x = x + (y = 3)` both set `y` to 3 and `x` to 4. -/
theorem compound_apart :
    tables.SameEnd ((evaluate tables "x += (y = 3)".toList).run oneInX)
        ((evaluate tables "x = x + (y = 3)".toList).run oneInX) ∧
      (evaluate tables "x += (y = 3)".toList).run oneInX = (.ok 4, ⟨[("x", "4"), ("y", "3")]⟩) := by
  have hcompound : parse "x += (y = 3)".toList =
      .ok (some (.assign (some .add) "x" (.assign none "y" (.number 3)))) := by decide +kernel
  have hplain : parse "x = x + (y = 3)".toList =
      .ok (some (.assign none "x" (.binary .add (.variable "x") (.assign none "y" (.number 3))))) := by
    decide +kernel
  have hvalue : @Eq (Except Failure Int64 × Table String)
      ((evaluate tables "x += (y = 3)".toList).run oneInX) (.ok 4, ⟨[("x", "4"), ("y", "3")]⟩) := by decide +kernel
  -- The run of `y = 3`, which assigns `y` and does nothing else.
  have hrun : Runs tables (Call.tree "x += (y = 3)".toList (.assign none "y" (.number 3))).plan ⟨oneInX, 0⟩
      ([] ++ [.assign "y"]) (.ok 3) ⟨tables.assign oneInX "y" (toString (3 : Int64).toInt), 0⟩ :=
    .call .done (.assign .done)
  have hapart : tables.Apart oneInX (.tree "x += (y = 3)".toList (.assign none "y" (.number 3))) (.variable "x") :=
    Store.apart_of_constant hrun (by simp) (.inr (by decide))
  exact ⟨(compound_assignment tables_answers (by decide) hcompound hplain oneInX).2 hapart, hvalue⟩

/-- In `x += (x = 5)` the variable is read when it has been set to 5, and in `x = x + (x = 5)` before. -/
theorem compound_disturbed :
    parse "x += (x = 5)".toList = .ok (some (.assign (some .add) "x" (.assign none "x" (.number 5)))) ∧
      parse "x = x + (x = 5)".toList =
        .ok (some (.assign none "x" (.binary .add (.variable "x") (.assign none "x" (.number 5))))) ∧
      (evaluate tables "x += (x = 5)".toList).run oneInX = (.ok 10, ⟨[("x", "10")]⟩) ∧
      (evaluate tables "x = x + (x = 5)".toList).run oneInX = (.ok 6, ⟨[("x", "6")]⟩) ∧
      ¬ tables.SameEnd ((evaluate tables "x += (x = 5)".toList).run oneInX)
        ((evaluate tables "x = x + (x = 5)".toList).run oneInX) := by
  have hcompound : @Eq (Except Failure Int64 × Table String)
      ((evaluate tables "x += (x = 5)".toList).run oneInX) (.ok 10, ⟨[("x", "10")]⟩) := by decide +kernel
  have hplain : @Eq (Except Failure Int64 × Table String)
      ((evaluate tables "x = x + (x = 5)".toList).run oneInX) (.ok 6, ⟨[("x", "6")]⟩) := by decide +kernel
  refine ⟨by decide +kernel, by decide +kernel, hcompound, hplain, ?_⟩
  rintro h
  rw [hcompound, hplain] at h
  exact absurd h.1 (by decide)

end Shell.Arithmetic
