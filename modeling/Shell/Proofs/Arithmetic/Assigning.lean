/-
What an evaluation does to the store.

An evaluation changes the store by assignments and by nothing else, so what every assignment keeps
is kept by every evaluation, whatever it comes to (`evaluate_moves`). The proof goes along the tree of
the expression, and for the values of variables, which are expressions again, along the depth that
they may have. It need only be kept by assignments to names of a kind, if expressions have no other names
(`Store.RespectsFor`).

Which variables it has assigned, and in what order, the store does not say. So a store is followed by one that
keeps a list besides (`Store.logged`). An evaluation goes the same way in both, because a store that
answers as another does and assigns as the other does cannot be told from it (`Store.Maps.evaluate`).
The list is then all that has happened: assigned in its order, it makes the store that was left of the
one that was found (`evaluate_logged`).
-/
import Shell.Arithmetic.Evaluation

set_option autoImplicit false

namespace Shell.Arithmetic

variable {σ τ α β : Type}

/-! ## 1. What every assignment keeps -/

/-- The store after an evaluation is related to that before it. -/
def Eval.Moves (R : σ → σ → Prop) (x : Eval σ α) : Prop := ∀ s, R s (x.run s).2

section

variable {R : σ → σ → Prop} {store : Store σ}

theorem Eval.moves_pure (refl : ∀ s, R s s) (a : α) : Moves R (pure a : Eval σ α) := refl

theorem Eval.moves_throw (refl : ∀ s, R s s) (e : Failure) : Moves R (throw e : Eval σ α) := refl

theorem Eval.moves_get (refl : ∀ s, R s s) : Moves R (get : Eval σ σ) := refl

theorem Eval.moves_liftM (refl : ∀ s, R s s) (r : Except Failure α) :
    Moves R (liftM r : Eval σ α) := by
  cases r <;> exact refl

theorem Eval.run_bind (x : Eval σ α) (f : α → Eval σ β) (s : σ) :
    (x >>= f).run s = match x.run s with
      | (.ok a, s') => (f a).run s'
      | (.error e, s') => (.error e, s') := by
  show (match x s with | (r, s') => ExceptT.bindCont f r s') = _
  rcases hr : x s with ⟨r, s'⟩
  have hr' : x.run s = (r, s') := hr
  rw [hr']
  cases r <;> rfl

theorem Eval.Moves.bind {x : Eval σ α} {f : α → Eval σ β}
    (trans : ∀ {s s₁ s'}, R s s₁ → R s₁ s' → R s s') (hx : Moves R x)
    (hf : ∀ a, Moves R (f a)) : Moves R (x >>= f) := by
  intro s
  have hs := hx s
  rw [run_bind]
  rcases hr : x.run s with ⟨r, s'⟩
  rw [hr] at hs
  cases r with
  | ok a => exact trans hs (hf a s')
  | error e => exact hs

/-- All names in a tree are of a kind. -/
def Expr.Names (P : String → Prop) : Expr → Prop
  | .number _ => True
  | .variable name => P name
  | .unary _ operand => operand.Names P
  | .binary _ left right => left.Names P ∧ right.Names P
  | .conditional condition ifTrue ifFalse => condition.Names P ∧ ifTrue.Names P ∧ ifFalse.Names P
  | .assign _ name value => P name ∧ value.Names P
  | .update _ name _ => P name
  | .comma left right => left.Names P ∧ right.Names P

theorem Expr.names_anyhow (e : Expr) : e.Names fun _ => True := by
  induction e <;> simp_all [Names]

/-- A relation that every assignment to a name of a kind keeps to, and that can be followed through several. -/
structure Store.RespectsFor (P : String → Prop) (store : Store σ) (R : σ → σ → Prop) : Prop where
  refl : ∀ s, R s s
  trans : ∀ {s s₁ s'}, R s s₁ → R s₁ s' → R s s'
  assign : ∀ s name value, P name → R s (store.assign s name value)

/-- A relation that every assignment keeps to, and that can be followed through several. -/
structure Store.Respects (store : Store σ) (R : σ → σ → Prop) : Prop where
  refl : ∀ s, R s s
  trans : ∀ {s s₁ s'}, R s s₁ → R s₁ s' → R s s'
  assign : ∀ s name value, R s (store.assign s name value)

namespace Store.RespectsFor

variable {P : String → Prop}

theorem put (h : store.RespectsFor P R) {name : String} (hname : P name) (value : Int64) :
    Eval.Moves R (store.put name value) :=
  Eval.Moves.bind h.trans (fun s => h.assign s name (toString value.toInt) hname) fun _ =>
    Eval.moves_pure h.refl _

/-- The value of a tree, if the values of variables keep to the relation. -/
theorem eval (h : store.RespectsFor P R) {resolve : String → Eval σ Int64}
    (hr : ∀ name, Eval.Moves R (resolve name)) (text : List Char) {e : Expr} (he : e.Names P) :
    Eval.Moves R (e.eval store resolve text) := by
  induction e with
  | number value => exact Eval.moves_pure h.refl value
  | «variable» name => exact hr name
  | unary op operand ih => exact (ih he).bind h.trans fun _ => Eval.moves_pure h.refl _
  | binary op left right ihl ihr =>
    have ihl := ihl he.1
    have ihr := ihr he.2
    have hboth : Eval.Moves R (do
        let l ← left.eval store resolve text
        let r ← right.eval store resolve text
        liftM (op.apply text l r)) :=
      ihl.bind h.trans fun _ => ihr.bind h.trans fun _ => Eval.moves_liftM h.refl _
    have htruth : Eval.Moves R (do
        return truth ((← right.eval store resolve text) != 0)) :=
      ihr.bind h.trans fun _ => Eval.moves_pure h.refl _
    cases op with
    -- The two logical operators may do without their right operand.
    | and =>
      refine ihl.bind h.trans fun l => ?_
      split
      · exact Eval.moves_pure h.refl 0
      · exact htruth
    | or =>
      refine ihl.bind h.trans fun l => ?_
      split
      · exact Eval.moves_pure h.refl 1
      · exact htruth
    | _ => exact hboth
  | conditional condition ifTrue ifFalse ihc iht ihf =>
    refine (ihc he.1).bind h.trans fun _ => ?_
    split
    · exact iht he.2.1
    · exact ihf he.2.2
  | assign op name value ih =>
    cases op with
    | none => exact (ih he.2).bind h.trans fun _ => h.put he.1 _
    | some op =>
      refine (ih he.2).bind h.trans fun _ => (hr name).bind h.trans fun _ => ?_
      exact (Eval.moves_liftM h.refl _).bind h.trans fun _ => h.put he.1 _
  | update step name before =>
    refine (hr name).bind h.trans fun _ => (h.put he _).bind h.trans fun _ => ?_
    split <;> exact Eval.moves_pure h.refl _
  | comma left right ihl ihr => exact (ihl he.1).bind h.trans fun _ => ihr he.2

theorem evaluateWith (h : store.RespectsFor P R)
    (hnames : ∀ text e, Arithmetic.parse text = .ok (some e) → e.Names P) {resolve : String → Eval σ Int64}
    (hr : ∀ name, Eval.Moves R (resolve name)) (text : List Char) :
    Eval.Moves R (evaluateWith store resolve text) := by
  intro s
  unfold Arithmetic.evaluateWith
  cases hp : Arithmetic.parse text with
  | error e => exact h.refl s
  | ok tree =>
    cases tree with
    | none => exact h.refl s
    | some e => exact h.eval hr text (hnames text e hp) s

/-- The value of a text that a variable has, if one that is no constant is left to `deeper`. -/
theorem value (h : store.RespectsFor P R) (value : List Char) {deeper : Eval σ Int64}
    (hd : Eval.Moves R deeper) :
    Eval.Moves R (if value.isEmpty then pure 0
      else if isConstant (value.dropWhile fun c => c == '+' || c == '-') then do
        let n ← liftM (readConstant (value.dropWhile fun c => c == '+' || c == '-'))
        return if value.head? = some '-' then -n else n
      else deeper) := by
  split
  · exact Eval.moves_pure h.refl 0
  · split
    · exact (Eval.moves_liftM h.refl _).bind h.trans fun _ => Eval.moves_pure h.refl _
    · exact hd

theorem resolve (h : store.RespectsFor P R)
    (hnames : ∀ text e, Arithmetic.parse text = .ok (some e) → e.Names P) (depth : Nat) (name : String) :
    Eval.Moves R (resolve store depth name) := by
  induction depth generalizing name with
  | zero =>
    unfold Arithmetic.resolve
    exact (Eval.moves_get h.refl).bind h.trans fun s => h.value _ (Eval.moves_throw h.refl _)
  -- The text is an expression, which has one level less to go.
  | succ depth ih =>
    unfold Arithmetic.resolve
    exact (Eval.moves_get h.refl).bind h.trans fun s => h.value _ (h.evaluateWith hnames ih _)

/-- **An evaluation only assigns**, and only names that occur in expressions. -/
theorem evaluate_moves (h : store.RespectsFor P R)
    (hnames : ∀ text e, Arithmetic.parse text = .ok (some e) → e.Names P) (text : List Char) (s : σ) :
    R s ((evaluate store text).run s).2 :=
  h.evaluateWith hnames (h.resolve hnames maxDepth) text s

end Store.RespectsFor

namespace Store.Respects

theorem toFor (h : store.Respects R) (P : String → Prop) : store.RespectsFor P R :=
  ⟨h.refl, h.trans, fun s name value _ => h.assign s name value⟩

/-- What all assignments keep is kept. -/
theorem evaluate_moves (h : store.Respects R) (text : List Char) (s : σ) :
    R s ((evaluate store text).run s).2 :=
  (h.toFor fun _ => True).evaluate_moves (fun _ e _ => e.names_anyhow) text s

end Store.Respects

end

/-! ## 2. Two stores -/

/-- The evaluation `y` does in the store `φ s` what `x` does in `s`. -/
def Eval.Follows (φ : σ → τ) (x : Eval σ α) (y : Eval τ α) : Prop :=
  ∀ s, y.run (φ s) = ((x.run s).1, φ (x.run s).2)

section

variable {φ : σ → τ}

theorem Eval.follows_pure (a : α) : Follows φ (pure a : Eval σ α) (pure a) := fun _ => rfl

theorem Eval.follows_throw (e : Failure) : Follows φ (throw e : Eval σ α) (throw e) := fun _ => rfl

theorem Eval.follows_liftM (r : Except Failure α) :
    Follows φ (liftM r : Eval σ α) (liftM r) := by
  intro s
  cases r <;> rfl

theorem Eval.Follows.bind {x : Eval σ α} {y : Eval τ α} {f : α → Eval σ β} {g : α → Eval τ β}
    (h : Follows φ x y) (hf : ∀ a, Follows φ (f a) (g a)) : Follows φ (x >>= f) (y >>= g) := by
  intro s
  rw [run_bind, run_bind, h s]
  rcases x.run s with ⟨r, s'⟩
  cases r with
  | ok a => exact hf a s'
  | error e => rfl

/-- What is made of the store itself may only depend on what both have in common. -/
theorem Eval.follows_get {f : σ → Eval σ α} {g : τ → Eval τ α}
    (h : ∀ s, Follows φ (f s) (g (φ s))) :
    Follows φ ((get : Eval σ σ) >>= f) ((get : Eval τ τ) >>= g) := fun s => h s s

theorem Eval.Follows.ite {p : Prop} [Decidable p] {x x' : Eval σ α} {y y' : Eval τ α}
    (h : Follows φ x y) (h' : Follows φ x' y') :
    Follows φ (if p then x else x') (if p then y else y') := by
  split
  · exact h
  · exact h'

/-- The second store answers as the first does, and assigns as the first does. -/
structure Store.Maps (φ : σ → τ) (store : Store σ) (store' : Store τ) : Prop where
  lookup : ∀ s name, store'.lookup (φ s) name = store.lookup s name
  assign : ∀ s name value, store'.assign (φ s) name value = φ (store.assign s name value)

namespace Store.Maps

variable {store : Store σ} {store' : Store τ}

open Eval

theorem put (h : store.Maps φ store') (name : String) (value : Int64) :
    Follows φ (store.put name value) (store'.put name value) := by
  have hassign : Follows φ (modify fun s => store.assign s name (toString value.toInt) : Eval σ PUnit)
      (modify fun s => store'.assign s name (toString value.toInt)) :=
    fun s => congrArg (fun t => (Except.ok PUnit.unit, t)) (h.assign s name (toString value.toInt))
  exact hassign.bind fun _ => follows_pure _

theorem eval (h : store.Maps φ store') {resolve : String → Eval σ Int64}
    {resolve' : String → Eval τ Int64} (hr : ∀ name, Follows φ (resolve name) (resolve' name))
    (text : List Char) (e : Expr) :
    Follows φ (e.eval store resolve text) (e.eval store' resolve' text) := by
  induction e with
  | number value => exact follows_pure value
  | «variable» name => exact hr name
  | unary op operand ih => exact ih.bind fun _ => follows_pure _
  | binary op left right ihl ihr =>
    cases op with
    -- The two logical operators may do without their right operand.
    | and => exact ihl.bind fun _ => (follows_pure 0).ite (ihr.bind fun _ => follows_pure _)
    | or => exact ihl.bind fun _ => (follows_pure 1).ite (ihr.bind fun _ => follows_pure _)
    | _ => exact ihl.bind fun _ => ihr.bind fun _ => follows_liftM _
  | conditional condition ifTrue ifFalse ihc iht ihf => exact ihc.bind fun _ => iht.ite ihf
  | assign op name value ih =>
    cases op with
    | none => exact ih.bind fun _ => h.put _ _
    | some op =>
      exact ih.bind fun _ => (hr name).bind fun _ => (follows_liftM _).bind fun _ => h.put _ _
  | update step name before =>
    exact (hr name).bind fun _ => (h.put _ _).bind fun _ => follows_pure _
  | comma left right ihl ihr => exact ihl.bind fun _ => ihr

theorem evaluateWith (h : store.Maps φ store') {resolve : String → Eval σ Int64}
    {resolve' : String → Eval τ Int64} (hr : ∀ name, Follows φ (resolve name) (resolve' name))
    (text : List Char) :
    Follows φ (evaluateWith store resolve text) (evaluateWith store' resolve' text) := by
  refine (follows_liftM (parse text)).bind fun tree => ?_
  cases tree with
  | none => exact follows_pure 0
  | some e => exact h.eval hr text e

/-- The value of a variable, whose text both stores have. -/
theorem resolve (h : store.Maps φ store') (depth : Nat) (name : String) :
    Follows φ (resolve store depth name) (resolve store' depth name) := by
  induction depth generalizing name with
  | zero =>
    unfold Arithmetic.resolve
    refine follows_get fun s => ?_
    rw [h.lookup]
    exact (follows_pure 0).ite
      (((follows_liftM _).bind fun _ => follows_pure _).ite (follows_throw _))
  | succ depth ih =>
    unfold Arithmetic.resolve
    refine follows_get fun s => ?_
    rw [h.lookup]
    exact (follows_pure 0).ite
      (((follows_liftM _).bind fun _ => follows_pure _).ite (h.evaluateWith ih _))

/-- **Evaluations cannot tell such stores apart.** -/
theorem evaluate (h : store.Maps φ store') (text : List Char) :
    Follows φ (evaluate store text) (evaluate store' text) :=
  h.evaluateWith (h.resolve maxDepth) text

end Store.Maps

end

/-! ## 3. A store with a list -/

/-- A store together with the assignments that have been made in it, in their order. -/
def Store.logged (store : Store σ) : Store (σ × List (String × String)) where
  lookup s name := store.lookup s.1 name
  assign s name value := (store.assign s.1 name value, s.2 ++ [(name, value)])

/-- A store after assignments, in their order. -/
def Store.assignAll (store : Store σ) (s : σ) (log : List (String × String)) : σ :=
  log.foldl (fun s entry => store.assign s entry.1 entry.2) s

/-- The assignments that an evaluation makes. -/
def assignments (store : Store σ) (text : List Char) (s : σ) : List (String × String) :=
  ((evaluate store.logged text).run (s, [])).2.2

theorem Store.maps_logged (store : Store σ) : store.logged.Maps Prod.fst store where
  lookup _ _ := rfl
  assign _ _ _ := rfl

/-- What is on the list has been assigned. -/
theorem Store.respects_logged (store : Store σ) : store.logged.Respects fun s s' =>
    ∃ log, s'.2 = s.2 ++ log ∧ s'.1 = store.assignAll s.1 log where
  refl s := ⟨[], (List.append_nil _).symm, rfl⟩
  trans := by
    rintro s s₁ s' ⟨log, hl, hs⟩ ⟨log', hl', hs'⟩
    refine ⟨log ++ log', by rw [hl', hl, List.append_assoc], ?_⟩
    rw [hs', hs, assignAll, assignAll, assignAll, List.foldl_append]
  assign s name value := ⟨[(name, value)], rfl, rfl⟩

/-- **An evaluation leaves the store that its assignments make.** -/
theorem evaluate_logged (store : Store σ) (text : List Char) (s : σ) :
    ((evaluate store text).run s).2 = store.assignAll s (assignments store text s) := by
  obtain ⟨log, hlog, hs⟩ := store.respects_logged.evaluate_moves text (s, [])
  have hsame := congrArg Prod.snd (store.maps_logged.evaluate text (s, []))
  rw [List.nil_append] at hlog
  exact hsame.trans (hs.trans (congrArg (store.assignAll s) hlog.symm))

end Shell.Arithmetic
