/-
How often a loop goes around.

A loop is cut into laps: what it does once, after which it is over or goes on with a status (`Lap`). `laps`
runs some laps and then `rest`, which is not run if one of them ends the loop. A loop of which the next
rounds are not allowed is such a series with a failure for `rest`, and one that may go on is the
same series with the further rounds for `rest`. So a limit changes nothing before the place at which the
next round would start, and there it stops the loop, whatever the code in the loop does.

What counts as a round is not the same for all loops. A loop over words may start its body as often
as the limit says, and fails if there is a word left then. A loop with a condition may evaluate its
condition as often, also where that uses `continue` and the body does not run. So it never learns that it
is over after as many bodies: it fails where the condition would have said so (`onceScript_exceeds`).
-/
import Shell.Proofs.Script.Lines
import Shell.Session

set_option autoImplicit false

namespace Shell.Execution

/-! ## 1. Laps

Both kinds of loops do the same after a round: they go on, or they are over with some outcome. With this taken out
of the loops, what is to be shown of them is shown once. -/

/-- What has become of a loop after one lap. -/
inductive Lap where
  /-- It ends with an outcome. -/
  | over (outcome : Outcome)
  /-- It goes on, after a status. -/
  | again (status : Nat)
  deriving DecidableEq, Repr

/-- What the code in a loop makes of it: a status is `status` if the code leaves the loop or goes on
with the next round, and that of the code otherwise. -/
def Lap.ofOutcome (status : Nat) (outcome : Outcome) : Lap :=
  match Reaction.ofOutcome outcome with
  | .pass outcome => .over outcome
  | .stop => .over (.status status)
  | .next => .again status
  | .status code => .again code

/-- Laps one after the other, and `rest` after the last one, unless the loop is over before. -/
def laps (rest : Nat → Exec Outcome) : List (Nat → Exec Lap) → (status : Nat) → Exec Outcome
  | [], status => rest status
  | lap :: more, status => do
    match ← lap status with
    | .over outcome => return outcome
    | .again status => laps rest more status

/-- One round of a loop with a condition: the condition is evaluated, and the body runs if it says so. -/
def round (run : Runner) (kind : LoopKind) (condition body : Sequence) (status : Nat) : Exec Lap := do
  match Reaction.ofOutcome (← run condition) with
  | .pass outcome => return .over outcome
  | .stop => return .over (.status status)
  | .next => return .again status
  | .status code =>
    if goesOn kind code then return Lap.ofOutcome 0 (← run body) else return .over (.status status)

/-- One round of a loop over words: the name gets a word, and the body runs. -/
def roundOver (run : Runner) (name : String) (body : Sequence) (word : String) (_ : Nat) : Exec Lap := do
  Exec.modifyEnv fun env => env.set name word
  return Lap.ofOutcome 0 (← run body)

variable (run : Runner) (kind : LoopKind) (name : String) (condition body : Sequence)
  {c : Context} {s : State}

/-- What the code of a loop comes to decides about the lap. -/
theorem laps_ofOutcome (x : Exec Outcome) (rest : Nat → Exec Outcome) (status : Nat) :
    laps rest [fun _ => do return Lap.ofOutcome status (← x)] status = (do
      match Reaction.ofOutcome (← x) with
      | .pass outcome => return outcome
      | .stop => return .status status
      | .next => rest status
      | .status code => rest code) := by
  refine (Exec.bind_assoc x _ _).trans (congrArg (x >>= ·) (funext fun outcome => ?_))
  show (match Lap.ofOutcome status outcome with
    | .over outcome => (return outcome : Exec Outcome)
    | .again status => rest status) = _
  unfold Lap.ofOutcome
  cases Reaction.ofOutcome outcome <;> rfl

/-- The first of the rounds that are left is a lap. -/
theorem rounds_succ (left status : Nat) :
    rounds run kind condition body (left + 1) status =
      laps (rounds run kind condition body left) [round run kind condition body] status := by
  refine Eq.trans (congrArg (run condition >>= ·) (funext fun outcome => ?_))
    (Exec.bind_assoc (run condition) _ _).symm
  cases Reaction.ofOutcome outcome with
  | pass passed => rfl
  | stop => rfl
  | next => rfl
  | status code =>
    -- The condition has given a status: there is another round, or the loop is over.
    by_cases hgoes : goesOn kind code = true
    · simp only [if_pos hgoes]
      exact (laps_ofOutcome (run body) (rounds run kind condition body left) 0).symm
    · simp only [if_neg hgoes]
      rfl

/-- The first of the words is a lap. -/
theorem roundsOver_cons (word : String) (words : List String) (left status : Nat) :
    roundsOver run name body (word :: words) (left + 1) status =
      laps (roundsOver run name body words left) [roundOver run name body word] status := by
  refine Eq.trans (congrArg (Exec.modifyEnv (fun env => env.set name word) >>= ·) (funext fun _ => ?_))
    (Exec.bind_assoc (Exec.modifyEnv _) _ _).symm
  exact (laps_ofOutcome (run body) (roundsOver run name body words left) 0).symm

/-! ## 2. Cutting a loop

A loop is its first rounds and then the loop that is left, which starts in the state that those rounds have come to.
-/

/-- A lap more is run before the others. -/
theorem laps_cons (rest : Nat → Exec Outcome) (lap : Nat → Exec Lap) (more : List (Nat → Exec Lap))
    (status : Nat) : laps rest (lap :: more) status = laps (laps rest more) [lap] status := rfl

/-- **A loop with a condition can be cut after any number of its rounds.** -/
theorem rounds_add (m more status : Nat) :
    rounds run kind condition body (m + more) status =
      laps (rounds run kind condition body more)
        (.replicate m (round run kind condition body)) status := by
  induction m generalizing status with
  | zero => rw [Nat.zero_add, List.replicate_zero, laps]
  | succ m ih =>
    rw [Nat.add_right_comm, rounds_succ, List.replicate_succ, laps_cons]
    exact congrArg (fun rest => laps rest [round run kind condition body] status) (funext ih)

/-- **A loop over words can be cut after any number of its words.** -/
theorem roundsOver_append (words others : List String) (more status : Nat) :
    roundsOver run name body (words ++ others) (words.length + more) status =
      laps (roundsOver run name body others more) (words.map (roundOver run name body)) status := by
  induction words generalizing status with
  | nil => rw [List.nil_append, List.length_nil, Nat.zero_add, List.map_nil, laps]
  | cons word words ih =>
    rw [List.cons_append, List.length_cons, Nat.add_right_comm, roundsOver_cons, List.map_cons, laps_cons]
    exact congrArg (fun rest => laps rest [roundOver run name body word] status) (funext ih)

/-! ## 3. The limit

Cut where the limit is, the loop is as many rounds as the limit allows and then what comes after them: an error, or
for words that have run out, the end of the loop. -/

/-- Fails because a loop would have to go around more than `limit` times. -/
def exceed (loop : String) (limit : Int) (_ : Nat) : Exec Outcome :=
  Exec.abort (.limit (.iterations loop limit))

/-- What comes after as many words as a limit allows: the loop is over if they were all. -/
def afterWords (words : List String) (limit : Int) (status : Nat) : Exec Outcome :=
  if words.length ≤ limit.toNat then return .status status else exceed "for" limit status

/-- Gets the words of a loop, and goes on with them. -/
def forWords (words : Option (List Word)) (go : List String → Exec Outcome) : Exec Outcome := do
  match words with
  | none => go (← Exec.env).args
  | some words =>
    match ← Exec.attempt (Expansion.fields run words) with
    | .ok values => go values
    | .error e =>
      Exec.diagnose e.message
      return .status 1

/-- What follows some laps need only be the same in the context of the loop. -/
theorem laps_congr {rest rest' : Nat → Exec Outcome} (h : ∀ status, rest status c = rest' status c)
    (l : List (Nat → Exec Lap)) (status : Nat) : laps rest l status c = laps rest' l status c := by
  induction l generalizing status with
  | nil => exact h status
  | cons lap more ih =>
    funext s next
    refine congrArg (lap status c s) (funext fun r => funext fun s' => ?_)
    -- Only a lap that asks for another comes to what follows it.
    cases r with
    | error abort => rfl
    | ok lap =>
      cases lap with
      | «over» outcome => rfl
      | again status => exact congrFun (congrFun (ih status) s') next

/-- Code that is the same in this context is the same in a loop. -/
theorem inLoop_congr {x y : Exec Outcome} (h : x c = y c) : inLoop x c = inLoop y c := by
  funext s next
  show x c _ _ = y c _ _
  rw [h]

/-- A loop over words is the same if its rounds are, for whatever words come out. -/
theorem forWords_congr {go go' : List String → Exec Outcome} (words : Option (List Word))
    (h : ∀ values, go values c = go' values c) : forWords run words go c = forWords run words go' c := by
  funext s next
  cases words with
  | none => exact congrFun (congrFun (h s.env.args) s) next
  | some words =>
    unfold forWords
    simp only
    refine congrArg (Exec.attempt (Expansion.fields run words) c s) (funext fun r => funext fun s' => ?_)
    cases r with
    | error abort => rfl
    | ok result =>
      -- The fields are there, or expanding them has failed and no round is made.
      cases result with
      | error e => rfl
      | ok values => exact congrFun (congrFun (h values) s') next

/-- A loop over words can be cut after as many of them as there are, or as `m`. -/
theorem roundsOver_add (words : List String) (m more status : Nat) :
    roundsOver run name body words (m + more) status =
      laps (roundsOver run name body (words.drop m) more)
        ((words.take m).map (roundOver run name body)) status := by
  by_cases hle : m ≤ words.length
  · have hcut := roundsOver_append run name body (words.take m) (words.drop m) more status
    rwa [List.take_append_drop, List.length_take_of_le hle] at hcut
  · -- There are rounds left when there are no more words, and nothing is made of them.
    obtain ⟨spare, rfl⟩ := Nat.exists_eq_add_of_le (Nat.le_of_not_le hle)
    have hcut := roundsOver_append run name body words [] (spare + more) status
    rw [List.append_nil, ← Nat.add_assoc] at hcut
    rw [hcut, List.drop_eq_nil_of_le (Nat.le_add_right _ _), List.take_of_length_le (Nat.le_add_right _ _)]
    rfl

/-- **A limit stops a loop where its next round would start, and changes nothing before.** Of a loop with a
condition, as many rounds run as the limit says, if none of them ends it; then it fails, where with a higher
limit the condition would be evaluated once more. Of a loop over words, as many words get their round;
then it fails if there is a word left, where with a higher limit the name would get that word,
and otherwise it is over. -/
theorem loops_stopAtLimit (c : Context) :
    let limit := c.limits.maxLoopIterations
    (∀ kind condition body,
      loop run kind condition body c =
          inLoop (laps (exceed (kindName kind) limit)
            (.replicate limit.toNat (round run kind condition body)) 0) c ∧
        ∀ more, rounds run kind condition body (limit.toNat + more) 0 =
          laps (rounds run kind condition body more)
            (.replicate limit.toNat (round run kind condition body)) 0) ∧
    ∀ name words body,
      each run name words body c =
          forWords run words (fun values => inLoop (laps (afterWords values limit)
            ((values.take limit.toNat).map (roundOver run name body)) 0)) c ∧
        ∀ values more, roundsOver run name body values (limit.toNat + more) 0 =
          laps (roundsOver run name body (values.drop limit.toNat) more)
            ((values.take limit.toNat).map (roundOver run name body)) 0 := by
  intro limit
  refine ⟨fun kind condition body => ⟨?_, fun more => rounds_add run kind condition body _ more 0⟩,
    fun name words body => ⟨?_, fun values more => roundsOver_add run name body values _ more 0⟩⟩
  · show inLoop (rounds run kind condition body limit.toNat 0) c = _
    -- As many rounds as the limit allows, and no more after them.
    have hcut := rounds_add run kind condition body limit.toNat 0 0
    rw [Nat.add_zero] at hcut
    have hexceed (status : Nat) :
        rounds run kind condition body 0 status c = exceed (kindName kind) limit status c := rfl
    exact inLoop_congr ((congrFun hcut c).trans (laps_congr hexceed _ 0))
  · have hwords : each run name words body =
        forWords run words (fun values => do inLoop (roundsOver run name body values (← maxRounds) 0)) := by
      cases words <;> rfl
    rw [hwords]
    refine forWords_congr run words fun values => ?_
    show inLoop (roundsOver run name body values limit.toNat 0) c = _
    have hcut := roundsOver_add run name body values limit.toNat 0 0
    rw [Nat.add_zero] at hcut
    refine inLoop_congr ((congrFun hcut c).trans (laps_congr (fun status => ?_) _ 0))
    -- The loop is over if no word is left, and else one word too many has come.
    unfold afterWords
    split
    · next hle =>
      rw [List.drop_eq_nil_of_le hle]
      rfl
    · next hlt =>
      obtain ⟨word, rest, hrest⟩ := List.exists_cons_of_ne_nil (l := values.drop limit.toNat)
        fun hnil => hlt (List.drop_eq_nil_iff.mp hnil)
      rw [hrest]
      rfl

/-- `while ((i < 1)); do ((i = i + 1)); done`. -/
def onceScript : Sequence :=
  let arithmetic (text : String) : Sequence :=
    ⟨[⟨⟨false, .arithmetic 1 ⟨1, [.literal text]⟩, []⟩, []⟩]⟩
  ⟨[⟨⟨false, .loop 1 .while (arithmetic "i < 1") (arithmetic "i = i + 1"), []⟩, []⟩]⟩

/-- With a limit of one round, the condition is not evaluated once more after the only round that it
allows. -/
theorem onceScript_exceeds :
    parse "while ((i < 1)); do ((i = i + 1)); done" = .ok onceScript ∧
      (let completion := ({ limits := { maxLoopIterations := 2 } } : Session).runScript onceScript (.ofText "")
       completion.errors = "" ∧ completion.env.get? "i" = some "1") ∧
      let completion := ({ limits := { maxLoopIterations := 1 } } : Session).runScript onceScript (.ofText "")
      completion.errors = "minish: while loop: too many iterations (1)\n" ∧
        completion.env.get? "i" = some "1" := by
  refine ⟨?_, by decide +kernel, by decide +kernel⟩
  rw [parse, parseFrom_eq_parseWithin]
  cbv

end Shell.Execution
