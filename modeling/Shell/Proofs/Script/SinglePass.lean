/-
A parser passes each token once.

The limit on the steps of a parser shows how many tokens it passes, also where it fails: the run is stopped exactly if
there are fewer steps left. What the grammar says of a parser at two places (`Parser.script_goes`) is said here of the
same tokens with two bounds for the loops, and of any steps before. Nothing is asked of the tokens: those of a text are
sound, but a parser passes others as it passes these.
-/
import Shell.Proofs.Script.Substitutions

set_option autoImplicit false

namespace Shell

/-! ## 1. The reader of sources -/

/-- The reader of the sources of substitutions: the script in a source, whatever its length. -/
def readSource : SourceReader := fun source place => parseFrom place source.toList

/-- Any tokens, whether they are those of a text or not, and readers that fail at mistakes only. -/
def Pairing.ofTokens : Pairing := ⟨True, False, 0, True⟩

/-- Two readings of a source come to the same script or mistake, also of a source that is in no text. -/
theorem readSource_agrees : Pairing.ofTokens.Readers readSource readSource := fun _ _ _ =>
  parseAt_agrees (Nat.lt_succ_self _) (Nat.lt_succ_self _)

/-- **Every script is read by a parser that runs over its tokens**, and so are the sources of substitutions in it. -/
theorem parseFrom_eq (origin : Place) (text : List Char) :
    parseFrom origin text = tokenize text origin >>= parseTokens readSource := by
  have hread : (Pairing.ofText True text.length).Readers readSource
      (fun source place => parseAt text.length place source.toList) := by
    intro source place hlength
    rw [← String.length_toList] at hlength
    exact parseAt_agrees (Nat.lt_succ_self _) (hlength trivial)
  unfold parseFrom parseAt
  cases ht : tokenize text origin with
  | error e =>
    -- No reader is asked behind a mistake, so the two need not be compared.
    show Except.error e = Except.error e
    rfl
  | ok tokens =>
    obtain ⟨inside, stop, rfl, hsound⟩ := tokenize_isSound ht
    exact (parseTokens_agrees hread hsound stop).eq

/-! ## 2. Steps and tokens -/

/-- How the parser runs over tokens with the end of the input behind them. It passes some of them and leaves the others,
and comes to a script or a mistake. -/
structure SinglePass (inside : List Token) (stop : Place) (passed left : List Token)
    (outcome : Except ScriptError Sequence) : Prop where
  tokens : passed ++ left = inside
  parses : parseTokens readSource (inside ++ [⟨.endOfInput, stop⟩]) = outcome
  /-- There are as many steps as tokens that are passed, whatever the run comes to: it comes to the limit if fewer steps
  are left. So none is made at the end of the input. The bound makes no difference to the loops. -/
  counts : ∀ bound steps, inside.length < bound → steps ≤ maxSteps →
    Parser.script readSource ⟨inside, stop, bound, steps⟩ =
      if steps + passed.length ≤ maxSteps then
        outcome.map fun sequence => (sequence, ⟨left, stop, bound, steps + passed.length⟩)
      else .error ⟨.tooManySteps, ⟨0, 0⟩⟩
  inTime : ∀ e, outcome = .error e → e.cause ≠ .tooManySteps
  /-- A script is all of the tokens. -/
  whole : ∀ sequence, outcome = .ok sequence → left = []

/-- With another bound for its loops the parser passes as many tokens, and comes to the same. -/
theorem script_passes_both {inside : List Token} (hinside : ∀ token ∈ inside, token.lexeme ≠ .endOfInput)
    (stop : Place) {bound : Nat} (hbound : inside.length < bound) :
    ∃ n outcome, n ≤ inside.length ∧ (∀ e, outcome = .error e → e.IsMistake) ∧
      (∀ sequence, outcome = .ok sequence → inside.drop n = []) ∧
      (Parser.script readSource).Passes (.start inside stop) n outcome ∧
        (Parser.script readSource).Passes ⟨inside, stop, bound, 0⟩ n outcome := by
  have htwin : Twin Pairing.ofTokens inside.length inside.length (.start inside stop) ⟨inside, stop, bound, 0⟩ :=
    ⟨List.prefix_refl _, fun _ => ⟨rfl, rfl⟩, hinside, False.elim, Nat.le_refl _, Nat.le_refl _, Nat.lt_succ_self _,
      hbound⟩
  cases Parser.script_goes readSource_agrees htwin with
  | @ok sequence n passes le value used passes' =>
    exact ⟨n, .ok sequence, le, nofun, fun _ _ => value.2, passes, passes' (.inl trivial)⟩
  | @error e n passes le mistake passes' =>
    exact ⟨n, .error e, le, by rintro _ ⟨⟩; exact mistake trivial, nofun, passes, passes' trivial⟩

/-- The tokens that a script is read from, or found to be none. There are as many for all bounds that are large enough,
since each run is compared with the one from the start. -/
theorem script_passes {inside : List Token} (hinside : ∀ token ∈ inside, token.lexeme ≠ .endOfInput)
    (hlength : inside.length ≤ maxSteps) (stop : Place) :
    ∃ n outcome, n ≤ inside.length ∧ (∀ e, outcome = .error e → e.IsMistake) ∧
      (∀ sequence, outcome = .ok sequence → inside.drop n = []) ∧
      ∀ bound, inside.length < bound →
        (Parser.script readSource).Passes ⟨inside, stop, bound, 0⟩ n outcome := by
  obtain ⟨n, outcome, hle, hmistake, hwhole, hstart, -⟩ := script_passes_both hinside stop (Nat.lt_succ_self _)
  refine ⟨n, outcome, hle, hmistake, hwhole, fun bound hbound => ?_⟩
  obtain ⟨m, outcome', hle', hmistake', -, hstart', hpasses⟩ := script_passes_both hinside stop hbound
  obtain ⟨rfl, rfl⟩ := hstart.unique hstart' (Nat.le_trans hle hlength) (Nat.le_trans hle' hlength) hmistake hmistake'
  exact hpasses

/-- **The parser passes each token at most once**, whatever the tokens are, if there are no more than it takes and the
end of the input is the last of them only. It takes one step for each token that it passes, none at the end of the
input, and never comes to the limit for its steps. If it finds a script, it has passed all tokens before the end. -/
theorem parser_passes_once {inside : List Token} (hinside : ∀ token ∈ inside, token.lexeme ≠ .endOfInput)
    (hlength : inside.length < maxTokens) (stop : Place) :
    ∃ passed left outcome, SinglePass inside stop passed left outcome := by
  have hmax : maxTokens ≤ maxSteps := by decide
  obtain ⟨n, outcome, hle, hmistake, hwhole, hpasses⟩ := script_passes hinside (by omega) stop
  have hpassed : (inside.take n).length = n := List.length_take_of_le hle
  have hstart : Parser.script readSource (.start inside stop) =
      outcome.map fun sequence => (sequence, ⟨inside.drop n, stop, inside.length + 1, 0 + n⟩) :=
    (hpasses _ (Nat.lt_succ_self _) 0 (Nat.zero_le _)).trans (if_pos (by omega))
  refine ⟨inside.take n, inside.drop n, outcome, List.take_append_drop n inside, ?_, ?_, hmistake, hwhole⟩
  · rw [parseTokens_eq _ stop hlength, hstart]
    cases outcome <;> rfl
  · intro bound steps hbound hsteps
    rw [hpassed]
    exact hpasses bound hbound steps hsteps

/-- The tokens of a choice that breaks off behind its keyword. -/
def brokenChoice : List Token := [⟨.reserved .if, ⟨1, 1⟩⟩, ⟨.newline, ⟨1, 3⟩⟩]

/-- A run that fails passes tokens once as well: both of these, before the commands are missed that should follow. -/
theorem brokenChoice_passed : (∀ token ∈ brokenChoice, token.lexeme ≠ .endOfInput) ∧
    brokenChoice.length < maxTokens ∧
    SinglePass brokenChoice ⟨2, 1⟩ brokenChoice []
      (.error ⟨.unexpected .endOfInput (some "commands after 'if'"), ⟨2, 1⟩⟩) := by
  have hinside : ∀ token ∈ brokenChoice, token.lexeme ≠ .endOfInput := by simp [brokenChoice]
  have hlength : brokenChoice.length < maxTokens := Nat.lt_of_lt_of_le (Nat.lt_succ_self 2) (by decide)
  obtain ⟨passed, left, outcome, h⟩ := parser_passes_once hinside hlength ⟨2, 1⟩
  have houtcome : parseTokens readSource (brokenChoice ++ [⟨.endOfInput, ⟨2, 1⟩⟩]) =
      .error ⟨.unexpected .endOfInput (some "commands after 'if'"), ⟨2, 1⟩⟩ := by rfl
  obtain rfl := h.parses.symm.trans houtcome
  -- A run with one step left is stopped at the newline, so the newline is passed.
  have hstopped : Parser.script readSource ⟨brokenChoice, ⟨2, 1⟩, 3, maxSteps - 1⟩ =
      .error ⟨.tooManySteps, ⟨0, 0⟩⟩ := by rfl
  have hcounts := hstopped.symm.trans (h.counts 3 (maxSteps - 1) (by decide) (Nat.sub_le _ _))
  have hpassed : brokenChoice.length ≤ passed.length := by
    by_contra hlt
    have hone : maxSteps - 1 + passed.length ≤ maxSteps := by
      have htwo : brokenChoice.length = 2 := rfl
      have hmax : 1 ≤ maxSteps := by decide
      omega
    rw [if_pos hone] at hcounts
    cases hcounts
  have htokens := congrArg List.length h.tokens
  rw [List.length_append] at htokens
  obtain rfl : left = [] := List.eq_nil_of_length_eq_zero (by omega)
  obtain rfl : passed = brokenChoice := (List.append_nil passed).symm.trans h.tokens
  exact ⟨hinside, hlength, h⟩

end Shell
