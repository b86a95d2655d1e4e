/-
Expressions printed with few parentheses.

A tree is printed as its tokens with spaces between them, and an operand is put in parentheses exactly if its
construct is looser than its position allows. Reading the text gives the tree again (`parse_text`), so no
parenthesis is missing, and no two trees look the same.

The proof first cuts the text into the tokens that were printed. Then each tree is read from the tokens of its
operands, at its own level; from there the ladder of readers hands it on to looser positions, and parentheses take it
to tighter ones (`readsAt_of_readsBare`). Operators that group from the left are read as a chain: the left operand is
itself such a chain, whose last operator is followed by the next one (`ChainsAt`).
-/
import Mathlib.Data.List.Find
import Shell.Proofs.Arithmetic.Cutting
import Shell.Proofs.Arithmetic.Levels

set_option autoImplicit false

namespace Shell.Arithmetic

open Shell.Text

/-! ## 1. Printing -/

/-- The level of the construct that a tree is. -/
def Expr.level : Expr → Nat
  | .comma _ _ => 0
  | .assign _ _ _ => 1
  | .conditional _ _ _ => 2
  | .binary op _ _ => op.level
  | .unary _ _ => 14
  | .update _ _ before => if before then 14 else 15
  | .number _ | .variable _ => 16

/-- The loosest construct that may stand on the left of an operator. A base is a unary expression. -/
def BinaryOp.leftLevel (op : BinaryOp) : Nat := if op = .pow then 14 else op.level

/-- The loosest construct that may stand on the right of an operator. -/
def BinaryOp.rightLevel (op : BinaryOp) : Nat := if op = .pow then 13 else op.level + 1

def UnaryOp.symbol : UnaryOp → Symbol
  | .plus => .binary .add
  | .minus => .binary .sub
  | .not => .bang
  | .complement => .tilde

/-- Tokens in a position for constructs of a level or tighter ones: in parentheses if they are those of a looser
one. -/
def inPosition (position level : Nat) (ts : List Token) : List Token :=
  if level < position then .symbol .leftParen :: ts ++ [.symbol .rightParen] else ts

/-- The tokens of a tree. -/
def Expr.spelling : Expr → List Token
  | .number value => [.numeral (Nat.toDigits 10 value.toInt.toNat)]
  | .variable name => [.name name.toList]
  | .unary op operand => .symbol op.symbol :: inPosition 14 operand.level operand.spelling
  | .binary op left right =>
    inPosition op.leftLevel left.level left.spelling ++
      .symbol (.binary op) :: inPosition op.rightLevel right.level right.spelling
  | .conditional condition ifTrue ifFalse =>
    inPosition 3 condition.level condition.spelling ++
      .symbol .question :: (inPosition 0 ifTrue.level ifTrue.spelling ++
        .symbol .colon :: inPosition 1 ifFalse.level ifFalse.spelling)
  | .assign op name value =>
    .name name.toList :: .symbol (.assign op) :: inPosition 1 value.level value.spelling
  | .update step name before =>
    if before then [.symbol (.step step), .name name.toList] else [.name name.toList, .symbol (.step step)]
  | .comma left right =>
    inPosition 0 left.level left.spelling ++ .symbol .comma :: inPosition 1 right.level right.spelling

/-- The tokens of a tree in a position. -/
def Expr.operand (position : Nat) (e : Expr) : List Token := inPosition position e.level e.spelling

/-- The text of a tree. -/
def Expr.text (e : Expr) : List Char := tokensText e.spelling

/-- The trees that can be written: there are no numerals of negative numbers, names are identifiers, and only some
operators have an assignment of their own. -/
def Expr.IsPrintable : Expr → Prop
  | .number value => 0 ≤ value.toInt
  | .variable name => Name.isIdentifier name.toList = true
  | .unary _ operand => operand.IsPrintable
  | .binary _ left right => left.IsPrintable ∧ right.IsPrintable
  | .conditional condition ifTrue ifFalse =>
    condition.IsPrintable ∧ ifTrue.IsPrintable ∧ ifFalse.IsPrintable
  | .assign op name value =>
    .assign op ∈ Symbol.all ∧ Name.isIdentifier name.toList = true ∧ value.IsPrintable
  | .update _ name _ => Name.isIdentifier name.toList = true
  | .comma left right => left.IsPrintable ∧ right.IsPrintable

instance Expr.decidableIsPrintable : (e : Expr) → Decidable e.IsPrintable
  | .number value => inferInstanceAs (Decidable (0 ≤ value.toInt))
  | .variable name => inferInstanceAs (Decidable (Name.isIdentifier name.toList = true))
  | .unary _ operand => decidableIsPrintable operand
  | .binary _ left right | .comma left right =>
    have := decidableIsPrintable left
    have := decidableIsPrintable right
    inferInstanceAs (Decidable (left.IsPrintable ∧ right.IsPrintable))
  | .conditional condition ifTrue ifFalse =>
    have := decidableIsPrintable condition
    have := decidableIsPrintable ifTrue
    have := decidableIsPrintable ifFalse
    inferInstanceAs (Decidable (condition.IsPrintable ∧ ifTrue.IsPrintable ∧ ifFalse.IsPrintable))
  | .assign op name value =>
    have := decidableIsPrintable value
    inferInstanceAs (Decidable
      (.assign op ∈ Symbol.all ∧ Name.isIdentifier name.toList = true ∧ value.IsPrintable))
  | .update _ name _ => inferInstanceAs (Decidable (Name.isIdentifier name.toList = true))

/-! ## 2. The tokens of a printed text -/

/-- The tokens that are printed. -/
def Token.IsPrinted : Token → Prop
  | .numeral text => ∃ n, text = Nat.toDigits 10 n
  | .name text => Name.isIdentifier text = true
  | .symbol s => s ∈ Symbol.all

theorem constantExtent_toDigits {n : Nat} {c : Char} {cs rest : List Char} (h : Nat.toDigits 10 n = c :: cs)
    (hrest : ∀ d ∈ rest.head?, d = ' ') : constantExtent c (cs ++ rest) = cs.length := by
  have hdigits : ∀ d ∈ cs, isAsciiDigit d = true := fun d hd =>
    isAsciiDigit_of_mem (h ▸ List.mem_cons_of_mem c hd)
  have hplain : ∀ d ∈ cs, isConstantRest d = true := fun d hd => by simp [isConstantRest, hdigits d hd]
  have hspace : ∀ p : Char → Bool, p ' ' = false → ∀ d ∈ rest.head?, p d = false := by
    intro p hp d hd
    rw [hrest d hd]
    exact hp
  -- Digits are taken up to the space, and nothing but a space can follow.
  have hrun := takeWhile_append_of_head? hplain (hspace isConstantRest (by decide))
  have hrunDigits := takeWhile_append_of_head? hdigits (hspace isAsciiDigit (by decide))
  unfold constantExtent
  dsimp only
  rw [hrun, hrunDigits, List.drop_left]
  split
  · next after => exact absurd (hrest '#' rfl) (by decide)
  · simp only [Nat.lt_irrefl, if_false]
    split
    · -- A numeral that starts with a zero has no digit behind it, and then a space.
      next x after heq =>
      obtain rfl := toDigits_eq_zero_cons h
      rw [List.nil_append] at heq
      obtain rfl : x = ' ' := hrest x (by rw [heq]; rfl)
      rfl
    · rfl

/-- A text without a space is looked for before the next space. -/
theorem isPrefixOf_append {p l rest : List Char} (hp : ' ' ∉ p) (hrest : ∀ d ∈ rest.head?, d = ' ') :
    p.isPrefixOf (l ++ rest) = p.isPrefixOf l := by
  induction p generalizing l with
  | nil => rfl
  | cons a p ih =>
    cases l with
    | cons b l => simp [List.isPrefixOf, ih fun h => hp (List.mem_cons_of_mem a h)]
    | nil =>
      cases rest with
      | nil => rfl
      | cons d rest =>
        have hne : a ≠ d := by
          rintro rfl
          exact hp (hrest a rfl ▸ List.mem_cons_self)
        simp [List.isPrefixOf, hne]

/-- A space behind a symbol ends it. -/
theorem symbolAt?_printed {s : Symbol} (hs : s ∈ Symbol.all) {rest : List Char} (hrest : ∀ d ∈ rest.head?, d = ' ') :
    symbolAt? (s.text.toList ++ rest) = some s := by
  have hspace : ∀ t ∈ Symbol.all, ' ' ∉ t.text.toList := by decide +kernel
  have halone : ∀ t ∈ Symbol.all, symbolAt? t.text.toList = some t := by decide +kernel
  rw [← halone s hs, symbolAt?, symbolAt?]
  refine List.find?_congr fun t ht => ?_
  rw [isPrefixOf_append (hspace t ht) hrest]

/-- A token is cut off at the space behind it. -/
theorem tokensFrom_printed {t : Token} (ht : t.IsPrinted) {rest : List Char} (hrest : ∀ d ∈ rest.head?, d = ' ')
    (text : List Char) : tokensFrom text [] (t.text ++ rest) = (tokensFrom text [] rest).map (t :: ·) := by
  cases t with
  | numeral digits =>
    obtain ⟨n, rfl⟩ := ht
    obtain ⟨c, cs, hcs⟩ := List.exists_cons_of_ne_nil (Nat.toDigits_ne_nil (b := 10) (n := n))
    have hc : isAsciiDigit c = true := isAsciiDigit_of_mem (hcs ▸ List.mem_cons_self)
    show tokensFrom text [] (Nat.toDigits 10 n ++ rest) = _
    rw [hcs, List.cons_append]
    exact tokensFrom_numeral hc rfl (constantExtent_toDigits hcs hrest) text
  | name name =>
    cases name with
    | nil => cases ht
    | cons c cs =>
      have hname : Name.isStart c = true ∧ cs.all Name.isRest = true := by
        simpa [Token.IsPrinted, Name.isIdentifier] using ht
      refine tokensFrom_name hname.1 (List.all_eq_true.mp hname.2) (fun d hd => ?_) text
      rw [hrest d hd]
      decide
  | symbol s => exact tokensFrom_symbol (symbolAt?_printed ht hrest) text

/-- **A printed text has the tokens that were printed.** -/
theorem tokens_tokensText {ts : List Token} (hts : ∀ t ∈ ts, t.IsPrinted) : tokens (tokensText ts) = .ok ts := by
  suffices h : ∀ text, tokensFrom text [] (tokensText ts) = .ok ts from h _
  intro text
  induction ts with
  | nil => exact tokensFrom_nil text
  | cons t ts ih =>
    obtain ⟨ht, hts⟩ := List.forall_mem_cons.mp hts
    cases ts with
    | nil =>
      have hend : ∀ d ∈ ([] : List Char).head?, d = ' ' := nofun
      have hcut := tokensFrom_printed ht hend text
      rw [List.append_nil, tokensFrom_nil] at hcut
      show tokensFrom text [] ([' '].intercalate [t.text]) = _
      rw [List.intercalate_singleton]
      exact hcut
    | cons t' ts =>
      have hjoin : tokensText (t :: t' :: ts) = t.text ++ ' ' :: tokensText (t' :: ts) := by
        simp [tokensText, List.intercalate]
      have hspace : ∀ d ∈ (' ' :: tokensText (t' :: ts)).head?, d = ' ' := fun d hd => (Option.some.inj hd).symm
      rw [hjoin, tokensFrom_printed ht hspace, tokensFrom_blank (by decide), ih hts]
      rfl

/-- All symbols can be printed but for some assignments. -/
theorem isPrinted_symbol {s : Symbol} (h : ∀ op, s ≠ .assign op) : (Token.symbol s).IsPrinted := by
  show s ∈ Symbol.all
  cases s with
  | assign op => exact absurd rfl (h op)
  | binary op => cases op <;> decide
  | step step => cases step <;> decide
  | _ => decide

theorem forall_isPrinted_inPosition {position level : Nat} {ts : List Token} (h : ∀ t ∈ ts, t.IsPrinted) :
    ∀ t ∈ inPosition position level ts, t.IsPrinted := by
  unfold inPosition
  split
  · rw [List.cons_append, List.forall_mem_cons, List.forall_mem_append, List.forall_mem_singleton]
    exact ⟨isPrinted_symbol nofun, h, isPrinted_symbol nofun⟩
  · exact h

/-- A tree that can be written is printed in such tokens. -/
theorem Expr.forall_isPrinted {e : Expr} (h : e.IsPrintable) : ∀ t ∈ e.spelling, t.IsPrinted := by
  -- Along the tree: the tokens of an operator are printed, and those of its operands by induction, with parentheses
  -- or without.
  induction e with
  | number value =>
    rw [spelling, List.forall_mem_singleton]
    exact ⟨_, rfl⟩
  | «variable» name =>
    rw [spelling, List.forall_mem_singleton]
    exact h
  | unary op operand ih =>
    rw [spelling, List.forall_mem_cons]
    exact ⟨isPrinted_symbol (by cases op <;> nofun), forall_isPrinted_inPosition (ih h)⟩
  | binary op left right ihl ihr =>
    rw [spelling, List.forall_mem_append, List.forall_mem_cons]
    exact ⟨forall_isPrinted_inPosition (ihl h.1), isPrinted_symbol nofun, forall_isPrinted_inPosition (ihr h.2)⟩
  | conditional condition ifTrue ifFalse ihc iht ihf =>
    rw [spelling, List.forall_mem_append, List.forall_mem_cons, List.forall_mem_append, List.forall_mem_cons]
    exact ⟨forall_isPrinted_inPosition (ihc h.1), isPrinted_symbol nofun, forall_isPrinted_inPosition (iht h.2.1),
      isPrinted_symbol nofun, forall_isPrinted_inPosition (ihf h.2.2)⟩
  | assign op name value ih =>
    rw [spelling, List.forall_mem_cons, List.forall_mem_cons]
    exact ⟨h.2.1, h.1, forall_isPrinted_inPosition (ih h.2.2)⟩
  | update step name before =>
    rw [spelling]
    split <;> rw [List.forall_mem_cons, List.forall_mem_singleton]
    · exact ⟨isPrinted_symbol nofun, h⟩
    · exact ⟨h, isPrinted_symbol nofun⟩
  | comma left right ihl ihr =>
    rw [spelling, List.forall_mem_append, List.forall_mem_cons]
    exact ⟨forall_isPrinted_inPosition (ihl h.1), isPrinted_symbol nofun, forall_isPrinted_inPosition (ihr h.2)⟩

/-! ## 3. Positions -/

section

variable (text : List Char)

/-- A tree is read from its own tokens at its own level. -/
def ReadsBare (e : Expr) : Prop :=
  ∀ n rest, e.spelling.length ≤ n → Stops e.level rest →
    readLevel text (readAt text n) n e.level (e.spelling ++ rest) = .ok (e, rest)

/-- A tree is read from its tokens in a position, by the reader for that position. -/
def ReadsAt (position : Nat) (e : Expr) : Prop :=
  ∀ n rest, (e.operand position).length ≤ n → Stops position rest →
    readLevel text (readAt text n) n position (e.operand position ++ rest) = .ok (e, rest)

variable {text}

/-- **A tree that is read at its own level is read in every position**: up the ladder to looser ones, and in
parentheses at tighter ones. -/
theorem readsAt_of_readsBare {e : Expr} (h : ReadsBare text e) {position : Nat} (hposition : position ≤ 16)
    (hlevel : e.level ≤ 16) : ReadsAt text position e := by
  have hloose : ∀ position n rest, position ≤ e.level → e.spelling.length ≤ n → Stops position rest →
      readLevel text (readAt text n) n position (e.spelling ++ rest) = .ok (e, rest) := by
    intro position n rest hle hn hrest
    exact readLevel_of_tighter hle hlevel (h n rest hn (hrest.mono hle)) hrest
  intro n rest hn hrest
  unfold Expr.operand inPosition at hn ⊢
  by_cases htight : e.level < position
  · rw [if_pos htight] at hn ⊢
    simp only [List.length_append, List.length_cons, List.length_nil] at hn
    obtain ⟨n, rfl⟩ : ∃ m, n = m + 1 := ⟨n - 1, by omega⟩
    -- Inside the parentheses a comma list is read, with the closing one behind it.
    have hinside := hloose 0 n (.symbol .rightParen :: rest) (Nat.zero_le _) (by omega) (stops_symbol nofun)
    have hprimary : readPrimary text (readAt text (n + 1))
        (.symbol .leftParen :: (e.spelling ++ .symbol .rightParen :: rest)) = .ok (e, rest) := by
      rw [readPrimary]
      show (readLevel text (readAt text n) n 0 _ >>= _) = _
      rw [hinside]
      rfl
    have hlevel16 : readLevel text (readAt text (n + 1)) (n + 1) 16
        (.symbol .leftParen :: e.spelling ++ [.symbol .rightParen] ++ rest) = .ok (e, rest) := by
      rw [List.append_assoc]
      exact hprimary
    exact readLevel_of_tighter hposition (Nat.le_refl 16) hlevel16 hrest
  · rw [if_neg htight] at hn ⊢
    exact hloose position n rest (by omega) hn hrest

/-! ## 4. Chains -/

/-- A tree in a position that groups from the left is the beginning of a chain: with more operands of the level
behind it, reading goes on after it. -/
def ChainsAt (text : List Char) (position : Nat) (e : Expr) : Prop :=
  ∃ k, k ≤ (e.operand position).length ∧ ∀ n rest, (e.operand position).length ≤ n → Stops (position + 1) rest →
    let operand := readLevel text (readAt text n) n (position + 1)
    (operand (e.operand position ++ rest) >>= fun result => readChain position operand n result.1 result.2) =
      readChain position operand (n - k) e rest

/-- An operand of another level is a chain by itself. -/
theorem chainsAt_of_readsAt {position : Nat} {e : Expr} (h : ReadsAt text (position + 1) e)
    (hlevel : e.level ≠ position) : ChainsAt text position e := by
  have hsame : e.operand position = e.operand (position + 1) := by
    unfold Expr.operand inPosition
    by_cases hlt : e.level < position
    · rw [if_pos hlt, if_pos (by omega)]
    · rw [if_neg hlt, if_neg (by omega)]
  refine ⟨0, Nat.zero_le _, fun n rest hn hrest => ?_⟩
  dsimp only
  rw [hsame] at hn ⊢
  rw [h n rest hn hrest]
  rfl

/-- A chain goes on with one more operand. -/
theorem chainsAt_node {position : Nat} {s : Symbol} {node : Expr → Expr → Expr}
    (hnode : leftNode? position s = some node) {left right : Expr} (hleft : ChainsAt text position left)
    (hright : ReadsAt text (position + 1) right)
    (hoperand : (node left right).operand position =
      left.operand position ++ .symbol s :: right.operand (position + 1)) :
    ChainsAt text position (node left right) := by
  obtain ⟨k, hk, hleft⟩ := hleft
  -- The operator stands at this level, since it makes a node there.
  have hlevel : s.level? = some position := by
    by_contra hne
    rw [leftNode?_eq_none hne] at hnode
    cases hnode
  have hlength : ((node left right).operand position).length =
      (left.operand position).length + ((right.operand (position + 1)).length + 1) := by
    rw [hoperand, List.length_append, List.length_cons]
  refine ⟨k + 1, by omega, fun n rest hn hrest => ?_⟩
  -- The right operand ends before the next operator of the level.
  have hstops : Stops (position + 1) (.symbol s :: (right.operand (position + 1) ++ rest)) := by
    refine stops_symbol fun k hk => ?_
    rw [hlevel] at hk
    obtain rfl := Option.some.inj hk
    exact Nat.lt_succ_self _
  have hchain := hleft n _ (by omega) hstops
  obtain ⟨m, hm⟩ : ∃ m, n - k = m + 1 := ⟨n - k - 1, by omega⟩
  dsimp only at hchain ⊢
  rw [hoperand, List.append_assoc, List.cons_append, hchain, hm, readChain]
  simp only [hnode]
  rw [hright n rest (by omega) hrest, show n - (k + 1) = m by omega]
  rfl

/-- A whole chain is read at its level. -/
theorem readsBare_of_chainsAt {e : Expr} (hlevel : GroupsLeft e.level) (h : ChainsAt text e.level e) :
    ReadsBare text e := by
  obtain ⟨k, hk, h⟩ := h
  have hsame : e.operand e.level = e.spelling := if_neg (Nat.lt_irrefl _)
  rw [hsame] at h
  intro n rest hn hrest
  rw [readLevel_chain hlevel, h n rest hn (hrest.mono (Nat.le_succ _))]
  exact readChain_of_stops hrest _ _ _

end

/-! ## 5. Each construct -/

/-- A tree is read at its own level, and as the beginning of a chain in every position for one. -/
def ReadsEverywhere (text : List Char) (e : Expr) : Prop :=
  ReadsBare text e ∧ ∀ position, GroupsLeft position → ChainsAt text position e

section

variable {text : List Char}

theorem Expr.level_le (e : Expr) : e.level ≤ 16 := by
  cases e with
  | binary op left right => exact Nat.le_trans op.level_bounds.2 (by decide)
  | update step name before => cases before <;> simp [level]
  | _ => simp [level]

theorem ReadsEverywhere.at {e : Expr} (h : ReadsEverywhere text e) {position : Nat} (hposition : position ≤ 16) :
    ReadsAt text position e := readsAt_of_readsBare h.1 hposition e.level_le

/-- A construct that is no chain is one operand in every position. -/
theorem ReadsBare.everywhere {e : Expr} (h : ReadsBare text e) (hlevel : ¬ GroupsLeft e.level) :
    ReadsEverywhere text e := by
  refine ⟨h, fun position hgroups => ?_⟩
  refine chainsAt_of_readsAt (readsAt_of_readsBare h hgroups.lt e.level_le) ?_
  rintro rfl
  exact hlevel hgroups

/-- A chain is a chain at its own level and one operand in all other positions. -/
theorem ChainsAt.everywhere {e : Expr} (h : ChainsAt text e.level e) (hlevel : GroupsLeft e.level) :
    ReadsEverywhere text e := by
  have hreads := readsBare_of_chainsAt hlevel h
  refine ⟨hreads, fun position hgroups => ?_⟩
  by_cases hsame : e.level = position
  · exact hsame ▸ h
  · exact chainsAt_of_readsAt (readsAt_of_readsBare hreads hgroups.lt e.level_le) hsame

theorem Stops.one_of_two {rest : List Token} (h : Stops 2 rest) : Stops 1 rest := by
  intro s hs k hk
  have hlt := h s hs k hk
  cases s with
  | binary op =>
    obtain rfl := Option.some.inj hk
    have hlow := op.level_bounds.1
    omega
  | _ => cases hk <;> first | decide | exact absurd hlt (by decide)

theorem readsBare_number {value : Int64} (h : 0 ≤ value.toInt) : ReadsBare text (.number value) := by
  have hsize : value.toInt.toNat < 10 ^ maxDigits := by
    have hhigh := value.toInt_lt
    have hpow : 10 ^ 19 ≤ 10 ^ maxDigits := Nat.pow_le_pow_right (by decide) (by decide)
    omega
  have hvalue : Int64.ofNat value.toInt.toNat = value := by
    rw [← Int64.ofInt_eq_ofNat, Int.toNat_of_nonneg h, Int64.ofInt_toInt]
  intro n rest hn hrest
  show readPrimary text (readAt text n) (.numeral (Nat.toDigits 10 value.toInt.toNat) :: rest) = _
  rw [readPrimary_numeral, readConstant_toDigits hsize, hvalue]
  rfl

theorem readsBare_variable (name : String) : ReadsBare text (.variable name) := by
  intro n rest hn hrest
  show Except.ok (Expr.variable (String.ofList name.toList), rest) = _
  rw [String.ofList_toList]

theorem readsBare_update (step : Step) (name : String) (before : Bool) : ReadsBare text (.update step name before) := by
  intro n rest hn hrest
  cases before
  · show Except.ok (Expr.update step (String.ofList name.toList) false, rest) = _
    rw [String.ofList_toList]
  · show Except.ok (Expr.update step (String.ofList name.toList) true, rest) = _
    rw [String.ofList_toList]

theorem readsBare_unary {op : UnaryOp} {operand : Expr} (h : ReadsAt text 14 operand) :
    ReadsBare text (.unary op operand) := by
  intro n rest hn hrest
  have hoperand := h n rest (Nat.le_of_succ_le hn) hrest
  change readUnary text (readAt text n) _ = _ at hoperand
  show readUnary text (readAt text n) (.symbol op.symbol :: (operand.operand 14 ++ rest)) = _
  cases op <;> rw [UnaryOp.symbol, readUnary, hoperand] <;> rfl

/-- A power is read from its base, with the exponent one level further inside. -/
theorem readsBare_power {base exponent : Expr} (hbase : ReadsAt text 14 base) (hexponent : ReadsAt text 13 exponent) :
    ReadsBare text (.binary .pow base exponent) := by
  intro n rest hn hrest
  have hlength : (base.operand 14).length + ((exponent.operand 13).length + 1) ≤ n := by
    rw [← List.length_cons, ← List.length_append]
    exact hn
  obtain ⟨n, rfl⟩ : ∃ m, n = m + 1 := ⟨n - 1, by omega⟩
  have hstops : Stops 14 (.symbol (.binary .pow) :: (exponent.operand 13 ++ rest)) :=
    stops_symbol fun k hk => by obtain rfl := Option.some.inj hk; decide
  have hleft := hbase (n + 1) _ (by omega) hstops
  have hright := hexponent n rest (by omega) hrest
  change readUnary text (readAt text (n + 1)) _ = _ at hleft
  show readPower text (readAt text (n + 1))
    (base.operand 14 ++ .symbol (.binary .pow) :: exponent.operand 13 ++ rest) = _
  rw [List.append_assoc, List.cons_append, readPower, hleft]
  show (readLevel text (readAt text n) n 13 (exponent.operand 13 ++ rest) >>= _) = _
  rw [hright]
  rfl

theorem readsBare_conditional {condition ifTrue ifFalse : Expr} (hcondition : ReadsAt text 3 condition)
    (htrue : ReadsAt text 0 ifTrue) (hfalse : ReadsAt text 1 ifFalse) :
    ReadsBare text (.conditional condition ifTrue ifFalse) := by
  intro n rest hn hrest
  have hlength : (condition.operand 3).length + ((ifTrue.operand 0).length + ((ifFalse.operand 1).length + 1) + 1) ≤
      n := by
    rw [← List.length_cons, ← List.length_append, ← List.length_cons, ← List.length_append]
    exact hn
  obtain ⟨n, rfl⟩ : ∃ m, n = m + 1 := ⟨n - 1, by omega⟩
  have hquestion : Stops 3 (.symbol .question :: (ifTrue.operand 0 ++ .symbol .colon :: (ifFalse.operand 1 ++ rest))) :=
    stops_symbol fun k hk => by obtain rfl := Option.some.inj hk; decide
  have hfirst := hcondition (n + 1) _ (by omega) hquestion
  have hmiddle := htrue n (.symbol .colon :: (ifFalse.operand 1 ++ rest)) (by omega) (stops_symbol nofun)
  have hlast := hfalse n rest (by omega) hrest.one_of_two
  change readBinary text (readAt text (n + 1)) (n + 1) binaryLevels _ = _ at hfirst
  show readConditional text (readAt text (n + 1)) (n + 1)
    (condition.operand 3 ++ .symbol .question :: (ifTrue.operand 0 ++ .symbol .colon :: ifFalse.operand 1) ++ rest) = _
  rw [List.append_assoc, List.cons_append, List.append_assoc, List.cons_append, readConditional, hfirst]
  show (readLevel text (readAt text n) n 0 _ >>= _) = _
  rw [hmiddle]
  show (readLevel text (readAt text n) n 1 _ >>= _) = _
  rw [hlast]
  rfl

theorem readsBare_assign {op : Option BinaryOp} {name : String} {value : Expr} (hvalue : ReadsAt text 1 value) :
    ReadsBare text (.assign op name value) := by
  intro n rest hn hrest
  have hlength : (value.operand 1).length + 1 + 1 ≤ n := hn
  obtain ⟨n, rfl⟩ : ∃ m, n = m + 1 := ⟨n - 1, by omega⟩
  show (readLevel text (readAt text n) n 1 (value.operand 1 ++ rest) >>= _) = _
  rw [hvalue n rest (by omega) hrest]
  show Except.ok (Expr.assign op (String.ofList name.toList) value, rest) = _
  rw [String.ofList_toList]

/-- **Every tree that can be written is read in every position**, and is the beginning of a chain where chains are
read. -/
theorem Expr.readsEverywhere {e : Expr} (h : e.IsPrintable) : ReadsEverywhere text e := by
  induction e with
  | number value => exact (readsBare_number h).everywhere (show ¬ GroupsLeft 16 by decide)
  | «variable» name => exact (readsBare_variable name).everywhere (show ¬ GroupsLeft 16 by decide)
  | unary op operand ih => exact (readsBare_unary ((ih h).at (by decide))).everywhere (show ¬ GroupsLeft 14 by decide)
  | binary op left right ihl ihr =>
    -- Powers group to the right, and all other binary operators to the left.
    by_cases hop : op = .pow
    · subst hop
      have hreads := readsBare_power ((ihl h.1).at (by decide)) ((ihr h.2).at (by decide))
      exact hreads.everywhere (show ¬ GroupsLeft 13 by decide)
    · have hgroups := BinaryOp.groupsLeft hop
      have hoperand : (Expr.binary op left right).operand op.level =
          left.operand op.level ++ .symbol (.binary op) :: right.operand (op.level + 1) := by
        unfold operand
        rw [spelling, BinaryOp.leftLevel, if_neg hop, BinaryOp.rightLevel, if_neg hop]
        exact if_neg (Nat.lt_irrefl _)
      have hnode : leftNode? op.level (.binary op) = some (.binary op) := if_pos rfl
      have hchain := chainsAt_node hnode ((ihl h.1).2 _ hgroups) ((ihr h.2).at hgroups.lt) hoperand
      exact hchain.everywhere hgroups
  | conditional condition ifTrue ifFalse ihc iht ihf =>
    have hreads := readsBare_conditional ((ihc h.1).at (by decide)) ((iht h.2.1).at (by decide))
      ((ihf h.2.2).at (by decide))
    exact hreads.everywhere (show ¬ GroupsLeft 2 by decide)
  | assign op name value ih =>
    exact (readsBare_assign ((ih h.2.2).at (by decide))).everywhere (show ¬ GroupsLeft 1 by decide)
  | update step name before =>
    refine (readsBare_update step name before).everywhere ?_
    cases before
    · exact (show ¬ GroupsLeft 15 by decide)
    · exact (show ¬ GroupsLeft 14 by decide)
  | comma left right ihl ihr =>
    have hgroups : GroupsLeft 0 := .inl rfl
    have hchain := chainsAt_node (s := .comma) rfl ((ihl h.1).2 0 hgroups) ((ihr h.2).at (by decide)) rfl
    exact hchain.everywhere hgroups

end

theorem Expr.spelling_ne_nil (e : Expr) : e.spelling ≠ [] := by
  cases e with
  | update step name before => cases before <;> exact List.cons_ne_nil _ _
  | binary op left right => exact List.append_ne_nil_of_right_ne_nil _ (List.cons_ne_nil _ _)
  | conditional condition ifTrue ifFalse => exact List.append_ne_nil_of_right_ne_nil _ (List.cons_ne_nil _ _)
  | comma left right => exact List.append_ne_nil_of_right_ne_nil _ (List.cons_ne_nil _ _)
  | _ => exact List.cons_ne_nil _ _

/-- **Reading a printed expression gives the expression.** -/
theorem parse_text {e : Expr} (h : e.IsPrintable) : parse e.text = .ok (some e) := by
  have htokens : tokens e.text = .ok e.spelling := tokens_tokensText (Expr.forall_isPrinted h)
  have hreads : ReadsEverywhere e.text e := Expr.readsEverywhere h
  have hread := hreads.at (Nat.zero_le 16) e.spelling.length [] (Nat.le_refl _) (stops_nil 0)
  have hwhole : e.operand 0 ++ [] = e.spelling := List.append_nil _
  rw [hwhole] at hread
  rw [parse_eq_of_tokens htokens e.spelling_ne_nil, hread]
  rfl

/-- `(x += (1 + y) * -z++), 2 ** -3 ** 4 - (5 - 6)` with spaces and without the parentheses that it does not need. -/
def sampleExpr : Expr :=
  .comma
    (.assign (some .add) "x"
      (.binary .mul (.binary .add (.number 1) (.variable "y")) (.unary .minus (.update .increment "z" false))))
    (.binary .sub (.binary .pow (.number 2) (.binary .pow (.unary .minus (.number 3)) (.number 4)))
      (.binary .sub (.number 5) (.number 6)))

theorem parse_sampleExpr :
    sampleExpr.IsPrintable ∧
      sampleExpr.text = "x += ( 1 + y ) * - z ++ , 2 ** - 3 ** 4 - ( 5 - 6 )".toList ∧
      parse sampleExpr.text = .ok (some sampleExpr) := by
  have hprintable : sampleExpr.IsPrintable := by decide
  exact ⟨hprintable, by decide, parse_text hprintable⟩

end Shell.Arithmetic
