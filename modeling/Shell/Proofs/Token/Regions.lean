/-
Where a command substitution ends.

The end of `$(...)` is not found by reading the script in it. A scan looks for the parenthesis that matches, and it
knows of quotes and backslashes only. `Scan.Passes` says what the scan does to a text: the quotation and the
number of open parentheses before and after it. The scans for other regions pass over the same quotes and the same
parentheses, so a region that one of them has found is passed over as a whole (`balanced_passes`,
`expression_passes`).

The reader of tokens knows more: comments, backquotes, and what may stand in double quotes. In a text in which
none of this matters (`isQuiet`), the scan passes over the tokens, and its parentheses are those that are tokens
(`tokensFrom_passes`).
-/
import Shell.Script.Parser
import Shell.Proofs.Token.Layout

set_option autoImplicit false

namespace Shell

open Shell.Parser

variable {c : Char} {cs ds : List Char} {place : Place} {quote quote' : Option Char} {depth depth' : Nat}

/-! ## 1. What a scan passes over -/

namespace Scan

/-- The sign that ends a quotation. -/
def Quotation.sign : Quotation → Option Char
  | .none => Option.none
  | .single _ => some '\''
  | .double _ => some '"'

/-- The sign that is to come after one more character, which is not after a backslash; none if the character has
nothing to do with quotations. -/
def signAfter? (quote : Option Char) (c : Char) : Option (Option Char) :=
  match quote with
  | none => if c = '\'' ∨ c = '"' then some (some c) else none
  | some sign => some (if c = sign then none else some sign)

theorem Quotation.next?_sign (quotation : Quotation) (place : Place) (c : Char) :
    (quotation.next? place c).map Quotation.sign = signAfter? quotation.sign c := by
  cases quotation with
  | none =>
    by_cases hs : c = '\''
    · simp [next?, sign, signAfter?, hs]
    · by_cases hd : c = '"' <;> simp [next?, sign, signAfter?, hs, hd]
  | single => by_cases hc : c = '\'' <;> simp [next?, sign, signAfter?, hc]
  | double => by_cases hc : c = '"' <;> simp [next?, sign, signAfter?, hc]

theorem Quotation.escapes_eq (quotation : Quotation) :
    quotation.escapes = true ↔ quotation.sign ≠ some '\'' := by
  cases quotation <;> simp [escapes, sign]

theorem Quotation.eq_none {quotation : Quotation} (h : quotation.sign = Option.none) : quotation = .none := by
  cases quotation with
  | none => rfl
  | single | double => cases h

theorem Quotation.next?_none {quotation : Quotation} (h : quotation.next? place c = Option.none) :
    quotation = .none ∧ signAfter? Option.none c = Option.none := by
  have hsign := quotation.next?_sign place c
  cases quotation with
  | none =>
    rw [h] at hsign
    exact ⟨rfl, hsign.symm⟩
  | single | double => cases h

/-- A scan for a parenthesis passes over a text: from the quotation before it to the one after it, and from so many
open parentheses to so many. -/
inductive Passes : Option Char → Nat → List Char → Option Char → Nat → Prop where
  | nil {quote : Option Char} {depth : Nat} : Passes quote depth [] quote depth
  | escaped {quote quote' : Option Char} {depth depth' : Nat} {c : Char} {cs : List Char}
      (hq : quote ≠ some '\'') (more : Passes quote depth cs quote' depth') :
      Passes quote depth ('\\' :: c :: cs) quote' depth'
  | quoted {quote quote₁ quote' : Option Char} {depth depth' : Nat} {c : Char} {cs : List Char}
      (hb : ¬ (c = '\\' ∧ quote ≠ some '\'')) (hn : signAfter? quote c = some quote₁)
      (more : Passes quote₁ depth cs quote' depth') : Passes quote depth (c :: cs) quote' depth'
  | plain {quote' : Option Char} {depth depth' : Nat} {c : Char} {cs : List Char} (hb : c ≠ '\\')
      (hn : signAfter? none c = none) (hopen : c ≠ '(') (hclose : c ≠ ')')
      (more : Passes none depth cs quote' depth') : Passes none depth (c :: cs) quote' depth'
  | opened {quote' : Option Char} {depth depth' : Nat} {cs : List Char}
      (more : Passes none (depth + 1) cs quote' depth') : Passes none depth ('(' :: cs) quote' depth'
  | closed {quote' : Option Char} {depth depth' : Nat} {cs : List Char}
      (more : Passes none depth cs quote' depth') : Passes none (depth + 1) (')' :: cs) quote' depth'

namespace Passes

theorem append {quote₁ : Option Char} {depth₁ : Nat} (h : Passes quote depth cs quote₁ depth₁)
    (h' : Passes quote₁ depth₁ ds quote' depth') : Passes quote depth (cs ++ ds) quote' depth' := by
  induction h with
  | nil => exact h'
  | escaped hq _ ih => exact .escaped hq (ih h')
  | quoted hb hn _ ih => exact .quoted hb hn (ih h')
  | plain hb hn hopen hclose _ ih => exact .plain hb hn hopen hclose (ih h')
  | opened _ ih => exact .opened (ih h')
  | closed _ ih => exact .closed (ih h')

/-- **A scan goes on after the text that it passes over.** -/
theorem balanced (h : Passes quote depth cs quote' depth') {quotation : Quotation} (hq : quotation.sign = quote)
    (missing : ScriptError) (content : List Char) (place : Place) (rest : List Char) :
    ∃ quotation' : Quotation, quotation'.sign = quote' ∧
      balanced '(' ')' missing quotation depth content place (cs ++ rest) =
        balanced '(' ')' missing quotation' depth' (cs.reverse ++ content) (place.advance cs) rest := by
  -- Along what the scan passes. Each step is read by one turn of the scan, with the text as it has been read so
  -- far.
  induction h generalizing quotation content place with
  | nil => exact ⟨quotation, hq, rfl⟩
  | @escaped _ _ _ _ c cs hne _ ih =>
    obtain ⟨quotation', hq', heq⟩ := ih hq (c :: '\\' :: content) ((place.after '\\').after c)
    have hescapes : quotation.escapes = true := quotation.escapes_eq.mpr (hq ▸ hne)
    refine ⟨quotation', hq', ?_⟩
    simp only [List.cons_append, List.reverse_cons, List.append_assoc, List.nil_append, Place.advance_cons]
    rw [← heq]
    conv => lhs; unfold Scan.balanced
    simp [hescapes]
  | @quoted _ _ _ _ _ c cs hb hn _ ih =>
    have hnext := quotation.next?_sign place c
    rw [hq, hn] at hnext
    obtain ⟨quotation₁, hquotation, hsign⟩ := Option.map_eq_some_iff.mp hnext
    obtain ⟨quotation', hq', heq⟩ := ih hsign (c :: content) (place.after c)
    -- The character is no backslash that escapes, so its quotes decide.
    have hescapes : ¬ (c = '\\' ∧ quotation.escapes = true) := by
      rwa [quotation.escapes_eq, hq]
    refine ⟨quotation', hq', ?_⟩
    simp only [List.cons_append, List.reverse_cons, List.append_assoc, List.nil_append, Place.advance_cons]
    rw [← heq]
    conv => lhs; unfold Scan.balanced
    rw [if_neg hescapes, hquotation]
  | @plain _ _ _ c cs hb hn hopen hclose _ ih =>
    obtain rfl := Quotation.eq_none hq
    have hnext := Quotation.none.next?_sign place c
    rw [hq, hn] at hnext
    obtain ⟨quotation', hq', heq⟩ := ih hq (c :: content) (place.after c)
    refine ⟨quotation', hq', ?_⟩
    simp only [List.cons_append, List.reverse_cons, List.append_assoc, List.nil_append, Place.advance_cons]
    rw [← heq]
    conv => lhs; unfold Scan.balanced
    rw [if_neg fun h => hb h.1, Option.map_eq_none_iff.mp hnext]
    simp only [if_neg hopen, if_neg hclose]
  | @opened _ _ _ cs _ ih =>
    obtain rfl := Quotation.eq_none hq
    obtain ⟨quotation', hq', heq⟩ := ih hq ('(' :: content) (place.after '(')
    refine ⟨quotation', hq', ?_⟩
    simp only [List.cons_append, List.reverse_cons, List.append_assoc, List.nil_append, Place.advance_cons]
    rw [← heq]
    conv => lhs; unfold Scan.balanced
    simp [Quotation.next?]
  | @closed _ _ _ cs _ ih =>
    obtain rfl := Quotation.eq_none hq
    obtain ⟨quotation', hq', heq⟩ := ih hq (')' :: content) (place.after ')')
    refine ⟨quotation', hq', ?_⟩
    simp only [List.cons_append, List.reverse_cons, List.append_assoc, List.nil_append, Place.advance_cons]
    rw [← heq]
    conv => lhs; unfold Scan.balanced
    simp [Quotation.next?]

end Passes

/-- In double quotes nothing but the sign and the backslash means anything. -/
theorem Passes.of_inside (h : Passes (some '"') depth (c :: cs) quote' depth') (hb : c ≠ '\\') (hd : c ≠ '"') :
    Passes (some '"') depth cs quote' depth' := by
  cases h with
  | escaped => exact absurd rfl hb
  | quoted _ hn more =>
    rw [signAfter?, if_neg hd] at hn
    obtain rfl := Option.some.inj hn
    exact more

variable {missing : ScriptError} {what : Delimited} {quotation : Quotation} {content : List Char} {region : Region}

/-- A character that is passed over like any other by the scans for regions. -/
theorem Passes.of_next? {quotation' : Quotation} (hb : ¬ (c = '\\' ∧ quotation.escapes = true))
    (hn : quotation.next? place c = some quotation') (more : Passes quotation'.sign depth cs quote' depth') :
    Passes quotation.sign depth (c :: cs) quote' depth' := by
  refine .quoted (by rwa [← quotation.escapes_eq]) ?_ more
  rw [← quotation.next?_sign place, hn]
  rfl

/-- **A region in parentheses is passed over**, however many others are open. -/
theorem balanced_passes (h : Scan.balanced '(' ')' missing quotation depth content place cs = .ok region) :
    ∃ used, cs = used ++ ')' :: region.rest ∧ region.content = content.reverse ++ used ∧
      ∀ more, Passes quotation.sign (depth + more) used none more := by
  -- By the turns of the scan: what a turn takes is passed, and the closing parenthesis is left.
  fun_induction Scan.balanced '(' ')' missing quotation depth content place cs with
  | case1 | case2 => cases h
  | case3 quotation depth content place c hescapes d ds ih =>
    obtain ⟨rfl, hescapes⟩ := hescapes
    obtain ⟨used, rfl, hcontent, hpasses⟩ := ih h
    exact ⟨'\\' :: d :: used, rfl, by simpa using hcontent,
      fun more => .escaped (quotation.escapes_eq.mp hescapes) (hpasses more)⟩
  | case4 quotation depth content place c cs hescapes quotation' hnext ih =>
    obtain ⟨used, rfl, hcontent, hpasses⟩ := ih h
    exact ⟨c :: used, rfl, by simpa using hcontent, fun more => .of_next? hescapes hnext (hpasses more)⟩
  | case5 quotation depth content place cs hescapes hnext ih =>
    obtain ⟨rfl, -⟩ := Quotation.next?_none hnext
    obtain ⟨used, rfl, hcontent, hpasses⟩ := ih h
    refine ⟨'(' :: used, rfl, by simpa using hcontent, fun more => .opened ?_⟩
    have hmore := hpasses more
    rwa [Nat.add_right_comm] at hmore
  | case6 quotation content place cs hescapes hnext hopen =>
    obtain ⟨rfl, -⟩ := Quotation.next?_none hnext
    obtain rfl := Except.ok.inj h
    exact ⟨[], rfl, (List.append_nil _).symm, fun more => by simpa [Quotation.sign] using .nil⟩
  | case7 quotation content place cs depth hescapes hnext hopen ih =>
    obtain ⟨rfl, -⟩ := Quotation.next?_none hnext
    obtain ⟨used, rfl, hcontent, hpasses⟩ := ih h
    refine ⟨')' :: used, rfl, by simpa using hcontent, fun more => ?_⟩
    rw [Nat.succ_add]
    exact .closed (hpasses more)
  | case8 quotation depth content place c cs hescapes hnext hopen hclose ih =>
    obtain ⟨rfl, hsign⟩ := Quotation.next?_none hnext
    obtain ⟨used, rfl, hcontent, hpasses⟩ := ih h
    exact ⟨c :: used, rfl, by simpa using hcontent,
      fun more => .plain (fun hc => hescapes ⟨hc, rfl⟩) hsign hopen hclose (hpasses more)⟩

/-- An expression is scanned as a region in parentheses is, and one more parenthesis comes after it. -/
theorem expression_balanced (h : expression what missing quotation depth content place cs = .ok region) :
    ∃ place', Scan.balanced '(' ')' missing quotation depth content place cs =
      .ok ⟨region.content, ')' :: region.rest, place'⟩ := by
  fun_induction expression what missing quotation depth content place cs with
  | case7 quotation content place rest hescapes hnext hopen =>
    obtain rfl := Except.ok.inj h
    exact ⟨place.after ')', by unfold Scan.balanced; simp [hnext]⟩
  | _ =>
    unfold Scan.balanced
    grind

end Scan

/-! ## 2. Texts that are read as they are scanned -/

/-- The characters that mean nothing to a scan for a parenthesis, in double quotes or outside of quotes. -/
def isIndifferent (c : Char) : Bool := !(c == '\\' || c == '\'' || c == '"' || c == '(' || c == ')')

/-- Whether what a dollar sign opens, with the text after it, is closed before anything else is opened in it. -/
def closesPlainly : List Char → Bool
  | '(' :: '(' :: cs => (cs.takeWhile (· ≠ ')')).all isIndifferent
  | '(' :: cs => (cs.takeWhile (· ≠ ')')).all isIndifferent
  | '\x7b' :: cs => (cs.takeWhile (· ≠ '\x7d')).all fun c => isIndifferent c && c != '\x7b'
  | _ => true

/-- Whether a character can be read as it is scanned, with the text after it, in a quotation or where a token may
start: it starts no comment and no backquotes, and what it opens is closed plainly, unless that is `$(` outside of
quotes. -/
def isQuietAt (quote : Option Char) (start : Bool) (c : Char) (cs : List Char) : Bool :=
  quote == some '\'' || c != '\x60' && (quote.isSome || !(start && c == '#')) &&
    (c != '$' || quote.isNone && cs.head? != some '\x7b' || closesPlainly cs)

/-- Whether a text that starts in a quotation, or where a token may start, is read as it is scanned. -/
def isQuiet : (quote : Option Char) → (start : Bool) → List Char → Bool
  | _, _, [] => true
  | quote, start, c :: cs =>
    if c = '\\' ∧ quote ≠ some '\'' then
      match cs with
      | [] => false
      | d :: ds => isQuiet quote (d == '\n') ds
    else
      isQuietAt quote start c cs && isQuiet ((Scan.signAfter? quote c).getD none) (isMetacharacter c) cs

theorem isQuiet_escaped {start : Bool} (hq : quote ≠ some '\'') :
    isQuiet quote start ('\\' :: c :: cs) = isQuiet quote (c == '\n') cs := by
  rw [isQuiet, if_pos ⟨rfl, hq⟩]

theorem isQuiet_cons {start : Bool} (hb : ¬ (c = '\\' ∧ quote ≠ some '\'')) :
    isQuiet quote start (c :: cs) =
      (isQuietAt quote start c cs && isQuiet ((Scan.signAfter? quote c).getD none) (isMetacharacter c) cs) := by
  conv => lhs; unfold isQuiet
  rw [if_neg hb]

/-- After what a scan passes over a text goes on as it is scanned. -/
theorem Scan.Passes.isQuiet {start : Bool} {rest : List Char} (h : Passes quote depth cs quote' depth')
    (hq : Shell.isQuiet quote start (cs ++ rest) = true) :
    ∃ start', Shell.isQuiet quote' start' rest = true := by
  induction h generalizing start with
  | nil => exact ⟨start, hq⟩
  | escaped hne _ ih =>
    rw [List.cons_append, List.cons_append, isQuiet_escaped hne] at hq
    exact ih hq
  | quoted hb hn _ ih =>
    rw [List.cons_append, isQuiet_cons hb, hn, Bool.and_eq_true] at hq
    exact ih hq.2
  | plain hb hn hopen hclose _ ih =>
    rw [List.cons_append, isQuiet_cons fun h => hb h.1, hn, Bool.and_eq_true] at hq
    exact ih hq.2
  | opened _ ih | closed _ ih =>
    rw [List.cons_append, isQuiet_cons (by decide), Bool.and_eq_true] at hq
    exact ih hq.2

/-- Only a comment can tell whether a token may start. -/
theorem isQuiet_start {start : Bool} (h : isQuiet none start cs = true) (hs : cs.head? ≠ some '#') :
    isQuiet none true cs = true := by
  cases cs with
  | nil => rfl
  | cons c cs =>
    have hc : c ≠ '#' := fun hc => hs (congrArg some hc)
    unfold isQuiet at h ⊢
    split
    · next hb => rwa [if_pos hb] at h
    · next hb =>
      rw [if_neg hb] at h
      simpa [isQuietAt, hc] using h

/-- After a character that ends words a token may start. -/
theorem isQuiet_metacharacter {start : Bool} (hm : isMetacharacter c = true)
    (h : isQuiet none start (c :: cs) = true) : isQuiet none true cs = true := by
  have hb : c ≠ '\\' := by
    rintro rfl
    exact absurd hm (by decide)
  have hn : Scan.signAfter? none c = none := by
    refine if_neg (not_or.mpr ⟨?_, ?_⟩)
    all_goals
      rintro rfl
      exact absurd hm (by decide)
  rw [isQuiet_cons fun h => hb h.1, hn, hm, Bool.and_eq_true] at h
  exact h.2

/-! ## 3. Openings -/

/-- Outside of quotes, or in double quotes. -/
def IsOpenTo (quote : Option Char) : Prop := quote = none ∨ quote = some '"'

theorem isIndifferent_iff : isIndifferent c = true ↔ c ≠ '\\' ∧ c ≠ '\'' ∧ c ≠ '"' ∧ c ≠ '(' ∧ c ≠ ')' := by
  simp [isIndifferent, and_assoc]

namespace Scan

/-- A character that means nothing to the scan is passed over. -/
theorem Passes.skip (hq : IsOpenTo quote) (hc : isIndifferent c = true)
    (more : Passes quote depth cs quote' depth') : Passes quote depth (c :: cs) quote' depth' := by
  obtain ⟨hb, hs, hd, hopen, hclose⟩ := isIndifferent_iff.mp hc
  rcases hq with rfl | rfl
  · exact .plain hb (if_neg (not_or.mpr ⟨hs, hd⟩)) hopen hclose more
  · exact .quoted (fun h => hb h.1) (congrArg some (if_neg hd)) more

theorem Passes.skipAll (hq : IsOpenTo quote) (h : cs.all isIndifferent = true) (depth : Nat) :
    Passes quote depth cs quote depth := by
  induction cs with
  | nil => exact .nil
  | cons c cs ih =>
    rw [List.all_cons, Bool.and_eq_true] at h
    exact .skip hq h.1 (ih h.2)

/-- In double quotes parentheses mean nothing either. -/
theorem Passes.skipInside (h : ∀ c ∈ cs, c ≠ '\\' ∧ c ≠ '"') (depth : Nat) :
    Passes (some '"') depth cs (some '"') depth := by
  induction cs with
  | nil => exact .nil
  | cons c cs ih =>
    obtain ⟨⟨hb, hd⟩, h⟩ := List.forall_mem_cons.mp h
    exact .quoted (fun h => hb h.1) (congrArg some (if_neg hd)) (ih h)

/-- A region of such characters, without openers, ends at the first closer. -/
theorem balanced_plainly {opener closer : Char} {missing : ScriptError} {content : List Char} {region : Region}
    (h : balanced opener closer missing .none 0 content place cs = .ok region)
    (hplain : (cs.takeWhile (· ≠ closer)).all (fun c => isIndifferent c && c != opener) = true)
    (hcloser : closer ≠ '\\' ∧ closer ≠ '\'' ∧ closer ≠ '"' ∧ closer ≠ opener) :
    region.content = content.reverse ++ cs.takeWhile (· ≠ closer) := by
  induction cs generalizing content place with
  | nil =>
    unfold balanced at h
    cases h
  | cons c cs ih =>
    by_cases hc : c = closer
    · subst hc
      obtain ⟨hb, hs, hd, hopener⟩ := hcloser
      unfold balanced at h
      simp [hb, hs, hd, hopener, Quotation.next?] at h
      subst h
      simp
    · rw [List.takeWhile_cons_of_pos (by simpa using hc), List.all_cons, Bool.and_eq_true, Bool.and_eq_true] at hplain
      obtain ⟨hb, hs, hd, -, -⟩ := isIndifferent_iff.mp hplain.1.1
      have hopener : c ≠ opener := by simpa using hplain.1.2
      unfold balanced at h
      simp [hb, hs, hd, hopener, hc, Quotation.next?] at h
      rw [ih h hplain.2, List.takeWhile_cons_of_pos (by simpa using hc)]
      simp

/-- The content of a region in parentheses is passed over. -/
theorem content_passes {missing : ScriptError} {region : Region}
    (h : balanced '(' ')' missing .none 0 [] place cs = .ok region) (depth : Nat) :
    Passes none depth region.content none depth := by
  obtain ⟨used, -, hcontent, hpasses⟩ := balanced_passes h
  have hused := hpasses depth
  rw [Nat.zero_add] at hused
  rwa [hcontent]

/-- A region in parentheses has nothing but indifferent characters if there are none but those before the first
parenthesis that closes. -/
theorem content_indifferent {missing : ScriptError} {region : Region}
    (h : balanced '(' ')' missing .none 0 [] place cs = .ok region)
    (hplain : (cs.takeWhile (· ≠ ')')).all isIndifferent = true) : region.content.all isIndifferent = true := by
  have hboth : (fun c => isIndifferent c && c != '(') = isIndifferent := by
    funext c
    by_cases hc : isIndifferent c = true
    · simp [hc, (isIndifferent_iff.mp hc).2.2.2.1]
    · simp [hc]
  rw [balanced_plainly h ((congrArg (List.all _) hboth).trans hplain) (by decide)]
  exact hplain

end Scan

namespace Opening

/-- The characters of a parameter without braces mean nothing to a scan. -/
theorem plain_indifferent (cs : List Char) : (cs.take (plainExtent cs)).all isIndifferent = true := by
  -- None of the characters of a name is one that a scan looks at.
  have hindifferent {p : Char → Bool} (hp : ['\\', '\'', '"', '(', ')'].any p = false) {d : Char}
      (hd : p d = true) : isIndifferent d = true := by
    refine isIndifferent_iff.mpr ⟨?_, ?_, ?_, ?_, ?_⟩
    all_goals
      rintro rfl
      exact Bool.false_ne_true (hp.symm.trans (List.any_eq_true.mpr ⟨_, by decide, hd⟩))
  cases cs with
  | nil => rfl
  | cons c cs =>
    unfold plainExtent
    simp only
    split
    · next hc =>
      rw [Nat.add_comm, List.take_succ_cons, List.all_cons, Bool.and_eq_true,
        List.prefix_iff_eq_take.mp (List.takeWhile_prefix _) |>.symm]
      refine ⟨hindifferent (p := fun d => Text.isLetter d || d == '_') (by decide) hc, ?_⟩
      rw [List.all_eq_true]
      intro d hd
      have halphanumeric := List.mem_takeWhile_imp hd
      exact hindifferent (p := fun d => Text.isAlphanumeric d || d == '_') (by decide) halphanumeric
    split
    · next hc =>
      rw [List.take_succ_cons, List.all_cons, Bool.and_eq_true]
      exact ⟨hindifferent (p := fun d => Text.isDigit d || Braced.isSpecial d) (by decide) hc, rfl⟩
    · rfl

variable {opening : Opening}

/-- A region of indifferent characters in double quotes is passed over, with what opens and closes it. -/
theorem inside_passes {opener closer content : List Char} (hcontent : content.all isIndifferent = true)
    (hopener : ∀ c ∈ opener, c ≠ '\\' ∧ c ≠ '"') (hcloser : ∀ c ∈ closer, c ≠ '\\' ∧ c ≠ '"') (depth : Nat) :
    Scan.Passes (some '"') depth (opener ++ content ++ closer) (some '"') depth := by
  refine .skipInside (fun c hc => ?_) depth
  rcases List.mem_append.mp hc with hc | hc
  · rcases List.mem_append.mp hc with hc | hc
    · exact hopener c hc
    · obtain ⟨hb, -, hd, -, -⟩ := isIndifferent_iff.mp (List.all_eq_true.mp hcontent c hc)
      exact ⟨hb, hd⟩
  · exact hcloser c hc

/-- **What a dollar sign opens is passed over as a whole.** -/
theorem dollar_passes (hq : IsOpenTo quote) (ho : at? place '$' cs = .ok (some opening))
    (hc : quote = none ∧ cs.head? ≠ some '\x7b' ∨ closesPlainly cs = true) (depth : Nat) :
    Scan.Passes quote depth opening.written quote depth := by
  -- What is opened may lie in quotes. Then all that matters is that it holds no character that a scan looks at;
  -- outside of quotes its parentheses count.
  cases at?_eq_some_iff.mp ho with
  | arithmetic hr =>
    obtain ⟨place', hbalanced⟩ := Scan.expression_balanced hr
    rcases hq with rfl | rfl
    · have hinside := (Scan.content_passes hbalanced (depth + 2)).append (.closed (.closed .nil))
      exact .skip (.inl rfl) (by decide) (.opened (.opened hinside))
    · have hplain := hc.resolve_left fun h => nomatch h.1
      exact inside_passes (Scan.content_indifferent hbalanced hplain) (by simp) (by simp) depth
  | command hb hr =>
    rcases hq with rfl | rfl
    · have hinside := (Scan.content_passes hr (depth + 1)).append (.closed .nil)
      exact .skip (.inl rfl) (by decide) (.opened hinside)
    · have hplain := hc.resolve_left fun h => nomatch h.1
      rw [closesPlainly] at hplain
      · exact inside_passes (Scan.content_indifferent hr hplain) (by simp) (by simp) depth
      · rintro cs' rfl
        exact hb rfl
  | @braced _ region hr =>
    have hplain := hc.resolve_left fun h => h.2 rfl
    have hcontent := Scan.balanced_plainly hr hplain (by decide)
    have hall : region.content.all isIndifferent = true := by
      rw [hcontent]
      exact List.all_eq_true.mpr fun c hc => (Bool.and_eq_true _ _ ▸ List.all_eq_true.mp hplain c hc).1
    refine .skip hq (by decide) (.skip hq (by decide) ?_)
    exact (Scan.Passes.skipAll hq hall depth).append (.skip hq (by decide) .nil)
  | plain => exact .skip hq (by decide) (.skipAll hq (plain_indifferent cs) depth)

end Opening

/-! ## 4. Words -/

theorem Scan.singleQuoted_passes {start : Place} {content : List Char} {region : Scan.Region}
    (h : singleQuoted start content place cs = .ok region) :
    ∃ used, region.content = content.reverse ++ used ∧ cs = used ++ '\'' :: region.rest ∧
      ∀ depth, Passes (some '\'') depth (used ++ ['\'']) none depth := by
  fun_induction singleQuoted start content place cs with
  | case1 => cases h
  | case2 content place cs =>
    obtain rfl := Except.ok.inj h
    exact ⟨[], (List.append_nil _).symm, rfl, fun _ => .quoted (by decide) rfl .nil⟩
  | case3 content place c cs hc ih =>
    obtain ⟨used, hcontent, rfl, hpasses⟩ := ih h
    refine ⟨c :: used, by simpa using hcontent, rfl, fun depth => ?_⟩
    exact .quoted (fun h => h.2 rfl) (congrArg some (if_neg hc)) (hpasses depth)

/-- In quotes it does not matter whether a token may start. -/
theorem isQuiet_inside {sign : Char} {start start' : Bool} :
    isQuiet (some sign) start cs = isQuiet (some sign) start' cs := by
  unfold isQuiet
  cases cs with
  | nil => rfl
  | cons c cs => simp [isQuietAt]

namespace Reading

variable {r : Reading} {turn : Turn}

/-- The sign of the quotation in which reading goes on. -/
def sign (r : Reading) : Option Char := r.outer.map fun _ => '"'

theorem sign_of_none (h : r.outer = none) : r.sign = none := by
  simp [sign, h]

theorem sign_of_ne (h : r.outer ≠ none) : r.sign = some '"' := by
  obtain ⟨outer, ho⟩ := Option.ne_none_iff_exists'.mp h
  simp [sign, ho]

theorem isOpenTo_sign (r : Reading) : IsOpenTo r.sign := by
  by_cases h : r.outer = none
  · exact .inl (sign_of_none h)
  · exact .inr (sign_of_ne h)

theorem sign_ne (r : Reading) : r.sign ≠ some '\'' := by
  rcases r.isOpenTo_sign with h | h <;> simp [h]

/-- A character by itself, or what it opens, is passed over. -/
theorem expand_passes {start : Bool} (hb : c ≠ '\\') (hd : c ≠ '"')
    (hs : r.outer = none → isMetacharacter c = false ∧ c ≠ '\'') (he : r.expand place c cs = .ok turn)
    (hq : isQuiet r.sign start (c :: cs) = true) :
    ∃ used, c :: cs = used ++ turn.2.2 ∧ ∀ depth, Scan.Passes r.sign depth used turn.1.sign depth := by
  rw [isQuiet_cons fun h => hb h.1, Bool.and_eq_true] at hq
  have hquiet : isQuietAt r.sign start c cs = true := hq.1
  -- In quiet text a dollar sign opens what the scan passes over, and a backquote does not stand.
  have hopening {opening : Opening} (ho : Opening.at? place c cs = .ok (some opening)) :
      c :: cs = opening.written ++ opening.rest ∧ ∀ depth, Scan.Passes r.sign depth opening.written r.sign depth := by
    have hdollar : c = '$' := by
      cases Opening.at?_eq_some_iff.mp ho with
      | arithmetic | command | braced | plain => rfl
      | backquoted => simp [isQuietAt, r.sign_ne] at hquiet
    subst hdollar
    have hclosed : r.sign = none ∧ cs.head? ≠ some '\x7b' ∨ closesPlainly cs = true := by
      simpa [isQuietAt, r.sign_ne] using hquiet
    exact ⟨(Opening.at?_takes ho).text, Opening.dollar_passes r.isOpenTo_sign ho hclosed⟩
  cases expand_eq_ok_iff.mp he with
  | character =>
    refine ⟨[c], rfl, fun depth => ?_⟩
    show Scan.Passes r.sign depth [c] r.sign depth
    by_cases ho : r.outer = none
    · obtain ⟨hm, hs⟩ := hs ho
      rw [sign_of_none ho]
      refine .plain hb (if_neg (not_or.mpr ⟨hs, hd⟩)) ?_ ?_ .nil
      all_goals
        rintro rfl
        exact absurd hm (by decide)
    · rw [sign_of_ne ho]
      exact .quoted (fun h => hb h.1) (congrArg some (if_neg hd)) .nil
  | dollar ho => exact ⟨_, hopening ho⟩
  | part ho => exact ⟨_, hopening ho⟩

/-- **A turn takes what is passed over**, unless it keeps a backslash. -/
theorem Took.passes {start : Bool} (ht : Took isMetacharacter r place c cs turn)
    (hq : isQuiet r.sign start (c :: cs) = true) :
    (∃ used, c :: cs = used ++ turn.2.2 ∧ ∀ depth, Scan.Passes r.sign depth used turn.1.sign depth) ∨
      ∃ d ds, isDoubleQuoteEscape d = false ∧ c = '\\' ∧ cs = d :: ds ∧ turn.2.2 = d :: ds ∧
        r.sign = some '"' ∧ turn.1.sign = some '"' := by
  -- A backslash and the character after it are passed together, in quotes and outside.
  have hescaped (d : Char) (depth : Nat) : Scan.Passes r.sign depth ['\\', d] r.sign depth :=
    .escaped r.sign_ne .nil
  cases ht with
  | last =>
    unfold isQuiet at hq
    rw [if_pos ⟨rfl, r.sign_ne⟩] at hq
    cases hq
  | continued => exact .inl ⟨['\\', '\n'], rfl, hescaped '\n'⟩
  | @escaped d => exact .inl ⟨['\\', d], rfl, hescaped d⟩
  | @escapedInside d => exact .inl ⟨['\\', d], rfl, hescaped d⟩
  -- A backslash that is kept is the one exception: the scan passes it together with the next character.
  | @kept d ds ho hd he =>
    exact .inr ⟨d, ds, he, rfl, rfl, rfl, sign_of_ne ho, sign_of_ne ho⟩
  | @single cs region ho hs hr =>
    obtain ⟨used, hcontent, rfl, hpasses⟩ := Scan.singleQuoted_passes hr
    refine .inl ⟨'\'' :: (used ++ ['\'']), by simp, fun depth => ?_⟩
    show Scan.Passes r.sign depth _ r.sign depth
    rw [sign_of_none ho]
    exact .quoted (by decide) rfl (hpasses depth)
  | entered ho hs =>
    refine .inl ⟨['"'], rfl, fun depth => ?_⟩
    rw [sign_of_none ho]
    exact .quoted (by decide) rfl .nil
  | @left _ outer ho =>
    refine .inl ⟨['"'], rfl, fun depth => ?_⟩
    rw [sign_of_ne (by simp [ho])]
    exact .quoted (by decide) rfl .nil
  | expanded hb hd hs he => exact .inl (expand_passes hb hd hs he hq)

end Reading

/-- **A word is passed over**, and what comes after it is read as it is scanned. -/
theorem readParts_passes {r : Reading} {piece : Piece} {start : Bool}
    (h : readParts isMetacharacter r place cs = .ok piece) (hq : isQuiet r.sign start cs = true) :
    ∃ used start', cs = used ++ piece.rest ∧ (∀ depth, Scan.Passes r.sign depth used none depth) ∧
      isQuiet none start' piece.rest = true ∧ ∀ c ∈ piece.rest.head?, isMetacharacter c = true := by
  generalize hstop : isMetacharacter = stop at h
  induction h using readParts_induction generalizing start with
  | ended ho hc =>
    rw [Reading.sign_of_none ho] at hq ⊢
    exact ⟨[], start, rfl, fun _ => .nil, hq, hstop ▸ hc⟩
  | @turn _ _ _ _ _ turn _ ht _ _ ih =>
    subst hstop
    rcases ht.passes hq with ⟨used, htext, hpasses⟩ | ⟨d, ds, hd, rfl, rfl, hturn, hsign, hsign'⟩
    · rw [htext] at hq
      obtain ⟨start', hq'⟩ := (hpasses 0).isQuiet hq
      obtain ⟨used', start'', htext', hpasses', hrest⟩ := ih hq' rfl
      refine ⟨used ++ used', start'', ?_, fun depth => (hpasses depth).append (hpasses' depth), hrest⟩
      rw [htext, htext', List.append_assoc]
    -- The scan passes over both characters at once, and reading over one after the other.
    · have hne {e : Char} (hmem : isDoubleQuoteEscape e = true) : d ≠ e := by
        rintro rfl
        rw [hd] at hmem
        cases hmem
      rw [hsign, isQuiet_escaped (by decide)] at hq
      have hq' : isQuiet turn.1.sign true turn.2.2 = true := by
        rw [hsign', hturn, isQuiet_cons fun h => hne (by decide) h.1, Bool.and_eq_true]
        have hsame : Scan.signAfter? (some '"') d = some (some '"') := congrArg some (if_neg (hne (by decide)))
        have hquote : d ≠ '\x60' := hne (by decide)
        have hdollar : d ≠ '$' := hne (by decide)
        rw [hsame]
        exact ⟨by simp [isQuietAt, hquote, hdollar], isQuiet_inside.trans hq⟩
      obtain ⟨used, start', htext, hpasses, hrest⟩ := ih hq' rfl
      rw [hturn] at htext
      rw [hsign'] at hpasses
      cases used with
      | nil => cases hpasses 0
      | cons e used =>
        obtain ⟨rfl, rfl⟩ := List.cons.inj htext
        refine ⟨'\\' :: d :: used, start', rfl, fun depth => ?_, hrest⟩
        rw [hsign]
        exact .escaped (by decide) ((hpasses depth).of_inside (hne (by decide)) (hne (by decide)))

/-! ## 5. Tokens -/

/-- How many parentheses are open after a lexeme, if so many are open before it. -/
inductive Lexeme.Nests : Nat → Lexeme → Nat → Prop where
  | opened {depth : Nat} : Nests depth (.operator .leftParen) (depth + 1)
  | closed {depth : Nat} : Nests (depth + 1) (.operator .rightParen) depth
  | other {depth : Nat} {lexeme : Lexeme} (hopen : lexeme ≠ .operator .leftParen)
      (hclose : lexeme ≠ .operator .rightParen) : Nests depth lexeme depth

/-- How many parentheses are open after tokens, if so many are open before them. -/
inductive Nests : Nat → List Token → Nat → Prop where
  | nil {depth : Nat} : Nests depth [] depth
  | cons {depth depth₁ depth' : Nat} {token : Token} {tokens : List Token}
      (first : token.lexeme.Nests depth depth₁) (more : Nests depth₁ tokens depth') :
      Nests depth (token :: tokens) depth'

theorem Lexeme.Nests.eq {lexeme : Lexeme} (h : lexeme.Nests depth depth') (hl : ∀ op, lexeme ≠ .operator op) :
    depth' = depth := by
  cases h with
  | opened | closed => exact absurd rfl (hl _)
  | other => rfl

namespace Tokens

variable {ts : Tokens} {turn : Turn}

/-- A character that ends words and is no parenthesis is passed over like any other. -/
theorem plain_passes (hm : isMetacharacter c = true) (hopen : c ≠ '(') (hclose : c ≠ ')')
    (more : Scan.Passes none depth cs quote' depth') : Scan.Passes none depth (c :: cs) quote' depth' := by
  refine .plain ?_ (if_neg (not_or.mpr ⟨?_, ?_⟩)) hopen hclose more
  all_goals
    rintro rfl
    exact absurd hm (by decide)

/-- After an operator a token may start. -/
theorem operator_isQuiet {op : Operator} (hq : isQuiet none true (op.text.toList ++ cs) = true) :
    isQuiet none true cs = true := by
  have hm : op.text.toList.all isMetacharacter = true := by
    cases op <;> decide
  generalize op.text.toList = ds at hq hm
  induction ds with
  | nil => exact hq
  | cons d ds ih =>
    obtain ⟨hd, hm⟩ := Bool.and_eq_true_iff.mp hm
    exact ih (isQuiet_metacharacter hd hq) hm

theorem operator_passes {op : Operator} (h : Lexeme.Nests depth (.operator op) depth') :
    Scan.Passes none depth op.text.toList none depth' := by
  cases h with
  | opened => exact .opened .nil
  | closed => exact .closed .nil
  | other hopen hclose =>
    have hplain : op.text.toList.all (fun c => isMetacharacter c && (c != '(' && c != ')')) = true := by
      cases op with
      | leftParen => exact absurd rfl hopen
      | rightParen => exact absurd rfl hclose
      | _ => decide
    generalize op.text.toList = cs at hplain
    induction cs with
    | nil => exact .nil
    | cons c cs ih =>
      simp only [List.all_cons, Bool.and_eq_true, bne_iff_ne] at hplain
      obtain ⟨⟨hm, hopen, hclose⟩, hplain⟩ := hplain
      exact plain_passes hm hopen hclose (ih hplain)

/-- The word that is added is no operator. -/
theorem pushWord_ne (ts : Tokens) (place : Place) (piece : Piece) :
    ∃ lexeme start, ts.pushWord place piece = ts.push lexeme place start ∧ ∀ op, lexeme ≠ .operator op := by
  unfold pushWord
  simp only
  split
  · exact ⟨_, _, rfl, nofun⟩
  · exact ⟨_, _, rfl, nofun⟩

/-- **A turn takes what is passed over**, and opens and closes the parentheses that its token does. -/
theorem Took.passes (ht : Took ts place c cs turn) (hq : isQuiet none true (c :: cs) = true) :
    ∃ used, c :: cs = used ++ turn.2.2 ∧ isQuiet none true turn.2.2 = true ∧
      (turn.1 = ts ∧ (∀ depth, Scan.Passes none depth used none depth) ∨
        ∃ lexeme start, turn.1 = ts.push lexeme place start ∧
          ∀ depth depth', lexeme.Nests depth depth' → Scan.Passes none depth used none depth') := by
  -- A turn takes a token or none. What the token does to the depth of the parentheses is what the scan makes of its
  -- text.
  cases ht with
  | blank hc =>
    have hm : isMetacharacter c = true := by
      rcases hc with rfl | rfl <;> decide
    refine ⟨[c], rfl, isQuiet_metacharacter hm hq, .inl ⟨rfl, fun _ => plain_passes hm ?_ ?_ .nil⟩⟩
    all_goals rcases hc with rfl | rfl <;> decide
  | continued =>
    refine ⟨['\\', '\n'], rfl, ?_, .inl ⟨rfl, fun _ => .escaped (by decide) .nil⟩⟩
    rwa [isQuiet_escaped (by decide)] at hq
  | newline =>
    refine ⟨['\n'], rfl, isQuiet_metacharacter (by decide) hq, .inr ⟨.newline, true, rfl, ?_⟩⟩
    intro depth depth' h
    obtain rfl := h.eq nofun
    exact plain_passes (by decide) (by decide) (by decide) .nil
  | comment =>
    rw [isQuiet_cons (by decide)] at hq
    simp [isQuietAt] at hq
  | @arithmetic cs region piece hs hr hp =>
    obtain ⟨place', hbalanced⟩ := Scan.expression_balanced hr
    have hinside := Scan.content_passes hbalanced
    -- The last parenthesis is a token of its own to the scan.
    have htext : '(' :: '(' :: cs = ('(' :: '(' :: region.content ++ [')']) ++ ')' :: region.rest := by
      simp [(Scan.expression_cuts hr).takes.text]
    have hpasses (depth : Nat) :
        Scan.Passes none depth ('(' :: '(' :: region.content ++ [')']) none (depth + 1) :=
      .opened (.opened ((hinside (depth + 2)).append (.closed .nil)))
    rw [htext] at hq
    obtain ⟨start, hq⟩ := (hpasses 0).isQuiet hq
    refine ⟨('(' :: '(' :: region.content ++ [')']) ++ [')'], ?_, isQuiet_metacharacter (by decide) hq,
      .inr ⟨_, false, rfl, ?_⟩⟩
    · simp [htext]
    · intro depth depth' h
      obtain rfl := h.eq nofun
      exact (hpasses depth').append (.closed .nil)
  | @operator _ _ op ho hs =>
    have htext := (operatorAt?_text ho).1
    refine ⟨op.text.toList, htext, ?_, .inr ⟨.operator op, true, rfl, fun _ _ h => operator_passes h⟩⟩
    exact operator_isQuiet (htext ▸ hq)
  | @word _ _ piece hm hcomment hb hp =>
    obtain ⟨used, start, htext, hpasses, hrest, hhead⟩ := readParts_passes hp hq
    obtain ⟨lexeme, start', hpush, hne⟩ := pushWord_ne ts place piece
    refine ⟨used, htext, isQuiet_start hrest fun hs => ?_, .inr ⟨lexeme, start', hpush, ?_⟩⟩
    · exact absurd (hhead '#' hs) (by decide)
    · intro depth depth' h
      obtain rfl := h.eq hne
      exact hpasses depth'

end Tokens

/-- **The tokens of a quiet text are passed over**, and the parentheses of the scan are those that are tokens. -/
theorem tokensFrom_passes {ts : Tokens} {tokens : List Token} (h : tokensFrom ts place cs = .ok tokens)
    (hq : isQuiet none true cs = true) :
    ∃ new, tokens = ts.done.reverse ++ new ∧
      ∀ depth depth', Nests depth new depth' → Scan.Passes none depth cs none depth' := by
  induction h using tokensFrom_induction with
  | stop _ place =>
    refine ⟨[⟨.endOfInput, place⟩], by simp [Tokens.push], ?_⟩
    rintro depth depth' (_ | ⟨first, more⟩)
    obtain rfl := first.eq fun _ h => by cases h
    cases more
    exact .nil
  | @turn _ place _ _ _ _ ht _ ih =>
    obtain ⟨used, htext, hq', hturn⟩ := ht.passes hq
    obtain ⟨new, rfl, hnests⟩ := ih hq'
    rw [htext]
    rcases hturn with ⟨hts, hpasses⟩ | ⟨lexeme, start, hts, hpasses⟩
    · exact ⟨new, by rw [hts], fun depth depth' h => (hpasses depth).append (hnests depth depth' h)⟩
    · refine ⟨⟨lexeme, place⟩ :: new, by simp [hts, Tokens.push], ?_⟩
      rintro depth depth' (_ | ⟨first, more⟩)
      exact (hpasses _ _ first).append (hnests _ _ more)

end Shell
