/-
Arguments in double quotes.

The segments of `"$@"` are the positional parameters, quoted, with a boundary between any two. Nothing in quotes is cut,
so a field ends at the boundaries only, and what is written beside `"$@"` goes to the first parameter and to the last
(`split_arguments`). Three rules meet here when there are no parameters: `"$@"` has no segments then, which empty double
quotes otherwise have; there is no boundary; and no field without a segment.
-/
import Mathlib.Data.List.ModifyLast
import Shell.Proofs.Word.Literal

set_option autoImplicit false

namespace Shell

/-! ## 1. Splitting -/

namespace Field

/-- The segments of arguments: each in quotes, and boundaries between them. -/
def argumentSegments (args : List String) : List Segment := (args.map Segment.quoted).intersperse .boundary

theorem modifyHead_empty (args : List String) : args.modifyHead ("" ++ ·) = args := by
  cases args with
  | nil => rfl
  | cons arg args => rw [List.modifyHead_cons, String.empty_append]

/-- Splitting goes through arguments with quoted text behind them, where the field that is read has `front` so far: that
goes to the first argument, and the text behind them to the last. -/
theorem fields_arguments (ifs : List Char) (arg : String) (args texts : List String) (front : String)
    (fields : List (List Char)) {current : Option (List Char)} {after : Bool}
    (hcurrent : current.getD [] = front.toList.reverse) :
    ((argumentSegments (arg :: args) ++ texts.map Segment.quoted).foldl (Splitting.segment ifs)
        ⟨fields, current, after⟩).close.fields.reverse.map String.ofList =
      fields.reverse.map String.ofList ++
        ((arg :: args).modifyHead (front ++ ·)).modifyLast (· ++ String.join texts) := by
  induction args generalizing arg front fields current after with
  | nil =>
    show ((texts.map Segment.quoted).foldl (Splitting.segment ifs)
      ⟨fields, some (arg.toList.reverse ++ current.getD []), false⟩).close.fields.reverse.map String.ofList = _
    rw [foldl_quoted, hcurrent]
    have hlast : ([arg].modifyHead (front ++ ·)).modifyLast (· ++ String.join texts) =
        [front ++ arg ++ String.join texts] := rfl
    rw [hlast]
    simp only [Splitting.close, List.reverse_append, List.reverse_reverse, List.reverse_cons, List.map_append,
      List.map_cons, List.map_nil, String.ofList_append, String.ofList_toList, String.append_assoc]
  | cons next args ih =>
    -- The argument is a field when the boundary behind it comes, and the next one starts with nothing.
    have hempty : (none : Option (List Char)).getD [] = ("" : String).toList.reverse := rfl
    have hrest := @ih next "" ((arg.toList.reverse ++ current.getD []).reverse :: fields) none false hempty
    refine hrest.trans ?_
    have hlast : ((arg :: next :: args).modifyHead (front ++ ·)).modifyLast (· ++ String.join texts) =
        (front ++ arg) :: (next :: args).modifyLast (· ++ String.join texts) :=
      List.modifyLast_append_of_right_ne_nil _ [front ++ arg] (next :: args) (List.cons_ne_nil _ _)
    rw [modifyHead_empty, hlast, hcurrent]
    simp [String.ofList_append]

/-- **Arguments are fields as they are**, with the quoted texts before them at the first and those behind them at the
last, whatever separates fields. -/
theorem split_arguments (ifs : String) (before args behind : List String) :
    split (before.map .quoted ++ (argumentSegments args ++ behind.map .quoted)) ifs =
      if args = [] then if before = [] ∧ behind = [] then [] else [String.join before ++ String.join behind]
      else (args.modifyHead (String.join before ++ ·)).modifyLast (· ++ String.join behind) := by
  cases args with
  | nil =>
    have hquoted : before.map Segment.quoted ++ (argumentSegments [] ++ behind.map .quoted) =
        (before ++ behind).map .quoted := List.map_append.symm
    rw [if_pos rfl, hquoted]
    by_cases hnone : before = [] ∧ behind = []
    · rw [if_pos hnone, hnone.1, hnone.2]
      rfl
    · rw [if_neg hnone, split_map_quoted fun h => hnone (List.append_eq_nil_iff.mp h), String.join_append]
  | cons arg args =>
    rw [if_neg (List.cons_ne_nil arg args)]
    unfold split
    rw [List.foldl_append]
    -- Without text before the arguments, the first one begins the first field itself.
    cases before with
    | nil => exact fields_arguments ifs.toList arg args behind "" [] rfl
    | cons text before =>
      have hfront : ((text :: before).map Segment.quoted).foldl (Splitting.segment ifs.toList) {} =
          ⟨[], some (String.join (text :: before)).toList.reverse, false⟩ := by
        show (before.map Segment.quoted).foldl (Splitting.segment ifs.toList)
          ⟨[], some (text.toList.reverse ++ []), false⟩ = _
        rw [foldl_quoted, String.join_cons, String.toList_append, List.reverse_append, List.append_nil]
      rw [hfront]
      exact fields_arguments ifs.toList arg args behind (String.join (text :: before)) [] rfl

end Field

/-! ## 2. Words -/

namespace Expansion

variable {c : Context} {s : State}

/-- Parts one after the other have their segments one after the other. -/
theorem partsSegments_append (run : Runner) (quoted : Bool) (parts others : List WordPart) :
    partsSegments run quoted (parts ++ others) = (do
      let segments ← partsSegments run quoted parts
      return segments ++ (← partsSegments run quoted others)) := by
  induction parts with
  | nil =>
    rw [partsSegments]
    exact (Exec.bind_pure (partsSegments run quoted others)).symm
  | cons part parts ih =>
    rw [List.cons_append, partsSegments, partsSegments, ih]
    simp only [Exec.bind_assoc]
    refine congrArg (partSegments run quoted part >>= ·) (funext fun first => ?_)
    refine congrArg (partsSegments run quoted parts >>= ·) (funext fun segments => ?_)
    refine congrArg (partsSegments run quoted others >>= ·) (funext fun more => ?_)
    show (pure (first ++ (segments ++ more)) : Exec (List Field.Segment)) = pure (first ++ segments ++ more)
    rw [List.append_assoc]

/-- The segments of `"$@"`. -/
theorem partSegments_arguments (run : Runner) (quoted : Bool)
    (next : Except Abort (List Field.Segment) → State → Job Ending) :
    partSegments run quoted (.doubleQuoted [.parameter "@"]) c s next =
      next (.ok (Field.argumentSegments s.env.args)) s := by
  have hany : [WordPart.parameter "@"].any isAllPositional = true := rfl
  rw [partSegments, partsSegments, partsSegments, partSegments]
  show next (.ok (if (Field.argumentSegments s.env.args ++ []).isEmpty && !([WordPart.parameter "@"].any isAllPositional)
    then [.quoted ""] else Field.argumentSegments s.env.args ++ [])) s = _
  rw [hany, Bool.not_true, Bool.and_false, List.append_nil]
  rfl

/-- Text without expansions before or behind other parts. -/
theorem exists_segments {parts : List WordPart} {text : String} (h : WordPart.literalTexts? parts = some text)
    (run : Runner) : ∃ texts : List String, partsSegments run false parts = pure (texts.map .quoted) ∧
      String.join texts = text ∧ (texts = [] ↔ parts = []) := by
  cases parts with
  | nil =>
    obtain rfl := Option.some.inj h
    exact ⟨[], by rw [partsSegments]; rfl, rfl, iff_of_true rfl rfl⟩
  | cons part parts =>
    obtain ⟨texts, hsegments, hjoin, hne⟩ := partsSegments_of_literalTexts? run false _ text h
    exact ⟨texts, hsegments, hjoin, iff_of_false (hne (List.cons_ne_nil _ _)) (List.cons_ne_nil _ _)⟩

/-- **`A"$@"B` is expanded to the positional parameters as they are**, empty ones included, with `A` before the first
and `B` behind the last, whatever separates fields. Without parameters it is the field `AB`, or no field if neither
`A` nor `B` is written. -/
theorem wordFields_arguments (run : Runner) (line : Nat) {before behind : List WordPart} {a b : String}
    (hbefore : WordPart.literalTexts? before = some a) (hbehind : WordPart.literalTexts? behind = some b)
    (next : Except Abort (List String) → State → Job Ending) :
    wordFields run ⟨line, before ++ .doubleQuoted [.parameter "@"] :: behind⟩ c s next =
      next (.ok (if s.env.args = [] then if before = [] ∧ behind = [] then [] else [a ++ b]
        else (s.env.args.modifyHead (a ++ ·)).modifyLast (· ++ b))) s := by
  obtain ⟨first, hfirst, rfl, hfirstNil⟩ := exists_segments hbefore run
  obtain ⟨last, hlast, rfl, hlastNil⟩ := exists_segments hbehind run
  simp only [← hfirstNil, ← hlastNil]
  rw [← Field.split_arguments (separators s.env)]
  unfold wordFields
  rw [wordSegments, partsSegments_append, hfirst, partsSegments, hlast]
  exact partSegments_arguments run false _

/-- The fields of `"$@"` are the positional parameters. -/
theorem wordFields_allArguments (run : Runner) (line : Nat) (next : Except Abort (List String) → State → Job Ending) :
    wordFields run ⟨line, [.doubleQuoted [.parameter "@"]]⟩ c s next = next (.ok s.env.args) s := by
  have hnothing : WordPart.literalTexts? [] = some "" := rfl
  refine (wordFields_arguments run line hnothing hnothing next).trans ?_
  have hsame : (if s.env.args = [] then if ([] : List WordPart) = [] ∧ ([] : List WordPart) = [] then [] else ["" ++ ""]
      else (s.env.args.modifyHead ("" ++ ·)).modifyLast (· ++ "")) = s.env.args := by
    by_cases hargs : s.env.args = []
    · rw [if_pos hargs, if_pos ⟨rfl, rfl⟩, hargs]
    · obtain ⟨args, arg, hlast⟩ := (List.eq_nil_or_concat s.env.args).resolve_left hargs
      rw [if_neg hargs, Field.modifyHead_empty, hlast, List.concat_eq_append, List.modifyLast_concat, String.append_empty]
  rw [hsame]

/-- **A parameter in double quotes is one field**, with its value as it is, whatever separates fields. -/
theorem wordFields_quotedParameter (run : Runner) (line : Nat) {name : String} (hname : name ≠ "@" ∧ name ≠ "*")
    {value : Option String} (hvalue : value? s.env name = .ok value)
    (next : Except Abort (List String) → State → Job Ending) :
    wordFields run ⟨line, [.doubleQuoted [.parameter name]]⟩ c s next = next (.ok [value.getD ""]) s := by
  have hparameter (next : Except Abort (Option String) → State → Job Ending) :
      parameter name c s next = next (.ok value) s := by
    have henv (f : Environment → Exec (Option String)) : (do f (← Exec.env)) c s next = f s.env c s next := rfl
    rw [parameter, henv, hvalue]
    rfl
  have hsegments : parameterSegments name true = (do
      return [segment true ((← parameter name).getD "")] : Exec (List Field.Segment)) :=
    if_neg (not_or.mpr hname)
  have hpart (next : Except Abort (List Field.Segment) → State → Job Ending) :
      partSegments run false (.doubleQuoted [.parameter name]) c s next = next (.ok [.quoted (value.getD "")]) s := by
    rw [partSegments, partsSegments, partsSegments, partSegments, hsegments]
    exact hparameter _
  unfold wordFields
  rw [wordSegments, partsSegments, partsSegments]
  refine (hpart _).trans ?_
  have hfields : Field.split ([value.getD ""].map .quoted) (separators s.env) = [value.getD ""] := by
    rw [Field.split_map_quoted (List.cons_ne_nil _ _)]
    simp
  show next (.ok (Field.split ([value.getD ""].map .quoted) (separators s.env))) s = _
  rw [hfields]

/-- A name does not start with a digit of any script. -/
theorem isDigit_of_isStart {c : Char} (h : Name.isStart c = true) : Text.isDigit c = false := by
  have hbounds : 57 < c.toNat ∧ c.toNat < 0x80 := by
    simp only [Name.isStart, Text.isAsciiLetter, Bool.or_eq_true, Text.between_iff, Char.reduceToNat,
      beq_iff_eq] at h
    rcases h with (h | h) | rfl
    · omega
    · omega
    · decide
  have hnine : ¬ c ≤ '9' := Nat.not_le_of_lt hbounds.1
  rw [Text.isDigit, if_pos hbounds.2, Text.isAsciiDigit, decide_eq_false hnine, Bool.and_false]

/-- What has the form of a name is a variable. -/
theorem value?_of_isIdentifier {name : String} (h : Name.isIdentifier name.toList = true) (env : Environment) :
    value? env name = .ok (env.get? name) := by
  have hspecial : ∀ special ∈ ["?", "#", "@", "*", "$", "0"], name ≠ special := by
    rintro special hmem rfl
    revert h
    simp only [List.mem_cons, List.not_mem_nil, or_false] at hmem
    rcases hmem with rfl | rfl | rfl | rfl | rfl | rfl <;> decide
  have hdigits : name.toList.all Text.isDigit = false := by
    cases hname : name.toList with
    | nil => rw [hname] at h; cases h
    | cons d ds =>
      rw [hname] at h
      have hstart : Name.isStart d = true := (Bool.and_eq_true_iff.mp h).1
      rw [List.all_cons, isDigit_of_isStart hstart, Bool.false_and]
  simp only [List.forall_mem_cons, List.not_mem_nil, false_imp_iff, implies_true, and_true] at hspecial
  obtain ⟨hstatus, hnumber, hall, hjoined, hprocess, hscript⟩ := hspecial
  unfold value?
  rw [if_neg hstatus, if_neg hnumber, if_neg (not_or.mpr ⟨hall, hjoined⟩), if_neg hprocess, if_neg hscript, hdigits,
    Bool.and_false, if_neg Bool.false_ne_true]

end Expansion

end Shell
