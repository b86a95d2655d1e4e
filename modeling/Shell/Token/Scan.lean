/-
Regions of a script that are closed by a text of their own: quotations, `$(...)`,
`${...}`, `$((...))` and backquotes.

A scan starts behind the text that opens the region and looks for the text that
closes it. It walks over the characters once and skips what is quoted. The
content of a region is read later, as a script or as parts of a word.

The lemmas at the end say that a region is cut out of the text it was found in, so
reading it ends.
-/
import Shell.Script.Error

set_option autoImplicit false

namespace Shell.Scan

/-- A region: its content, what follows the text that closes it, and the place
there. -/
structure Region where
  content : List Char
  rest : List Char
  place : Place

/-- Whether a scan is inside a quotation, which starts at a place. -/
inductive Quotation where
  | none
  | single (start : Place)
  | double (start : Place)

/-- The mistake of a text that ends inside a region: an open quotation, or else
the region itself, which is `missing`. -/
def Quotation.unclosed (quotation : Quotation) (missing : ScriptError) : ScriptError :=
  match quotation with
  | .none => missing
  | .single start => ⟨.unterminatedSingleQuote, start⟩
  | .double start => ⟨.unterminatedDoubleQuote, start⟩

/-- A quotation after one more character `c`, which stands at `place` and is not
after a backslash; none if `c` is neither in a quotation nor a quote. -/
def Quotation.next? (quotation : Quotation) (place : Place) (c : Char) : Option Quotation :=
  match quotation with
  | .none =>
    if c = '\'' then some (.single place) else if c = '"' then some (.double place) else Option.none
  | .single start => some (if c = '\'' then .none else .single start)
  | .double start => some (if c = '"' then .none else .double start)

/-- Whether a backslash escapes the next character. -/
def Quotation.escapes : Quotation → Bool
  | .single _ => false
  | _ => true

/-- The region up to the `closer` that matches an `opener` before it. `depth`
counts the openers inside that are still to be closed, `content` is the content so
far, backwards. -/
def balanced (opener closer : Char) (missing : ScriptError) :
    Quotation → (depth : Nat) → (content : List Char) → Place → List Char →
      Except ScriptError Region
  | quotation, _, _, _, [] => .error (quotation.unclosed missing)
  | quotation, depth, content, place, c :: cs =>
    if c = '\\' ∧ quotation.escapes then
      match cs with
      | [] => .error (quotation.unclosed missing)
      | d :: ds =>
        balanced opener closer missing quotation depth (d :: c :: content)
          ((place.after c).after d) ds
    else match quotation.next? place c with
      | some quotation =>
        balanced opener closer missing quotation depth (c :: content) (place.after c) cs
      | none =>
        if c = opener then
          balanced opener closer missing .none (depth + 1) (c :: content) (place.after c) cs
        else if c = closer then
          match depth with
          | 0 => .ok ⟨content.reverse, cs, place.after c⟩
          | depth + 1 =>
            balanced opener closer missing .none depth (c :: content) (place.after c) cs
        else balanced opener closer missing .none depth (c :: content) (place.after c) cs

/-- The region up to the `))` that closes an expression. -/
def expression (what : Delimited) (missing : ScriptError) :
    Quotation → (depth : Nat) → (content : List Char) → Place → List Char →
      Except ScriptError Region
  | quotation, _, _, _, [] => .error (quotation.unclosed missing)
  | quotation, depth, content, place, c :: cs =>
    if c = '\\' ∧ quotation.escapes then
      match cs with
      | [] => .error (quotation.unclosed missing)
      | d :: ds =>
        expression what missing quotation depth (d :: c :: content) ((place.after c).after d) ds
    else match quotation.next? place c with
      | some quotation =>
        expression what missing quotation depth (c :: content) (place.after c) cs
      | none =>
        if c = '(' then
          expression what missing .none (depth + 1) (c :: content) (place.after c) cs
        else if c = ')' then
          match depth with
          | depth + 1 =>
            expression what missing .none depth (c :: content) (place.after c) cs
          | 0 =>
            match cs with
            | ')' :: rest => .ok ⟨content.reverse, rest, (place.after ')').after ')'⟩
            | _ => .error ⟨.malformed what, place⟩
        else expression what missing .none depth (c :: content) (place.after c) cs

/-- The region up to the next single quote; `start` is the place of the first. -/
def singleQuoted (start : Place) :
    (content : List Char) → Place → List Char → Except ScriptError Region
  | _, _, [] => .error ⟨.unterminatedSingleQuote, start⟩
  | content, place, c :: cs =>
    if c = '\'' then .ok ⟨content.reverse, cs, place.after c⟩
    else singleQuoted start (c :: content) (place.after c) cs

/-- The region up to the next backquote that is not after a backslash; `start` is
the place of the first backquote. -/
def backquoted (start : Place) :
    (content : List Char) → Place → List Char → Except ScriptError Region
  | _, _, [] => .error ⟨.unterminatedBackquote, start⟩
  | content, place, c :: cs =>
    if c = '\x60' then .ok ⟨content.reverse, cs, place.after c⟩
    else if c = '\\' then
      match cs with
      | [] => .error ⟨.unterminatedBackquote, start⟩
      | d :: ds => backquoted start (d :: c :: content) ((place.after c).after d) ds
    else backquoted start (c :: content) (place.after c) cs

/-- The characters that a backslash between backquotes escapes. -/
def isBackquoteEscape (c : Char) : Bool := c == '\x60' || c == '\\' || c == '$'

/-- The script between two backquotes: backslashes before backquotes, backslashes
and dollar signs are taken away. -/
def unescapeBackquoted : List Char → List Char
  | [] => []
  | '\\' :: c :: cs =>
    if isBackquoteEscape c then c :: unescapeBackquoted cs else '\\' :: c :: unescapeBackquoted cs
  | c :: cs => c :: unescapeBackquoted cs

/-! ## Regions are cut out of the text -/

theorem balanced_length {opener closer : Char} {missing : ScriptError} {quotation : Quotation}
    {depth : Nat} {content : List Char} {place : Place} {cs : List Char} {region : Region}
    (h : balanced opener closer missing quotation depth content place cs = .ok region) :
    region.content.length + region.rest.length < content.length + cs.length := by
  fun_induction balanced opener closer missing quotation depth content place cs <;> grind

theorem expression_length {what : Delimited} {missing : ScriptError} {quotation : Quotation}
    {depth : Nat} {content : List Char} {place : Place} {cs : List Char} {region : Region}
    (h : expression what missing quotation depth content place cs = .ok region) :
    region.content.length + region.rest.length < content.length + cs.length := by
  fun_induction expression what missing quotation depth content place cs <;> grind

theorem singleQuoted_length {start : Place} {content : List Char} {place : Place}
    {cs : List Char} {region : Region} (h : singleQuoted start content place cs = .ok region) :
    region.content.length + region.rest.length < content.length + cs.length := by
  fun_induction singleQuoted start content place cs <;> grind

theorem backquoted_length {start : Place} {content : List Char} {place : Place}
    {cs : List Char} {region : Region} (h : backquoted start content place cs = .ok region) :
    region.content.length + region.rest.length < content.length + cs.length := by
  fun_induction backquoted start content place cs <;> grind

end Shell.Scan
