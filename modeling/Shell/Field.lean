/-
Fields: how the expansion of a word is cut into arguments.

An expansion is a list of segments. Quoted text is never cut. Unquoted text is cut at
the characters of IFS: runs of blank, tab and newline count as one delimiter, and any
other character as one of its own, together with the white space around it. A
boundary between the elements of `"$@"` ends the field before it.

A field exists once it has a character or a quoted segment. So an empty quoted text is
a field, and an unquoted expansion to nothing is none.
-/
set_option autoImplicit false

namespace Shell.Field

/-- A piece of expanded text. -/
inductive Segment where
  /-- Text that may be cut. -/
  | plain (text : String)
  /-- Text that may not be cut. -/
  | quoted (text : String)
  /-- A boundary between two fields. -/
  | boundary
  deriving DecidableEq, Repr

/-- The characters of IFS that merge into one delimiter. -/
def isSpace (c : Char) : Bool := c == ' ' || c == '\t' || c == '\n'

/-- The state of splitting. -/
structure Splitting where
  /-- The fields so far, the last one first. -/
  fields : List (List Char) := []
  /-- The characters of the field that is being read, backwards; none between
  fields. -/
  current : Option (List Char) := none
  /-- Whether the last delimiter was white space alone. -/
  afterSpace : Bool := false

namespace Splitting

/-- Ends the field that is being read, if there is one. -/
def close (s : Splitting) : Splitting :=
  match s.current with
  | some chars => { s with fields := chars.reverse :: s.fields, current := none }
  | none => s

/-- Adds text to the field that is being read, or starts one with it. -/
def add (s : Splitting) (cs : List Char) : Splitting :=
  { s with current := some (cs.reverse ++ s.current.getD []), afterSpace := false }

/-- One unquoted character. White space ends a field. Another character of IFS ends a
field too, unless the white space before it has; after another delimiter it stands for
an empty field. -/
def char (ifs : List Char) (s : Splitting) (c : Char) : Splitting :=
  if ifs.contains c then
    if isSpace c then
      if s.current.isSome then { s.close with afterSpace := true } else s
    else
      let s := if s.current.isNone && !s.afterSpace then { s with fields := [] :: s.fields } else s.close
      { s with afterSpace := false }
  else s.add [c]

/-- One segment. -/
def segment (ifs : List Char) (s : Splitting) : Segment → Splitting
  | .plain text => text.toList.foldl (char ifs) s
  | .quoted text => s.add text.toList
  | .boundary => { s.close with afterSpace := false }

end Splitting

/-- The fields that segments are cut into. -/
def split (segments : List Segment) (ifs : String) : List String :=
  let s := (segments.foldl (Splitting.segment ifs.toList) {}).close
  s.fields.reverse.map String.ofList

/-- The text of segments that are not cut; a boundary is a blank. -/
def join (segments : List Segment) : String :=
  String.join (segments.map fun
    | .plain text => text
    | .quoted text => text
    | .boundary => " ")

end Shell.Field
