/-
`test EXPRESSION` and `[ EXPRESSION ]`: conditions on texts, numbers, variables and files.

The number of arguments decides first: a single argument is a text, and of three arguments
with a comparison in the middle the outer ones are texts, whatever they look like. Longer
expressions are cut at the first `-o` outside parentheses, or else at the first `-a`, neither
of which can be the first or the last argument; then `!` and parentheses are looked for.

Both sides of `-a` and `-o` are evaluated, so a mistake on the right is found even when the
left decides.
-/
import Shell.Environment
import Shell.Files
import Shell.Text.Numeral

set_option autoImplicit false

namespace Shell.Test

open Shell.Text

/-- What is wrong with an expression. -/
inductive Mistake where
  | missingArgument
  | missingParenthesis
  | notUnary (op : String)
  | notBinary (op : String)
  | tooManyArguments
  | notInteger (text : String)
  | nullInFileName
  deriving DecidableEq, Repr

def Mistake.message : Mistake → String
  | missingArgument => "argument expected"
  | missingParenthesis => "missing `)'"
  | notUnary op => op ++ ": unary operator expected"
  | notBinary op => op ++ ": binary operator expected"
  | tooManyArguments => "too many arguments"
  | notInteger text => text ++ ": integer expression expected"
  | nullInFileName => "embedded null byte"

/-! ## Operators -/

/-- A comparison of numbers. -/
inductive Order where
  | equal | notEqual | less | atMost | greater | atLeast
  deriving DecidableEq, Repr

def Order.holds (order : Order) (l r : Int) : Bool :=
  match order with
  | equal => l == r
  | notEqual => l != r
  | less => decide (l < r)
  | atMost => decide (l ≤ r)
  | greater => decide (r < l)
  | atLeast => decide (r ≤ l)

inductive Comparison where
  | same | different | before | after
  | numbers (order : Order)
  deriving DecidableEq, Repr

def Comparison.ofText? (text : String) : Option Comparison :=
  match text with
  | "=" => some .same
  | "==" => some .same
  | "!=" => some .different
  | "<" => some .before
  | ">" => some .after
  | "-eq" => some (.numbers .equal)
  | "-ne" => some (.numbers .notEqual)
  | "-lt" => some (.numbers .less)
  | "-le" => some (.numbers .atMost)
  | "-gt" => some (.numbers .greater)
  | "-ge" => some (.numbers .atLeast)
  | _ => none

/-- The value of a text as a number. -/
def integer (text : String) : Except Mistake Int :=
  match readDecimal? (trim text.toList) with
  | some n => .ok n
  | none => .error (.notInteger text)

/-- Whether two texts compare as asked. Texts are ordered by the codes of their
characters. -/
def Comparison.holds (comparison : Comparison) (l r : String) : Except Mistake Bool :=
  match comparison with
  | same => .ok (l == r)
  | different => .ok (l != r)
  | before => .ok (decide (l < r))
  | after => .ok (decide (r < l))
  | numbers order => do
    let m ← integer l
    let n ← integer r
    return order.holds m n

/-- What a condition on one text asks for. -/
inductive Property where
  | empty | notEmpty
  /-- The text is the name of a variable. -/
  | set
  | present | file | directory
  /-- A file that holds something, or a directory. -/
  | filled
  | readable | writable | executable
  | link
  deriving DecidableEq, Repr

def Property.ofText? (text : String) : Option Property :=
  match text with
  | "-z" => some .empty
  | "-n" => some .notEmpty
  | "-v" => some .set
  | "-e" => some .present
  | "-f" => some .file
  | "-d" => some .directory
  | "-h" => some .link
  | "-L" => some .link
  | "-s" => some .filled
  | "-r" => some .readable
  | "-w" => some .writable
  | "-x" => some .executable
  | _ => none

/-- What conditions are about. -/
structure Surroundings where
  env : Environment
  files : Files

/-- Whether access to a file is granted. A null character in its name is a mistake here, while
for all other questions about files there is just no such file. -/
def granted (files : Files) (path : String) (granted : Files.Node → Bool) : Except Mistake Bool :=
  match files.find path with
  | .ok node => .ok (granted node)
  | .error .null => .error .nullInFileName
  | .error _ => .ok false

/-- Whether a text has a property. -/
def Property.holds (property : Property) (s : Surroundings) (text : String) : Except Mistake Bool :=
  match property with
  | empty => .ok text.isEmpty
  | notEmpty => .ok !text.isEmpty
  | set => .ok (s.env.contains text)
  | present => .ok (s.files.exists? text)
  | file => .ok (s.files.isFile text)
  | directory => .ok (s.files.isDirectory text)
  | link => .ok false
  | filled =>
    match s.files.find text with
    | .ok (.file bytes) => .ok !bytes.isEmpty
    | .ok .directory => .ok true
    | .error _ => .ok false
  | readable => granted s.files text fun _ => true
  | writable => granted s.files text fun _ => true
  | executable => granted s.files text fun node => node == .directory

/-! ## Expressions -/

/-- The arguments before and after the first `op` outside parentheses that is neither the first
nor the last argument. `depth` counts the parentheses that are open after the arguments
`before`, which are backwards. -/
def cutAt? (op : String) (depth : Int) (before : List String) :
    List String → Option (List String × List String)
  | [] => none
  | arg :: rest =>
    if arg = "(" then cutAt? op (depth + 1) (arg :: before) rest
    else if arg = ")" then cutAt? op (depth - 1) (arg :: before) rest
    else if arg = op ∧ depth = 0 ∧ !before.isEmpty ∧ !rest.isEmpty then some (before.reverse, rest)
    else cutAt? op depth (arg :: before) rest

/-- A cut takes the operator away and nothing else. -/
theorem length_of_cutAt? {op : String} {args l r : List String} {depth : Int}
    {before : List String} (h : cutAt? op depth before args = some (l, r)) :
    l.length + r.length + 1 = before.length + args.length := by
  induction args generalizing depth before with
  | nil => simp [cutAt?] at h
  | cons arg rest ih =>
    unfold cutAt? at h
    split at h
    · have := ih h; simp only [List.length_cons] at *; omega
    split at h
    · have := ih h; simp only [List.length_cons] at *; omega
    split at h
    · simp only [Option.some.injEq, Prod.mk.injEq] at h
      obtain ⟨rfl, rfl⟩ := h
      simp only [List.length_reverse, List.length_cons]; omega
    · have := ih h; simp only [List.length_cons] at *; omega

/-- Whether an expression holds. -/
def evaluate (s : Surroundings) (args : List String) : Except Mistake Bool :=
  match args with
  | [] => .error .missingArgument
  | [text] => .ok !text.isEmpty
  | first :: second :: rest =>
    match if rest.length = 1 then Comparison.ofText? second else none with
    | some comparison => comparison.holds first (rest.headD "")
    | none =>
      match _ho : cutAt? "-o" 0 [] (first :: second :: rest) with
      | some (l, r) => do
        let left ← evaluate s l
        let right ← evaluate s r
        return left || right
      | none =>
        match _ha : cutAt? "-a" 0 [] (first :: second :: rest) with
        | some (l, r) => do
          let left ← evaluate s l
          let right ← evaluate s r
          return left && right
        | none =>
          if first = "!" then return !(← evaluate s (second :: rest))
          else if first = "(" then
            if (second :: rest).getLast? ≠ some ")" then .error .missingParenthesis
            else evaluate s (second :: rest).dropLast
          else
            match rest with
            | [] =>
              match Property.ofText? first with
              | some property => property.holds s second
              | none => .error (.notUnary first)
            | [_] => .error (.notBinary second)
            | _ => .error .tooManyArguments
termination_by args.length
decreasing_by
  · have := length_of_cutAt? _ho; simp only [List.length_cons, List.length_nil] at *; omega
  · have := length_of_cutAt? _ho; simp only [List.length_cons, List.length_nil] at *; omega
  · have := length_of_cutAt? _ha; simp only [List.length_cons, List.length_nil] at *; omega
  · have := length_of_cutAt? _ha; simp only [List.length_cons, List.length_nil] at *; omega
  · simp
  · simp only [List.length_dropLast, List.length_cons]; omega

end Shell.Test
