/-
The listing of exported variables, run as a script.

What `export` writes is a script of commands that export one variable each. If all values are inert, each
command gives a variable its value and marks it, and nothing else (`andOr_of_exports`). So where
nothing is set and nothing is exported, just the exported variables are there afterwards, and in whatever
order they come their values do not get in each other's way (`Session.export_readsBack`).

A value that is not inert is expanded when it is read back, or runs as a command: the listing of `$x` is the
listing of nothing (`Session.dollar_not_readBack`).
-/
import Shell.Proofs.Exec.Listing
import Shell.Proofs.Script.Exports

set_option autoImplicit false

namespace Shell

/-! ## 1. Exported variables -/

namespace Environment

variable {env : Environment} {entries : List (String × String)}

/-- The exported variables are those that are marked and have a value. -/
theorem mem_exportedVariables_iff {name value : String} :
    (name, value) ∈ env.exportedVariables ↔
      env.exported.contains name = true ∧ env.get? name = some value := by
  simp only [exportedVariables, List.mem_filterMap, Option.map_eq_some_iff, Prod.mk.injEq,
    Table.mem_keys_iff]
  constructor
  · rintro ⟨_, hmark, _, hvalue, rfl, rfl⟩
    exact ⟨hmark, hvalue⟩
  · rintro ⟨hmark, hvalue⟩
    exact ⟨name, hmark, value, hvalue, rfl, rfl⟩

/-- The environment with variables set and marked, one after the other. -/
def exporting (env : Environment) (entries : List (String × String)) : Environment :=
  entries.foldl (fun env entry => env.override entry.1 entry.2) env

/-- A value that is set and marked is the value of its name. -/
theorem get?_override (env : Environment) (name value key : String) :
    (env.override name value).get? key = if name = key then some value else env.get? key :=
  Table.get?_insert env.vars name key value

/-- It is marked besides those that were. -/
theorem contains_override (env : Environment) (name value key : String) :
    (env.override name value).exported.contains key =
      (decide (name = key) || env.exported.contains key) := by
  show ((env.exported.insert name ()).get? key).isSome = _
  rw [Table.get?_insert]
  by_cases h : name = key <;> simp [h, Table.contains]

/-- Only what is exported gets a mark. -/
theorem contains_exporting (key : String) :
    (env.exporting entries).exported.contains key = true ↔
      (∃ value, (key, value) ∈ entries) ∨ env.exported.contains key = true := by
  unfold exporting
  induction entries generalizing env with
  | nil => simp
  | cons entry entries ih =>
    rw [List.foldl_cons, ih, contains_override]
    simp only [Bool.or_eq_true, decide_eq_true_eq, List.mem_cons, exists_or, ← or_assoc]
    -- The mark of the first entry is put beside those that follow it.
    refine or_congr_left ((or_comm).trans (or_congr_left ⟨?_, ?_⟩))
    · rintro rfl
      exact ⟨entry.2, rfl⟩
    · rintro ⟨value, heq⟩
      exact (congrArg Prod.fst heq).symm

/-- A name that is exported with one value only has that value. -/
theorem get?_exporting {key value : String} (hmem : (key, value) ∈ entries)
    (hone : ∀ other, (key, other) ∈ entries → other = value) :
    (env.exporting entries).get? key = some value := by
  -- The last entry of the name counts, and all of them have the same value.
  have hlast (env : Environment) (h : (∃ other, (key, other) ∈ entries) ∨ env.get? key = some value) :
      (env.exporting entries).get? key = some value := by
    clear hmem
    unfold exporting
    induction entries generalizing env with
    | nil => exact h.resolve_left (by simp)
    | cons entry entries ih =>
      rw [List.foldl_cons]
      refine ih (fun other hother => hone other (List.mem_cons_of_mem _ hother)) _ ?_
      rw [get?_override]
      by_cases hkey : entry.1 = key
      · rw [if_pos hkey, hone entry.2 (hkey ▸ List.mem_cons_self)]
        exact .inr rfl
      · rw [if_neg hkey]
        refine h.imp_left ?_
        rintro ⟨other, hother⟩
        rcases List.mem_cons.mp hother with rfl | hother
        · exact absurd rfl hkey
        · exact ⟨other, hother⟩
  exact hlast env (.inl ⟨value, hmem⟩)

/-- **Exporting the exported variables of an environment gives just these**, where nothing is exported. -/
theorem mem_exporting_iff {other : Environment} (hempty : other.exported = ∅) {entry : String × String} :
    entry ∈ (other.exporting env.exportedVariables).exportedVariables ↔ entry ∈ env.exportedVariables := by
  obtain ⟨name, value⟩ := entry
  -- No name has two values among the exported ones, so the value of a name is the one of its entry.
  have hvalue {value : String} (h : (name, value) ∈ env.exportedVariables) :
      (other.exporting env.exportedVariables).get? name = some value := by
    refine get?_exporting h fun value' h' => ?_
    rw [mem_exportedVariables_iff] at h h'
    exact Option.some.inj (h'.2.symm.trans h.2)
  rw [mem_exportedVariables_iff, contains_exporting, hempty]
  constructor
  · rintro ⟨hmark | hmark, hget⟩
    · obtain ⟨value', hmem⟩ := hmark
      rw [hvalue hmem] at hget
      exact Option.some.inj hget ▸ hmem
    · cases hmark
  · intro hmem
    exact ⟨.inl ⟨value, hmem⟩, hvalue hmem⟩

end Environment

/-! ## 2. One command -/

namespace Variables

/-- A name, a sign and a value are read as what they are. -/
theorem ofText_assignment {name value text : String} (hname : Name.isIdentifier name.toList = true)
    (htext : text.toList = name.toList ++ '=' :: value.toList) :
    ExportOperand.ofText text = ⟨name, some value, false⟩ := by
  have hrest := (isRest_of_isIdentifier hname).2
  have hne (sign : Char) (hsign : Name.isRest sign = false) : ∀ c ∈ name.toList, c ≠ sign := by
    rintro c hc rfl
    rw [hrest c hc] at hsign
    cases hsign
  -- The name holds no sign of equality, so the text is cut at the first.
  have hspan : text.toList.span (· ≠ '=') = (name.toList, '=' :: value.toList) := by
    rw [htext, List.span_eq_takeWhile_dropWhile]
    have hall : ∀ c ∈ name.toList, decide (c ≠ '=') = true := fun c hc =>
      decide_eq_true (hne '=' (by decide) c hc)
    rw [List.takeWhile_append_of_pos hall, List.dropWhile_append_of_pos hall]
    simp
  -- Nor does it end in a plus, which would make the value one to append.
  have hplus : name.toList.getLast? ≠ some '+' := fun h =>
    hne '+' (by decide) '+' (List.mem_of_getLast? h) rfl
  unfold ExportOperand.ofText
  rw [hspan]
  simp only [if_neg hplus, String.ofList_toList]

/-- `export NAME=VALUE` sets and marks the name. -/
theorem exportNames_assignment {name value text : String} (hname : Name.isIdentifier name.toList = true)
    (htext : text.toList = name.toList ++ '=' :: value.toList) (env : Environment) :
    exportNames env [text] = ({}, env.override name value) := by
  have hvalid := Name.isValid_of_isIdentifier hname
  obtain ⟨c, cs, hcs⟩ := List.exists_cons_of_ne_nil (isRest_of_isIdentifier hname).1
  have hdash : c ≠ '-' := by
    rintro rfl
    have hrest := (isRest_of_isIdentifier hname).2 '-' (hcs ▸ List.mem_cons_self)
    exact absurd hrest (by decide)
  -- A name starts with no dash, so the operand is taken for no option.
  have hoption : isOption '-' text = false := by
    unfold isOption
    rw [htext, hcs, List.cons_append]
    split
    · next heq =>
      obtain ⟨rfl, -⟩ := List.cons.inj heq
      simpa using hdash
    · rfl
  have hends : text ≠ "--" := by
    rintro rfl
    rw [hcs] at htext
    exact hdash (List.cons.inj htext).1.symm
  -- There is one operand, and it is an assignment.
  have hread : ExportRequest.read {} [text] = .ok { operands := [text] } := by
    unfold ExportRequest.read
    rw [if_neg hends, hoption]
    rfl
  have hstep : exportStep false env text = .ok (env.override name value) := by
    unfold exportStep
    simp only [ofText_assignment hname htext, hvalid, if_true]
    rfl
  unfold exportNames
  rw [hread]
  show forEach (exportStep false) env [text] = _
  unfold forEach
  rw [List.foldl_cons, List.foldl_nil, Step.run, hstep]
  rfl

end Variables

namespace Execution

variable {c : Context} {s : State} {statement : AndOrList}

/-- The state after a variable has been exported. -/
def exported (s : State) (name value : String) : State :=
  { s with env := { s.env.override name value with status := 0 } }

/-- A list of one command comes to the status of the command, and remembers it. -/
theorem andOr_of_command {run : Runner} {x : Command} {s' : State} {code : Nat}
    (h : ∀ next, command run x c s next = next (.ok (.status code)) s')
    (next : Except Abort Outcome → State → Job Ending) :
    andOr run ⟨⟨false, x, []⟩, []⟩ c s next =
      next (.ok (.status code)) { s' with env := { s'.env with status := code } } := by
  show command run x c s _ = _
  rw [h]
  rfl

/-- The name `export` is a builtin, whatever functions and utilities there are. -/
theorem resolve?_export (env : Environment) (spawner : Spawner) :
    Meaning.resolve? env spawner "export" = some (.builtin .export) := by
  have hname : Builtin.ofName? "export" = some .export := by decide
  unfold Meaning.resolve? Meaning.runnable
  rw [hname]
  rfl

/-- Fields that export a name with a value. -/
theorem runFields_export {name value text : String} (hname : Name.isIdentifier name.toList = true)
    (htext : text.toList = name.toList ++ '=' :: value.toList) (run : Runner)
    (next : Except Abort Outcome → State → Job Ending) :
    runFields run ["export", text] c s next =
      next (.ok (.status 0)) { s with env := s.env.override name value } := by
  -- The name of the command is looked up first, and it is the builtin.
  have hfollow : Call.follow .export [text] = .builtin .export [text] := by
    unfold Call.follow
    rfl
  have hbuiltin : Builtin.run run .export [text] = Exec.change (Variables.exportNames · [text]) := by
    unfold Builtin.run
    rw [hfollow]
    rfl
  have hchange : Exec.change (Variables.exportNames · [text]) c s next =
      next (.ok (.status 0)) { s with env := s.env.override name value } := by
    show (Answer.give (Variables.exportNames s.env [text]).1) c
      { s with env := (Variables.exportNames s.env [text]).2 } next = _
    rw [Variables.exportNames_assignment hname htext]
    rfl
  rw [← hchange, ← hbuiltin]
  simp only [runFields, bind, Exec.env, Exec.get, Exec.context, pure, resolve?_export]

/-- A statement that exports a variable does so, and comes to the status 0. -/
theorem andOr_of_exports {name value : String} (hname : Name.isIdentifier name.toList = true)
    (h : statement.Exports name value) (run : Runner) (next : Except Abort Outcome → State → Job Ending) :
    andOr run statement c s next = next (.ok (.status 0)) (exported s name value) := by
  obtain ⟨line, command, argument, rfl, hcommand, hne, hargument, hne'⟩ := h
  obtain ⟨text, htext⟩ : ∃ text : String, text.toList = name.toList ++ '=' :: value.toList :=
    ⟨String.ofList _, String.toList_ofList⟩
  -- Both words are literal: one field comes out of each, and nothing is expanded.
  have hfirst : Expansion.wordFields run command = (pure ["export"] : Exec (List String)) :=
    Expansion.wordFields_of_literal? hcommand hne run
  have hsecond : Expansion.wordFields run argument = (pure [text] : Exec (List String)) :=
    Expansion.wordFields_of_literal? (hargument.trans (congrArg some htext.symm)) hne' run
  have hfields : Expansion.fields run [command, argument] = (pure ["export", text] : Exec (List String)) := by
    rw [Expansion.fields, Expansion.fields, Expansion.fields, hfirst, hsecond]
    rfl
  -- There is nothing to set before the command and nothing to restore after it.
  have hnamed (next : Except Abort Outcome → State → Job Ending) :
      runNamed run [command, argument] [] c s next = runFields run ["export", text] c s next := by
    unfold runNamed
    rw [hfields]
    rfl
  have hcommand (next : Except Abort Outcome → State → Job Ending) :
      Execution.command run (.simple line (some command) [argument] []) c s next =
        next (.ok (.status 0)) { s with env := s.env.override name value } :=
    (hnamed next).trans (runFields_export hname htext run next)
  exact andOr_of_command hcommand next

/-! ## 3. All commands -/

/-- The state after variables have been exported one after the other. -/
def exportedAll (s : State) (entries : List (String × String)) : State :=
  entries.foldl (fun s entry => exported s entry.1 entry.2) s

/-- The state after all commands exports what the environment does after all exports. -/
theorem env_exportedAll (entries : List (String × String)) :
    (exportedAll s entries).env.exportedVariables = (s.env.exporting entries).exportedVariables := by
  have hstatus (env : Environment) (status : Nat) (entries : List (String × String)) :
      (({ env with status := status } : Environment).exporting entries).exportedVariables =
        (env.exporting entries).exportedVariables := by
    induction entries generalizing env with
    | nil => rfl
    | cons entry entries ih => exact ih (env.override entry.1 entry.2)
  unfold exportedAll
  induction entries generalizing s with
  | nil => rfl
  | cons entry entries ih => exact ih.trans (hstatus (s.env.override entry.1 entry.2) 0 entries)

/-- **Variables are exported one after the other**, where there is room for that many lists. -/
theorem advance_statements_exports {one body : AndOrList → Exec Outcome}
    (hone : ∀ list, one list = (do countCommand; body list))
    (hbody : 0 < c.limits.maxCommandCount.toNat → ∃ run, body = andOr run)
    {entries : List (String × String)} {lists : List AndOrList}
    (hnames : ∀ entry ∈ entries, Name.isIdentifier entry.1.toList = true)
    (h : List.Forall₂ (fun entry list => AndOrList.Exports entry.1 entry.2 list) entries lists)
    (next : Except Abort Outcome → State → Job Ending) (task : Nat) (s : State) (w : World)
    (hroom : w.count + entries.length ≤ c.limits.maxCommandCount.toNat) :
    (statements one 0 lists c s next).advance task w =
      (next (.ok (.status 0)) (exportedAll s entries)).advance task
        { w with count := w.count + entries.length } := by
  -- Each statement counts once and exports one entry, so both the count and the entries go along the list.
  induction h generalizing s w with
  | nil => rfl
  | @cons entry statement entries lists hexports more ih =>
    obtain ⟨hname, hnames⟩ := List.forall_mem_cons.mp hnames
    rw [List.length_cons] at hroom
    have hlimit : ¬ c.limits.maxCommandCount < ((w.count + 1 : Nat) : Int) := by omega
    obtain ⟨run, rfl⟩ := hbody (by omega)
    rw [statements_cons, hone, advance_counted, if_neg hlimit, andOr_of_exports hname hexports]
    have hroom' : w.count + 1 + entries.length ≤ c.limits.maxCommandCount.toNat := by omega
    refine (ih hnames (exported s entry.1 entry.2) { w with count := w.count + 1 } hroom').trans ?_
    rw [List.length_cons, Nat.add_comm entries.length 1, ← Nat.add_assoc]
    rfl

/-- A script of commands that export comes to the status 0. -/
theorem advance_script_exports {entries : List (String × String)} {lists : List AndOrList}
    (hnames : ∀ entry ∈ entries, Name.isIdentifier entry.1.toList = true)
    (h : List.Forall₂ (fun entry list => AndOrList.Exports entry.1 entry.2 list) entries lists)
    (hroom : entries.length ≤ c.limits.maxCommandCount.toNat)
    (next : Except Abort Nat → State → Job Ending) (task : Nat) (s : State) {w : World} (hw : w.count = 0) :
    (script ⟨lists⟩ c s next).advance task w =
      (next (.ok 0) (exportedAll s entries)).advance task { w with count := entries.length } := by
  obtain ⟨one, body, hsequence, hone, hbody⟩ := sequence_eq_statements c.limits.maxCommandCount.toNat lists
  have hall := advance_statements_exports hone hbody hnames h (scriptEnd c next) task s w (by omega)
  rw [hw, Nat.zero_add] at hall
  rw [script_eq_sequence, hsequence]
  exact hall

end Execution

/-! ## 4. Runs -/

namespace Session

variable {env : Environment}

/-- What fits a script, and a run of the session, for which the host has a stack. -/
def FitsExportListing (session : Session) (env : Environment) : Prop :=
  (Variables.exportListing env).toList.length ≤ maxScriptSize ∧
    3 * env.exportedVariables.length < maxTokens ∧
    env.exportedVariables.length ≤ session.limits.maxCommandCount.toNat ∧ session.stackFault? = none

instance (session : Session) (env : Environment) : Decidable (FitsExportListing session env) :=
  inferInstanceAs (Decidable (_ ∧ _ ∧ _ ∧ _))

/-- **The listing of `export` is read back as the exported variables exactly if all values are inert**, and if
it is not too long for a script. If they are, and there is room to run it, then running it where nothing is
set runs a command for each variable and nothing else, succeeds, and gives just these variables. -/
theorem export_readsBack (env : Environment)
    (hnames : ∀ entry ∈ env.exportedVariables, Name.isIdentifier entry.1.toList = true)
    (session : Session) (hempty : session.env.exported = ∅) (input : Input) :
    ((∃ tokens stop, Exports env.exportedVariables tokens ∧
        tokenize (Variables.exportNames env []).1.output.toList ⟨1, 1⟩ =
          .ok (tokens ++ [⟨.endOfInput, stop⟩])) ↔
      (∀ entry ∈ env.exportedVariables, isInert entry.2.toList = true) ∧
        (Variables.exportListing env).toList.length ≤ maxScriptSize) ∧
    ((∀ entry ∈ env.exportedVariables, isInert entry.2.toList = true) →
      session.FitsExportListing env →
      ∃ statements completion next,
        List.Forall₂ (fun entry statement => AndOrList.Exports entry.1 entry.2 statement)
          env.exportedVariables statements ∧
        parse (Variables.exportNames env []).1.output = .ok ⟨statements⟩ ∧
        session.exec (Variables.exportNames env []).1.output input = .ok (completion, next) ∧
        completion.status = .ok 0 ∧ completion.output = "" ∧ completion.errors = "" ∧
        ∀ entry, entry ∈ next.env.exportedVariables ↔ entry ∈ env.exportedVariables) := by
  refine ⟨tokenize_exportListing_iff hnames, ?_⟩
  -- Values that stay as they are in double quotes give one statement for each entry.
  rintro hinert ⟨hsize, htokens, hcount, hstack⟩
  obtain ⟨statements, hexports, hparse⟩ := parse_exportListing hnames hinert hsize htokens
  have hgo := Execution.advance_script_exports (c := session.context) hnames hexports hcount
    (fun r s => .finish ⟨r, s.env⟩) 0 { env := session.env }
    (w := { inputs := #[input], sinks := #[[], []] }) rfl
  have hrun : session.runScript ⟨statements⟩ input =
      ⟨.ok 0, (Execution.exportedAll { env := session.env } env.exportedVariables).env, "", "",
        World.input { inputs := #[input], sinks := #[[], []], count := env.exportedVariables.length }
          standardInput⟩ :=
    complete_of_advance session.env hgo rfl rfl
  refine ⟨statements, _, _, hexports, hparse, exec_of_stack hparse hstack, ?_⟩
  rw [hrun]
  refine ⟨rfl, rfl, rfl, fun entry => ?_⟩
  -- The environment after the run is the one before it with all entries exported.
  have hafter : (after ⟨.ok 0, (Execution.exportedAll { env := session.env } env.exportedVariables).env, "",
      "", World.input { inputs := #[input], sinks := #[[], []], count := env.exportedVariables.length }
        standardInput⟩).exportedVariables =
      (session.env.exporting env.exportedVariables).exportedVariables :=
    Execution.env_exportedAll env.exportedVariables
  show entry ∈ (after _).exportedVariables ↔ _
  rw [hafter]
  exact Environment.mem_exporting_iff hempty

/-- Variables with quotes, backslashes, a newline and dollar signs that open nothing. -/
def quietValues : Environment := .initial [("P", "a\"b\\c\n"), ("Q", "5$ $"), ("E", "")] [] defaultName

/-- Three values with quotes, a newline and dollar signs that start nothing: the listing, and the run that brings
them back. -/
theorem quietValues_readBack :
    Variables.exportListing quietValues = "export E=\"\"\nexport P=\"a\\\"b\\\\c\n\"\nexport Q=\"5$ $\"\n" ∧
      ∃ completion next, ({} : Session).exec (Variables.exportNames quietValues []).1.output (.ofText "") =
          .ok (completion, next) ∧ completion.status = .ok 0 ∧
        ∀ entry, entry ∈ next.env.exportedVariables ↔ entry ∈ quietValues.exportedVariables := by
  have hread := export_readsBack quietValues (by decide +kernel) {} rfl (.ofText "")
  obtain ⟨_, completion, next, -, -, hexec, hstatus, -, -, hsame⟩ :=
    hread.2 (by decide +kernel) (by decide +kernel)
  exact ⟨by decide +kernel, completion, next, hexec, hstatus, hsame⟩

/-- A variable whose value looks like an expansion. -/
def dollarValue : Environment := .initial [("V", "$x")] [] defaultName

/-- `export V="$x"` and a newline. -/
def dollarScript : Sequence :=
  ⟨[⟨⟨false, .simple 1 (some ⟨1, [.literal "export"]⟩)
    [⟨1, [.literal "V=", .doubleQuoted [.parameter "x"]]⟩] [], []⟩, []⟩]⟩

/-- The value is expanded when it is read back, so that nothing of it is left. -/
theorem dollar_not_readBack :
    (Variables.exportNames dollarValue []).1.output = "export V=\"$x\"\n" ∧
      dollarValue.exportedVariables = [("V", "$x")] ∧
      ∃ completion next, ({} : Session).exec "export V=\"$x\"\n" (.ofText "") = .ok (completion, next) ∧
        completion.status = .ok 0 ∧ next.env.exportedVariables = [("V", "")] := by
  have hparse : parse "export V=\"$x\"\n" = .ok dollarScript := by
    rw [parse, parseFrom_eq_parseWithin]
    cbv
  have hstatus : (({} : Session).runScript dollarScript (.ofText "")).status.toOption = some 0 := by
    decide +kernel
  refine ⟨by decide +kernel, by decide +kernel, _, _, exec_of_stack hparse (by decide), ?_, by decide +kernel⟩
  -- The status is known as an option only, so the abort is excluded by it.
  cases hrun : (({} : Session).runScript dollarScript (.ofText "")).status with
  | ok status =>
    rw [hrun] at hstatus
    rw [Option.some.inj hstatus]
  | error abort =>
    rw [hrun] at hstatus
    cases hstatus

end Session

end Shell
