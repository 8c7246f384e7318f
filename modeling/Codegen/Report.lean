/-
  Verification reports: the checks of an allocated stream and a run of it.
-/
import Codegen.Lint
import Codegen.Machine.Run
import Codegen.Text.Table

namespace Codegen

/-- What the checks and a run of one function found. -/
structure Report where
  name : String
  /-- The number of items of the stream. -/
  size : Nat
  issues : List Issue
  /-- Why the run did not return, if it did not. -/
  trouble : Option Trouble
  result : Word
  steps : Nat
  deriving DecidableEq, Repr

namespace Report

/-- Checks a stream with the mapping computed for it and runs it, with the
    mapping applied, for at most `limit` steps. -/
def generate (name : String) (items : Stream) (a : Allocation) (palette : List Physical)
    (limit : Int) : Except Fault Report := do
  let issues ← lint items a palette
  let report (trouble : Option Trouble) (m : Machine) : Report :=
    { name, size := items.length, issues, trouble, result := m.result, steps := m.steps }
  match (Machine.start (a.apply items) []).run limit with
  | (none, m) => return report none m
  | (some (.trouble t), m) => return report (some t) m
  | (some (.fault f), _) => throw f

/-- Were there no issues, and did the run return? -/
def passed (r : Report) : Bool := r.issues.isEmpty && r.trouble.isNone

/-- The line between the parts of a report. -/
def separator : String := String.ofList (List.replicate 60 '=')

/-- The heading of a part. -/
def heading (title : String) : List String := [separator, title, separator]

/-- The issues as a table. -/
def issueTable (issues : List Issue) : Text.Table where
  columns := [("Type", .left), ("Index", .right), ("Message", .left)]
  rows := issues.map fun i => [i.kind.name, toString i.index, i.message]

/-- What the checks found. -/
def lintLines (r : Report) : List String :=
  if r.issues.isEmpty then ["✓ No lint issues found!"]
  else ["⚠ Found " ++ toString r.issues.length ++ " lint issues:", "", (issueTable r.issues).render]

/-- What the run came to. -/
def runLine (r : Report) : String :=
  match r.trouble with
  | none => "✓ Returned " ++ Word.text r.result ++ " after " ++ toString r.steps ++ " steps"
  | some t => "⚠ Simulation error: " ++ t.message

/-- The lines of a report. -/
def lines (r : Report) : List String :=
  heading ("VERIFICATION REPORT: " ++ r.name) ++
    ["", "✓ Checked " ++ toString r.size ++ " stream items", ""] ++
    heading "STAGE 1: STATIC LINT CHECKS" ++ r.lintLines ++ [""] ++
    heading "STAGE 2: FUNCTIONAL SIMULATION" ++ [r.runLine, "", separator,
      if r.passed then "✓ PASSED ALL CHECKS" else "⚠ CHECKS FAILED", ""]

/-- The report as text. -/
def text (r : Report) : String := String.join (r.lines.map (· ++ "\n"))

end Report

end Codegen
