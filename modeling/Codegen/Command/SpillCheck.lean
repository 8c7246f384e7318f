/-
  The command that checks spill code.

  It compiles a function that keeps a number of values alive at once, for a
  target with few registers, and reports on the result.
-/
import Codegen.Backend
import Codegen.Command.Basic
import Codegen.Command.Flags
import Codegen.Report
import Codegen.Sample

namespace Codegen.Command

/-- A body that keeps the numbers up to `count` alive at once and returns their
    sum.  There must be a number, and not more than memory `holds`. -/
def sumOfValues (holds : Int → Bool) (count : Int) : Fresh Flow := do
  if count < 0 ∨ holds count = false then throw .negativeArguments
  let values ← (List.range count.toNat).mapM fun _ => Fresh.register
  let acc ← Fresh.register
  match values with
  | [] => throw (.outOfRange 0 0)
  | first :: rest =>
    let define := values.zipIdx.map fun (r, k) => Stmt.write r (.const (Int64.ofNat (k + 1)))
    let add := rest.map fun r => Stmt.write acc (.binary .add (.read acc) (.read r))
    return Sample.body (define ++ [.write acc (.read first)] ++ add ++
      [.write (.physical .rax) (.read acc), .ret true])

/-- A target with four registers and two scratch registers. -/
def pressure : Target where
  name := "pressure"
  palette := [.rax, .rbx, .rcx, .rdx, .r10, .r11]
  scratch := [.r10, .r11]

/-- The target has as many scratch registers as spill code needs. -/
theorem minScratch_le_pressure : Target.minScratch ≤ pressure.scratch.length := Nat.le_refl 2

/-- The backend of the command. -/
def spillBackend : Backend := ⟨"Backend", Amd64.catalogue, pressure, minScratch_le_pressure⟩

/-- The greatest number of steps of a run. -/
def spillSteps : Int := 10000

/-- Compiles the sum of `count` values and reports on it: what is said about the
    code, and the report. -/
def checkSpill (holds : Int → Bool) (count : Int) : Build (String × Report) := do
  let body ← Build.fresh (sumOfValues holds count)
  let (c, frame) ← spillBackend.compile body { label := "sum", convention := Amd64.convention }
  let report ← Build.ofExcept
    (Report.generate "sum" c.allocated c.mapping pressure.palette spillSteps)
  return ("Compiled " ++ toString c.items.length ++ " items, " ++ toString c.spilled.length ++
    " registers spilled into " ++ toString frame.slots ++ " slots\n\n", report)

/-- The command, on a machine whose memory holds so many values. -/
def spillCheck (holds : Int → Bool) (arguments : List String) (s : Settings) : Outcome :=
  match Flags.parse arguments with
  | .error .help => {}
  | .error .misuse => { code := broken }
  | .ok flags =>
    match (checkSpill holds flags.values) { verbose := s.verbose } with
    | .error _ session => { output := session.shown, code := broken, records := session.records }
    | .ok (summary, report) session =>
      let count := Int64.ofInt flags.values
      let right := report.passed && decide (report.result = count * (count + 1) / 2)
      { output := session.shown ++ summary ++ report.text
        code := if right then 0 else failed
        records := session.records
        file := if flags.output = "" then none else some (flags.output, report.text) }

end Codegen.Command
