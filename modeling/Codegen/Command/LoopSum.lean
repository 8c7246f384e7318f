/-
  The command that compiles and runs a loop.

  The program has two functions: `sum` adds up the numbers below its argument,
  and `main` calls it.  The command lists both and prints what `main` returns.
-/
import Codegen.Command.Basic
import Codegen.Machine.Run
import Codegen.Program
import Codegen.Sample

namespace Codegen.Command

/-- A body that returns `0 + 1 + … + (n - 1)` for its first argument `n`. -/
def sumBelow : Fresh Flow := do
  let n ← Fresh.register
  let i ← Fresh.register
  let s ← Fresh.register
  let start := Block.straight
    [.write n (.read (.physical .rdi)), .write i (.const 0), .write s (.const 0)] (some 1)
  let head := Block.branch (.binary .lt (.read i) (.read n)) (some 2) (some 3)
  let step := Block.straight
    [.write s (.binary .add (.read s) (.read i)), .write i (.binary .add (.read i) (.const 1))]
    (some 1)
  let exit := Block.straight [.write (.physical .rax) (.read s), .ret true] none
  return ⟨4, #v[start, head, step, exit], some 0⟩

/-- A body that calls `sum` and returns what it returns. -/
def callSum (n : Word) : Fresh Flow := do
  let v ← Fresh.register
  return Sample.body [.write (.physical .rdi) (.const n), .write v (.call "sum" 1),
    .write (.physical .rax) (.read v), .ret true]

/-- The sample size where nothing is said. -/
def defaultSize : Int := 10

/-- The greatest number of steps of a run. -/
def loopSteps : Int := 100000

/-- The functions of the program. -/
def loopFunctions (n : Word) : Fresh (List Function) := do
  let frame (label : Label) : Option Frame := some { label, convention := Amd64.convention }
  let main ← callSum n
  let sum ← sumBelow
  return [⟨"main", frame "main", main⟩, ⟨"sum", frame "sum", sum⟩]

/-- Compiles the program. -/
def compileLoop (n : Word) (s : Settings) :
    Build (Except FunctionError (List CompiledFunction)) := do
  let functions ← Build.fresh (loopFunctions n)
  let c : Compiler := ⟨"Driver", Backend.default (Compiler.backendName "Driver") s.paletteSize⟩
  c.compile functions

/-- The stream of a function. -/
def streamOf (out : List CompiledFunction) (name : String) : Stream :=
  ((out.find? fun c => c.name == name).map CompiledFunction.items).getD []

/-- The callee `sum`: its stream run by a machine of its own. -/
def sumHook (items : Stream) : Hook
  | [] => .error (.outOfRange 0 0)
  | n :: _ =>
    match ((Machine.start items []).write (.physical .rdi) n).run loopSteps with
    | (none, m) => .ok m.result
    | (some (.trouble t), _) => .error (.calleeFailed t.message)
    | (some (.fault f), _) => .error f

/-- Runs the compiled program: the last line of the output, and the exit code. -/
def runLoop (n : Word) (out : List CompiledFunction) : String × Nat :=
  match (Machine.start (streamOf out "main") [("sum", sumHook (streamOf out "sum"))]).run
      loopSteps with
  | (none, m) => ("sum(" ++ Word.text n ++ ") = " ++ Word.text m.result ++ "\n", 0)
  | (some (.trouble _), _) => ("", failed)
  | (some (.fault _), _) => ("", broken)

/-- The command. -/
def loopSum (s : Settings) : Outcome :=
  let n := Int64.ofInt (s.sampleSize.getD defaultSize)
  match (compileLoop n s) { verbose := s.verbose } with
  | .error _ session => { output := session.shown, code := broken, records := session.records }
  | .ok (.error _) session =>
    { output := session.shown, code := failed, records := session.records }
  | .ok (.ok out) session =>
    match out.mapM fun c => c.items.listing with
    | .error _ => { output := session.shown, code := broken, records := session.records }
    | .ok listings =>
      let (last, code) := runLoop n out
      { output := session.shown ++ String.join (listings.map (· ++ "\n")) ++ last
        code
        records := session.records }

end Codegen.Command
