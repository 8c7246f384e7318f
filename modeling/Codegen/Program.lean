/-
  Programs: functions compiled one by one and wrapped with frame code.

  The prologue of a function follows its entry label and the epilogue precedes
  every return.  The body is entered through a block of its own, which nothing
  jumps to, so that the prologue runs once.
-/
import Codegen.Backend

namespace Codegen

/-- The graph entered through a new, empty block. -/
def Flow.enterThrough (g : Flow) : Flow where
  size := g.size + 1
  blocks := (g.blocks.map (Block.map Fin.castSucc)).push (.straight [] (g.root.map Fin.castSucc))
  root := some (Fin.last g.size)

/-- A function to be compiled. -/
structure Function where
  name : String
  frame : Option Frame
  body : Flow

/-- A compiled function. -/
structure CompiledFunction where
  name : String
  /-- The physical stream, frame code included. -/
  items : Stream
  /-- The register mapping of the body. -/
  mapping : Allocation
  /-- The callee-saved registers that the frame preserves. -/
  saved : List Saved
  /-- The registers of the body that were moved to the stack. -/
  spilled : List Register
  frame : Frame
  deriving DecidableEq, Repr

/-- A function that could not be compiled, and why. -/
structure FunctionError where
  name : String
  cause : Fault
  deriving DecidableEq, Repr

/-- The wording of a failure. -/
def FunctionError.message (e : FunctionError) : String :=
  "function " ++ e.name ++ ": " ++ e.cause.message

/-- A compiler of programs. -/
structure Compiler where
  name : String
  backend : Backend

namespace Compiler

/-- A compiler with the given number of workers, zero standing for one. -/
def make (name : String) (backend : Backend) (workers : Int) : Except Fault Compiler :=
  if workers < 0 then .error .badParallelism else .ok ⟨name, backend⟩

/-- The name of the backend that a compiler has by default. -/
def backendName (name : String) : String := name ++ ".Backend"

/-- Frame code must not need virtual registers. -/
def physicalOnly (code : List Instr) : Except Fault (List Instr) :=
  match code.findSome? fun i => (i.registers.find? fun r => !r.isPhysical).map (i, ·) with
  | some (i, r) => .error (.frameRegister i r)
  | none => .ok code

/-- The stream of a body with the epilogue put before every return. -/
def withEpilogue (epilogue : List Instr) (items : Stream) : Stream :=
  items.flatMap fun item =>
    match item with
    | .instr (.ret results) => epilogue.map Item.instr ++ [.instr (.ret results)]
    | item => [item]

/-- The stream of a body with its frame code. -/
def assemble (body : Stream) (entry : Label) (prologue epilogue : List Instr) : Stream :=
  match body with
  | .label l :: rest =>
    if entry ≠ Label.none ∧ l = entry then
      .label l :: prologue.map Item.instr ++ withEpilogue epilogue rest
    else prologue.map Item.instr ++ withEpilogue epilogue body
  | _ => prologue.map Item.instr ++ withEpilogue epilogue body

/-- Compiles one function. -/
def compileFunction (c : Compiler) (fn : Function) : Build CompiledFunction := do
  match fn.frame with
  | none => throw .noFrame
  | some frame =>
    let (body, frame) ← c.backend.compile fn.body.enterThrough frame
    let (saved, frame) := frame.save (body.mapping.used c.backend.target.palette)
    let cover (ops : List Stmt) : Build (List Instr) := do
      let code ← Build.fresh (c.backend.catalogue.coverStmts ops)
      Build.ofExcept (physicalOnly code)
    let prologue ← cover (frame.prologue saved)
    let epilogue ← cover (frame.epilogue saved)
    let items := assemble body.physical frame.label prologue epilogue
    Build.trace "Function" [("Driver", c.name), ("Function", fn.name),
      ("Items", toString items.length), ("Saved", toString saved.length),
      ("Slots", toString frame.slots)]
    return { name := fn.name, items, mapping := body.mapping, saved, spilled := body.spilled, frame }

/-- Compiles every function, in order; if some cannot be compiled, the first of
    them is the outcome. -/
def compile (c : Compiler) (functions : List Function) :
    Build (Except FunctionError (List CompiledFunction)) := do
  let outcomes ← functions.mapM fun fn => do
    let outcome ← Build.attempt (c.compileFunction fn)
    return outcome.mapError (FunctionError.mk fn.name)
  match outcomes.mapM id with
  | .error e => return .error e
  | .ok out =>
    Build.trace "Driver" [("Driver", c.name), ("Functions", toString functions.length)]
    return .ok out

end Compiler

end Codegen
