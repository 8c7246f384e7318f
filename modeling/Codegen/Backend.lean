/-
  Backends: from the body of a function to a stream with a register mapping.

  A body is compressed, laid out with the instructions of the catalogue, and
  analysed; its registers are then given registers of the target's palette.  If
  the palette does not suffice, registers are handed out from the palette
  without the scratch registers, and what is left over goes to the stack.
-/
import Codegen.Coloring.Basic
import Codegen.Display
import Codegen.Flow.Compress
import Codegen.Layout
import Codegen.Rule.Amd64
import Codegen.Session
import Codegen.Spill
import Codegen.Target.Basic

namespace Codegen

/-- A compiler of function bodies for one catalogue and target. -/
structure Backend where
  name : String
  catalogue : Catalogue
  target : Target
  /-- Spill code has enough scratch registers. -/
  enoughScratch : Target.minScratch ≤ target.scratch.length

/-- The outcome of compiling a body. -/
structure Compiled where
  /-- The stream over the registers of the body, without the moves that do
      nothing under the mapping. -/
  items : Stream
  /-- The stream that the mapping was computed for. -/
  allocated : Stream
  /-- A physical register for every register of the stream. -/
  mapping : Allocation
  /-- The registers that were moved to the stack. -/
  spilled : List Register
  deriving DecidableEq, Repr

/-- The stream with the mapping applied. -/
def Compiled.physical (c : Compiled) : Stream := c.mapping.apply c.items

namespace Backend

/-- A backend, if its target has enough scratch registers. -/
def make (name : String) (catalogue : Catalogue) (target : Target) : Except Fault Backend :=
  if h : Target.minScratch ≤ target.scratch.length then .ok ⟨name, catalogue, target, h⟩
  else .error .backendScratch

/-- The default scratch registers are as many as spill code needs. -/
theorem minScratch_le_ofLimit (limit : Option Int) :
    Target.minScratch ≤ (Target.ofLimit limit).scratch.length := Nat.le_refl 2

/-- The backend for the default rules and registers; `limit` may bound how many
    registers are handed out. -/
def default (name : String) (limit : Option Int) : Backend :=
  ⟨name, Amd64.catalogue, Target.ofLimit limit, minScratch_le_ofLimit limit⟩

/-- Records a step of the compilation of a function. -/
def trace (b : Backend) (f : Frame) (message : String) (fields : List (String × Nat)) : Build Unit :=
  Build.trace message
    ([("Backend", b.name), ("Function", f.label)] ++ fields.map fun (k, n) => (k, toString n))

/-- The stream of a body: its graph compressed, covered and laid out. -/
def select (b : Backend) (body : Flow) (f : Frame) : Build Stream := do
  let g ← Build.ofExcept body.compress
  b.trace f "Compress" [("Blocks", g.reachable.length)]
  let items ← Build.fresh (g.layout b.catalogue.coverer f.label)
  b.trace f "Linearize" [("Items", items.length)]
  return items

/-- The registers of a stream colored with a palette; registers that occur
    rarely are the first to go without a color. -/
def color (b : Backend) (suffix : String) (palette : List Physical) (live : Liveness.Result) :
    Allocation :=
  let costs := live.occurrences.map fun (r, n) => (r, Int64.ofNat n)
  Allocator.allocate ⟨b.name ++ suffix, palette, costs⟩ live.interference live.copies

/-- Records how far a palette went. -/
def traceColors (b : Backend) (f : Frame) (palette : List Physical) (a : Allocation) : Build Unit :=
  b.trace f "Allocate" [("Palette", palette.length), ("Unassigned", a.unassigned.length)]

/-- Gives the registers of a stream physical registers, spilling if need be: the
    stream with its mapping, the spilled registers, and the frame. -/
def assign (b : Backend) (items : Stream) (live : Liveness.Result) (f : Frame) :
    Build (Stream × Allocation × List Register × Frame) := do
  let full := b.color ".Full" b.target.palette live
  b.traceColors f b.target.palette full
  if full.complete then return (items, full, [], f)
  let reduced := b.color ".Reduced" b.target.reduced live
  b.traceColors f b.target.reduced reduced
  let spiller : Spiller := ⟨b.catalogue.coverStmts, b.target.scratch⟩
  let (items, mapping, f) ← Build.fresh (spiller.spill items reduced f)
  b.trace f "Spill" [("Slots", f.slots), ("Items", items.length)]
  return (items, mapping, reduced.unassigned, f)

/-- Compiles a body.  The stream starts with the label of the frame, if it has
    one, and spill slots are taken from the frame. -/
def compile (b : Backend) (body : Flow) (f : Frame) : Build (Compiled × Frame) := do
  let items ← b.select body f
  Build.display fun _ => Display.stream f.label items
  let live ← Build.ofExcept (Liveness.analyze items)
  b.trace f "Liveness" [("Registers", live.interference.size),
    ("Interference", live.interference.edges), ("Copies", live.copies.edges)]
  Build.display fun _ => .ok (Display.liveness f.label live)
  let (allocated, mapping, spilled, f) ← b.assign items live f
  let kept := mapping.dropNoops allocated
  b.trace f "Finish" [("Items", kept.length), ("Dropped", allocated.length - kept.length)]
  Build.display fun _ => .ok (Display.allocation f.label mapping kept.registers)
  return ({ items := kept, allocated, mapping, spilled }, f)

end Backend

end Codegen
