/-
  Targets: the registers a compilation may use.

  A target has a palette, from which registers are handed out, and scratch
  registers, which are reserved for spill code.  Where nothing is said, the
  palette holds every register but the stack and the frame pointer, and the
  last two caller-saved registers are scratch.
-/
import Codegen.Fault

namespace Codegen

/-- The registers a compilation may use. -/
structure Target where
  name : String
  /-- The registers that may be handed out, the preferred ones first. -/
  palette : List Physical
  /-- The registers reserved for spill code. -/
  scratch : List Physical
  deriving DecidableEq, Repr

namespace Target

/-- The number of scratch registers that spill code needs. -/
def minScratch : Nat := 2

/-- Every register but the stack and the frame pointer. -/
def defaultPalette : List Physical :=
  [.rax, .rbx, .rcx, .rdx, .rsi, .rdi, .r8, .r9, .r10, .r11, .r12, .r13, .r14, .r15]

/-- The scratch registers where nothing is said. -/
def defaultScratch : List Physical := [.r10, .r11]

/-- The name of a target where nothing is said. -/
def defaultName : String := "amd64"

/-- The palette without the scratch registers. -/
def reduced (t : Target) : List Physical := t.palette.filter fun p => !t.scratch.contains p

/-- What is said about a target. -/
structure Choice where
  registers : Option (List Physical) := none
  scratch : Option (List Physical) := none
  /-- The greatest number of registers to hand out.  A negative one means no
      limit. -/
  limit : Option Int := none
  deriving DecidableEq, Repr

namespace Choice

/-- Sets the palette.  Every register must be one that may be handed out. -/
def withRegisters (c : Choice) (rs : List Physical) : Except Fault Choice :=
  match rs.find? fun p => !p.allocatable with
  | some p => .error (.notAllocatable p)
  | none => .ok { c with registers := some rs }

/-- Sets the scratch registers, of which there must be enough. -/
def withScratch (c : Choice) (rs : List Physical) : Except Fault Choice :=
  if rs.length < minScratch then .error (.fewScratch minScratch)
  else .ok { c with scratch := some rs }

/-- The target of a choice. -/
def build (c : Choice) (name : String) : Target :=
  let palette := c.registers.getD defaultPalette
  { name
    palette := match c.limit with
      | some n => if 0 ≤ n then palette.take n.toNat else palette
      | none => palette
    scratch := c.scratch.getD defaultScratch }

end Choice

/-- The target where nothing is said but, perhaps, how many registers to use. -/
def ofLimit (limit : Option Int) : Target := Choice.build { limit } defaultName

end Target

end Codegen
