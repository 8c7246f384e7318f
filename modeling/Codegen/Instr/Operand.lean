/-
  Operands of instructions.

  * `Operand.registers` lists the registers an operand mentions;
  * `Operand.mapRegisters f` renames them.
-/
import Codegen.Tree

namespace Codegen

/-- A memory operand: the word at base label + base register + displacement.
    The label is absent if its name is empty. -/
structure Mem where
  label : Label
  base : Option Register
  displacement : Word
  deriving DecidableEq, Repr

namespace Mem

/-- The word at the address held by a register. -/
def ofRegister (r : Register) : Mem := ⟨Label.none, some r, 0⟩

/-- The registers the address is computed from. -/
def registers (m : Mem) : List Register := m.base.toList

/-- The operand with its register renamed. -/
def mapRegisters (f : Register → Register) (m : Mem) : Mem := { m with base := m.base.map f }

/-- The operand as a stream shows it.  With no base to show, the displacement
    stands alone, zero included. -/
def text (m : Mem) : String :=
  let bases := (if m.label = Label.none then [] else [m.label]) ++ (m.registers.map Register.text)
  let sum := " + ".intercalate bases
  let inside :=
    if sum = "" then Word.text m.displacement
    else if 0 < m.displacement then sum ++ " + " ++ Word.text m.displacement
    else if m.displacement < 0 then sum ++ " - " ++ Word.text (-m.displacement)
    else sum
  "qword [" ++ inside ++ "]"

end Mem

/-- An argument of an instruction. -/
inductive Operand where
  /-- A register. -/
  | reg (r : Register)
  /-- An immediate word. -/
  | imm (w : Word)
  /-- A word in memory. -/
  | mem (m : Mem)
  deriving DecidableEq, Repr

namespace Operand

/-- The registers the operand mentions. -/
def registers : Operand → List Register
  | reg r => [r]
  | imm _ => []
  | mem m => m.registers

/-- The operand with its registers renamed. -/
def mapRegisters (f : Register → Register) : Operand → Operand
  | reg r => reg (f r)
  | imm w => imm w
  | mem m => mem (m.mapRegisters f)

/-- The operand as a stream shows it. -/
def text : Operand → String
  | reg r => r.text
  | imm w => Word.text w
  | mem m => m.text

/-- Is it a memory operand? -/
def isMemory : Operand → Bool
  | mem _ => true
  | _ => false

/-- The register of a register operand. -/
def register? : Operand → Option Register
  | reg r => some r
  | _ => none

/-- The registers an operand writes when it is a destination. -/
def defined (o : Operand) : List Register := o.register?.toList

/-- The registers an operand reads when it is a destination: the base of a
    memory operand. -/
def addressUses : Operand → List Register
  | mem m => m.registers
  | _ => []

end Operand

end Codegen
