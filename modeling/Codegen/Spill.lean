/-
  Spilling: registers that got no physical register live in stack slots.

  Each instruction that touches a spilled register works on scratch registers
  instead: it is preceded by loads of what it reads and followed by stores of
  what it writes.  A move between a spilled register and a register or an
  immediate becomes a single access of the slot.
-/
import Codegen.Allocation
import Codegen.Frame

namespace Codegen

/-- How spill code is made. -/
structure Spiller where
  /-- Instruction selection for loads and stores of slots. -/
  cover : List Stmt → Fresh (List Instr)
  /-- The registers that spill code may use. -/
  scratch : List Physical

/-- The slots of the spilled registers; of two entries the first counts. -/
abbrev Slots := List (Register × Slot)

/-- The slot of a register, if it is spilled. -/
def Slots.slot? (slots : Slots) (r : Register) : Option Slot := List.lookup r slots

namespace Spiller

/-- A slot of the frame for each of the registers. -/
def allocateSlots (registers : List Register) (f : Frame) : Slots × Frame :=
  registers.foldl (fun (slots, f) r =>
    let (slot, f) := f.allocate
    ((r, slot) :: slots, f)) ([], f)

/-- The operation that replaces a move between a spilled register and a register
    or an immediate. -/
def direct? (slots : Slots) : Instr → Option Stmt
  | .mov dst src =>
    match dst.register?.bind slots.slot?, src.register?.bind slots.slot? with
    | none, some slot => dst.register?.map fun d => .write d slot.read
    | some slot, none =>
      match src with
      | .imm w => some (slot.write (.const w))
      | .reg r => some (slot.write (.read r))
      | .mem _ => none
    | _, _ => none
  | _ => none

/-- The registers of a list that are spilled, each once. -/
def spilledIn (slots : Slots) (rs : List Register) : List Register :=
  (rs.filter fun r => (slots.slot? r).isSome).eraseDups

/-- The code that loads a spilled register into its scratch register, or stores
    it from there. -/
def transfer (s : Spiller) (slots : Slots) (scratch : List (Register × Physical))
    (op : Slot → Physical → Stmt) (r : Register) : Fresh (List Instr) :=
  match slots.slot? r, scratch.lookup r with
  | some slot, some h => s.cover [op slot h]
  | _, _ => return []

/-- The code of an instruction without spilled registers. -/
def expand (s : Spiller) (slots : Slots) (i : Instr) : Fresh (List Instr) := do
  let spilled := spilledIn slots i.registers
  if spilled.isEmpty then return [i]
  match direct? slots i with
  | some op => s.cover [op]
  | none =>
    if s.scratch.length < spilled.length then
      throw (.scratchShortage i spilled.length s.scratch.length)
    let scratch := spilled.zip s.scratch
    let rename (r : Register) : Register := (scratch.lookup r).elim r Register.physical
    let loads ← (spilledIn slots i.uses).mapM
      (s.transfer slots scratch fun slot h => .write h slot.read)
    let stores ← (spilledIn slots i.defines).mapM
      (s.transfer slots scratch fun slot h => slot.write (.read h))
    return loads.flatten ++ [i.mapRegisters rename] ++ stores.flatten

/-- The code of an item without spilled registers. -/
def expandItem (s : Spiller) (slots : Slots) : Item → Fresh Stream
  | .instr i => do return (← s.expand slots i).map Item.instr
  | item => return [item]

/-- The allocation with the physical registers of an instruction assigned to
    themselves.  A virtual register must be assigned already. -/
def completeWith (i : Instr) (a : Allocation) (r : Register) : Except Fault Allocation :=
  match a.lookup r, r with
  | some _, _ => .ok a
  | none, .physical p => .ok (a.assign r p)
  | none, .virtual _ => .error (.unassigned r i)

/-- The allocation extended to all registers of a stream. -/
def complete (items : Stream) (a : Allocation) : Except Fault Allocation :=
  items.instructions.foldlM (fun a i => i.registers.foldlM (completeWith i) a)
    { a with unassigned := [] }

/-- The stream without the unassigned registers of an allocation, an allocation
    of all its registers, and the frame with the slots taken from it. -/
def spill (s : Spiller) (items : Stream) (a : Allocation) (f : Frame) :
    Fresh (Stream × Allocation × Frame) := do
  let (slots, f) := allocateSlots a.unassigned f
  let items := (← items.mapM (s.expandItem slots)).flatten
  let done ← Fresh.ofExcept (complete items a)
  return (items, done, f)

end Spiller

end Codegen
