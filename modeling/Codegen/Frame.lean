/-
  Stack frames.

  The frame pointer addresses the frame of a function.  Parameters passed on
  the stack sit above it, slots below:

      [fp + 16 + 8 k]    stack parameter k
      [fp + 8]           return address
      [fp]               the caller's frame pointer
      [fp - 8 (k + 1)]   slot k

  `Frame.prologue` and `Frame.epilogue` are the operations that set a frame up
  and tear it down, saving and restoring the registers that a callee must keep.
-/
import Codegen.Rule.Basic

namespace Codegen

/-- The size of a slot in bytes. -/
def wordSize : Word := 8

/-- The alignment of the stack pointer at calls. -/
def stackAlignment : Word := 16

/-- A word of a frame. -/
structure Slot where
  framePointer : Physical
  /-- The displacement from the frame pointer. -/
  offset : Word
  deriving DecidableEq, Repr

namespace Slot

/-- The address of a slot: the frame pointer plus or minus a constant. -/
def address (s : Slot) : Value :=
  let fp := Value.read s.framePointer
  if s.offset < 0 then .binary .sub fp (.const (-s.offset)) else .binary .add fp (.const s.offset)

/-- The contents of a slot. -/
def read (s : Slot) : Value := .load s.address

/-- The operation that stores a value in a slot. -/
def write (s : Slot) (v : Value) : Stmt := .store s.address v

end Slot

/-- The frame of a function that is entered at `label`. -/
structure Frame where
  label : Label
  convention : Convention
  /-- The number of slots allocated so far. -/
  slots : Nat := 0
  deriving DecidableEq, Repr

/-- A callee-saved register with the slot that preserves it. -/
structure Saved where
  register : Physical
  slot : Slot
  deriving DecidableEq, Repr

namespace Frame

/-- The `k`-th slot, counted from one. -/
def slot (f : Frame) (k : Nat) : Slot := ⟨f.convention.framePointer, -Int64.ofNat k * wordSize⟩

/-- A new slot. -/
def allocate (f : Frame) : Slot × Frame := (f.slot (f.slots + 1), { f with slots := f.slots + 1 })

/-- The frame with `k` more slots. -/
def reserve (f : Frame) (k : Nat) : Frame := { f with slots := f.slots + k }

/-- The place of the `k`-th parameter passed on the stack. -/
def parameter (f : Frame) (k : Int) : Slot :=
  ⟨f.convention.framePointer, 2 * wordSize + Int64.ofInt k * wordSize⟩

/-- The number of bytes to reserve below the frame pointer, which keeps the
    stack aligned. -/
def size (f : Frame) : Word :=
  let bytes := Int64.ofNat f.slots * wordSize
  let rest := bytes % stackAlignment
  if rest = 0 then bytes else bytes + (stackAlignment - rest)

/-- Allocates slots for the callee-saved registers among `used`. -/
def save (f : Frame) (used : List Physical) : List Saved × Frame :=
  let registers := f.convention.calleeSaved.filter used.contains
  (registers.zipIdx.map fun (r, k) => ⟨r, f.slot (f.slots + 1 + k)⟩, f.reserve registers.length)

/-- Sets the frame up and saves registers.  All slots must be allocated. -/
def prologue (f : Frame) (saved : List Saved) : List Stmt :=
  let sp := f.convention.stackPointer
  let fp := f.convention.framePointer
  let drop (bytes : Word) : Stmt := .write sp (.binary .sub (.read sp) (.const bytes))
  [drop wordSize, .store (.read sp) (.read fp), .write fp (.read sp)] ++
    (if 0 < f.size then [drop f.size] else []) ++
    saved.map fun s => s.slot.write (.read s.register)

/-- Restores registers and tears the frame down, right before a return. -/
def epilogue (f : Frame) (saved : List Saved) : List Stmt :=
  let sp := f.convention.stackPointer
  let fp := f.convention.framePointer
  (saved.map fun s => .write s.register s.slot.read) ++
    [.write sp (.read fp), .write fp (.load (.read sp)),
     .write sp (.binary .add (.read sp) (.const wordSize))]

end Frame

end Codegen
