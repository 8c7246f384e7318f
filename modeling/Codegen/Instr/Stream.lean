/-
  Instruction streams.

  A stream is a list of items: labels and instructions.  An item may also be a
  bare register that something left there by mistake; the passes that must
  understand every item refuse it.
-/
import Codegen.Fault

namespace Codegen

/-- An element of a stream. -/
inductive Item where
  /-- A place that control can be transferred to. -/
  | label (l : Label)
  /-- An instruction. -/
  | instr (i : Instr)
  /-- A bare register, which is neither. -/
  | stray (r : Register)
  deriving DecidableEq, Repr

namespace Item

/-- The instruction of an item. -/
def instr? : Item → Option Instr
  | instr i => some i
  | _ => none

/-- The label of an item. -/
def label? : Item → Option Label
  | label l => some l
  | _ => none

/-- The item with the registers of an instruction renamed. -/
def mapRegisters (f : Register → Register) : Item → Item
  | instr i => instr (i.mapRegisters f)
  | item => item

/-- The item as a listing shows it: a label ends with a colon. -/
def text : Item → String
  | label l => l ++ ":"
  | instr i => i.text
  | stray r => r.text

end Item

/-- A linear sequence of labels and instructions. -/
abbrev Stream := List Item

namespace Stream

/-- The instructions of a stream. -/
def instructions (items : Stream) : List Instr := items.filterMap Item.instr?

/-- The stream with the registers of its instructions renamed. -/
def mapRegisters (f : Register → Register) (items : Stream) : Stream :=
  items.map (Item.mapRegisters f)

/-- All registers mentioned, instruction by instruction, with repetition. -/
def mentions (items : Stream) : List Register := items.instructions.flatMap Instr.mentions

/-- The distinct registers mentioned, in order of first mention. -/
def registers (items : Stream) : List Register := items.mentions.eraseDups

/-- One line of a listing: instructions are indented. -/
def line : Item → Except Fault String
  | .label l => .ok (l ++ ":\n")
  | .instr i => .ok ("    " ++ i.text ++ "\n")
  | .stray r => .error (.strayItem r)

/-- The stream as a listing, one item per line. -/
def listing (items : Stream) : Except Fault String := do
  let lines ← items.mapM line
  return String.join lines

end Stream

end Codegen
