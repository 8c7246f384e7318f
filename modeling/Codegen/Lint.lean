/-
  Static checks of an allocated stream.

  * every register has a physical register, and physical registers keep their
    own;
  * virtual registers are given registers of the palette;
  * labels are defined once, and every jump lands on one;
  * registers that are live together do not share a physical register; this is
    checked only if the labels are in order.

  The stream must be the one that the mapping was computed for.
-/
import Codegen.Allocation
import Codegen.Liveness

namespace Codegen

/-- The categories of issues. -/
inductive IssueKind where
  | mapping | palette | interference | label
  deriving DecidableEq, Repr

/-- The name of a category. -/
def IssueKind.name : IssueKind → String
  | mapping => "MAPPING"
  | palette => "PALETTE"
  | interference => "INTERFERENCE"
  | label => "LABEL"

/-- What is wrong with an allocated stream.  Positions are those of items. -/
inductive Issue where
  /-- A register has no physical register. -/
  | unmapped (position : Nat) (r : Register) (i : Instr)
  /-- A physical register is given another one. -/
  | displaced (position : Nat) (r : Register) (h : Physical)
  /-- A virtual register is given a register that is not in the palette. -/
  | outsidePalette (position : Nat) (r : Register) (h : Physical)
  /-- A label is defined again. -/
  | duplicateLabel (position : Nat) (l : Label) (first : Nat)
  /-- A jump goes nowhere. -/
  | undefinedLabel (position : Nat) (i : Instr) (l : Label)
  /-- Two registers that are live together share a physical register. -/
  | shared (a b : Register) (h : Physical)
  deriving DecidableEq, Repr

/-- A value that belongs to an issue. -/
inductive Detail where
  | text (s : String)
  | number (n : Nat)
  deriving DecidableEq, Repr

namespace Issue

/-- The category of an issue. -/
def kind : Issue → IssueKind
  | unmapped .. | displaced .. => .mapping
  | outsidePalette .. => .palette
  | duplicateLabel .. | undefinedLabel .. => .label
  | shared .. => .interference

/-- The position of an issue in the stream, or -1. -/
def index : Issue → Int
  | unmapped k _ _ | displaced k _ _ | outsidePalette k _ _ | duplicateLabel k _ _
  | undefinedLabel k _ _ => k
  | shared .. => -1

/-- The wording of an issue. -/
def message : Issue → String
  | unmapped _ r i => "register " ++ r.text ++ " of " ++ Text.quote i.text ++ " has no physical register"
  | displaced _ r h => "physical register " ++ r.text ++ " is mapped to " ++ h.name
  | outsidePalette _ r h =>
    "register " ++ r.text ++ " is mapped to " ++ h.name ++ " outside the palette"
  | duplicateLabel k l first =>
    "label " ++ l ++ " defined at " ++ toString first ++ " and " ++ toString k
  | undefinedLabel _ i l => Text.quote i.text ++ " jumps to undefined label " ++ l
  | shared a b h => a.text ++ " and " ++ b.text ++ " are live together but share " ++ h.name

/-- The values that belong to an issue, by name. -/
def details : Issue → List (String × Detail)
  | unmapped _ r _ => [("register", .text r.text)]
  | displaced _ r h | outsidePalette _ r h => [("register", .text r.text), ("mapped", .text h.name)]
  | duplicateLabel _ l first => [("label", .text l), ("first", .number first)]
  | undefinedLabel _ _ l => [("label", .text l)]
  | shared a b h => [("first", .text a.text), ("second", .text b.text), ("physical", .text h.name)]

end Issue

namespace Lint

/-- A register where a stream mentions it. -/
structure Mention where
  register : Register
  position : Nat
  instr : Instr
  deriving DecidableEq, Repr

/-- The mentions of registers in a stream, in order. -/
def mentions (items : Stream) : List Mention :=
  items.zipIdx.flatMap fun (item, k) =>
    match item.instr? with
    | none => []
    | some i => i.registers.map fun r => ⟨r, k, i⟩

/-- The first mention of every register of a stream, in order. -/
def firstMentions (items : Stream) : List Mention :=
  (mentions items).eraseDupsBy fun a b => decide (a.register = b.register)

/-- What is wrong with the physical register given to a register. -/
def checkRegister (a : Allocation) (palette : List Physical) (u : Mention) : Option Issue :=
  match a.lookup u.register, u.register with
  | none, r => some (.unmapped u.position r u.instr)
  | some h, .physical p => if h = p then none else some (.displaced u.position (.physical p) h)
  | some h, .virtual id =>
    if palette.contains h then none else some (.outsidePalette u.position (.virtual id) h)

/-- The issues with the physical registers given to the registers of a stream;
    of each register at most one. -/
def checkMapping (items : Stream) (a : Allocation) (palette : List Physical) : List Issue :=
  (firstMentions items).filterMap (checkRegister a palette)

/-- The position of the first definition of a label. -/
def firstDefinition? (items : Stream) (l : Label) : Option Nat := items.idxOf? (.label l)

/-- Is the item at a position a label that was defined before? -/
def checkDefinition (items : Stream) : Item × Nat → Option Issue
  | (.label l, k) =>
    match firstDefinition? items l with
    | some first => if first < k then some (.duplicateLabel k l first) else none
    | none => none
  | _ => none

/-- Is the item at a position a jump to an undefined label? -/
def checkTarget (items : Stream) : Item × Nat → Option Issue
  | (.instr i, k) =>
    match i.target? with
    | some l => if (firstDefinition? items l).isSome then none else some (.undefinedLabel k i l)
    | none => none
  | _ => none

/-- The issues with the labels of a stream. -/
def checkLabels (items : Stream) : List Issue :=
  items.zipIdx.filterMap (checkDefinition items) ++ items.zipIdx.filterMap (checkTarget items)

/-- Do the two ends of an edge share a physical register? -/
def checkEdge (a : Allocation) (e : Register × Register) : Option Issue :=
  match a.lookup e.1, a.lookup e.2 with
  | some h, some h' => if h = h' then some (.shared e.1 e.2 h) else none
  | _, _ => none

/-- The issues with registers that are live together. -/
def checkInterference (items : Stream) (a : Allocation) : Except Fault (List Issue) := do
  let live ← Liveness.analyze items
  return live.interference.edgeList.filterMap (checkEdge a)

end Lint

/-- All issues of an allocated stream. -/
def lint (items : Stream) (a : Allocation) (palette : List Physical) : Except Fault (List Issue) := do
  let mapping := Lint.checkMapping items a palette
  let labels := Lint.checkLabels items
  if labels.isEmpty then return mapping ++ (← Lint.checkInterference items a)
  else return mapping ++ labels

end Codegen
