/-
  Instruction selection.

  The code of a tile is the code of its leaves, in order, followed by the code
  of its rule, which is given the registers that hold the leaves.  A `Coverer`
  turns single blocks into instructions; `Catalogue.coverer` does so by the
  cheapest tiles of the catalogue.
-/
import Codegen.Tiling

namespace Codegen

mutual

/-- The code of a tile and the register that holds its value, if it has one. -/
def Tile.emit : Tile → Fresh (List Instr × Option Register)
  | ⟨rule, found, leaves, _⟩ => do
    let (code, inputs) ← Tile.emitLeaves rule.name leaves
    let (own, result) ← rule.generate { inputs, found }
    return (code ++ own, result)

/-- The code of the leaves of the rule called `parent`, and the registers that
    hold them.  A leaf without a value is refused. -/
def Tile.emitLeaves (parent : String) : List Tile → Fresh (List Instr × List Register)
  | [] => return ([], [])
  | t :: ts => do
    let (code, result) ← Tile.emit t
    match result with
    | none => throw (.noLeafValue t.rule.name parent)
    | some r =>
      let (rest, rs) ← Tile.emitLeaves parent ts
      return (code ++ rest, r :: rs)

end

namespace Catalogue

/-- The code of one operation. -/
def coverStmt (c : Catalogue) (s : Stmt) : Fresh (List Instr) := do
  let t ← Fresh.ofExcept (c.tile s)
  return (← t.emit).1

/-- The code of a list of operations. -/
def coverStmts (c : Catalogue) (ops : List Stmt) : Fresh (List Instr) := do
  return (← ops.mapM c.coverStmt).flatten

/-- The code of a value and the register that holds it. -/
def coverValue (c : Catalogue) (v : Value) : Fresh (List Instr × Option Register) := do
  let t ← Fresh.ofExcept (c.tile (.value v))
  t.emit

/-- The code of a sequential block that continues at `next`. -/
def coverSequence (c : Catalogue) (ops : List Stmt) (next : Label) : Fresh (List Instr) := do
  let code ← c.coverStmts ops
  match c.jumps with
  | [] => throw (.noJumpRule c.name)
  | rule :: _ => return code ++ (← rule.generate next)

/-- The code of a branch: the condition, then the transfer. -/
def coverBranch (c : Catalogue) (cond : Value) (onTrue onFalse : Label) : Fresh (List Instr) := do
  match c.branchTile? cond with
  | none => throw (.noBranchRule c.name cond)
  | some t =>
    let (code, inputs) ← Tile.emitLeaves t.rule.name t.leaves
    let (own, _) ← t.rule.generate { inputs, found := t.found, onTrue, onFalse }
    return code ++ own

end Catalogue

/-- Instruction selection for single blocks.  A coverer is given the number of the
    block in its graph as well as what the block holds, so it can tell blocks apart that
    hold the same. -/
structure Coverer where
  /-- The code of a sequential block that continues at a label. -/
  sequence : Nat → List Stmt → Label → Fresh (List Instr)
  /-- The code of a branch with the labels of its arms. -/
  branch : Nat → Value → Label → Label → Fresh (List Instr)

/-- Instruction selection by the cheapest tiles of a catalogue, the same for every
    block. -/
def Catalogue.coverer (c : Catalogue) : Coverer := ⟨fun _ => c.coverSequence, fun _ => c.coverBranch⟩

end Codegen
