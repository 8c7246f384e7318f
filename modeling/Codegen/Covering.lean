/-
  Coverings.

  A covering answers questions about trees and gives code for them, one call after
  the other.  The tile of a tree is looked for once and remembered from then on, as is
  the fact that a tree has none.  What a call remembered stays when it fails, and so do
  the names that it drew.
-/
import Codegen.Selection

namespace Codegen

/-- What a covering remembers, and the names that it draws from. -/
structure Covering where
  supply : Supply
  /-- The tiles of values. -/
  values : TileTable := []
  /-- The tiles of operations that have no value. -/
  operations : List (Stmt × Option Tile) := []
  /-- The tiles that branch rules give for conditions. -/
  conditions : TileTable := []

/-- A call on a covering, which may fail. -/
abbrev Cover (α : Type) := EStateM Fault Covering α

/-- The table with the tiles of the values that an operation computes added. -/
def Catalogue.extend (c : Catalogue) : Stmt → TileTable → TileTable
  | .value v, t => c.tabulate v t
  | .write _ v, t => c.tabulate v t
  | .store a v, t => c.tabulate v (c.tabulate a t)
  | .ret _, t => t

namespace Cover

variable {α : Type}

/-- A computation that draws on the covering's supply. -/
def fresh (x : Fresh α) : Cover α := fun k =>
  match x k.supply with
  | .ok a supply => .ok a { k with supply }
  | .error f supply => .error f { k with supply }

/-- The cheapest tile of an operation. -/
def best (c : Catalogue) : Stmt → Cover (Option Tile)
  | .value v => fun k =>
    let values := c.tabulate v k.values
    .ok (values.tile? v) { k with values }
  | s => fun k =>
    match k.operations.find? fun entry => decide (entry.1 = s) with
    | some (_, t) => .ok t k
    | none =>
      let values := c.extend s k.values
      let t := cheapest c.trees values.tile? s
      .ok t { k with values, operations := (s, t) :: k.operations }

/-- The cheapest tile that a branch rule gives for a condition. -/
def bestBranch (c : Catalogue) (cond : Value) : Cover (Option Tile) := fun k =>
  if k.conditions.holds cond then .ok (k.conditions.tile? cond) k
  else
    let values := c.tabulate cond k.values
    let t := cheapest c.branches values.tile? (.value cond)
    .ok t { k with values, conditions := (cond, t) :: k.conditions }

/-- The cheapest tile of an operation that must have one. -/
def tile (c : Catalogue) (s : Stmt) : Cover Tile := do
  match ← best c s with
  | some t => return t
  | none => throw (.uncovered c.name s)

/-- The number of tiles needed for an operation, if it can be tiled. -/
def cost? (c : Catalogue) (s : Stmt) : Cover (Option Word) := do return (← best c s).map Tile.cost

/-- The name of the rule selected for the root of an operation. -/
def ruleFor (c : Catalogue) (s : Stmt) : Cover String := do return (← tile c s).rule.name

/-- The code of one operation. -/
def stmt (c : Catalogue) (s : Stmt) : Cover (List Instr) := do
  let t ← tile c s
  return (← fresh t.emit).1

/-- The code of a list of operations. -/
def stmts (c : Catalogue) (ops : List Stmt) : Cover (List Instr) := do
  return (← ops.mapM (stmt c)).flatten

/-- The code of a value and the register that holds it. -/
def value (c : Catalogue) (v : Value) : Cover (List Instr × Option Register) := do
  let t ← tile c (.value v)
  fresh t.emit

/-- The code of a sequential block that continues at `next`. -/
def sequence (c : Catalogue) (ops : List Stmt) (next : Label) : Cover (List Instr) := do
  let code ← stmts c ops
  match c.jumps with
  | [] => throw (.noJumpRule c.name)
  | rule :: _ => return code ++ (← fresh (rule.generate next))

/-- The code of a branch: the condition, then the transfer. -/
def branch (c : Catalogue) (cond : Value) (onTrue onFalse : Label) : Cover (List Instr) := do
  match ← bestBranch c cond with
  | none => throw (.noBranchRule c.name cond)
  | some t => fresh do
    let (code, inputs) ← Tile.emitLeaves t.rule.name t.leaves
    let (own, _) ← t.rule.generate { inputs, found := t.found, onTrue, onFalse }
    return code ++ own

end Cover

/-- What a covering can be asked for. -/
inductive Cover.Call where
  | cost (s : Stmt)
  | rule (s : Stmt)
  | stmts (ops : List Stmt)
  | value (v : Value)
  | sequence (ops : List Stmt) (next : Label)
  | branch (cond : Value) (onTrue onFalse : Label)

/-- What a covering answers. -/
inductive Cover.Answer where
  | cost (n : Option Word)
  | rule (name : String)
  | code (code : List Instr)
  | value (code : List Instr) (result : Option Register)

/-- The answer to a call. -/
def Cover.Call.perform (c : Catalogue) : Cover.Call → Cover Cover.Answer
  | .cost s => return .cost (← Cover.cost? c s)
  | .rule s => return .rule (← Cover.ruleFor c s)
  | .stmts ops => return .code (← Cover.stmts c ops)
  | .value v => do
    let (code, result) ← Cover.value c v
    return .value code result
  | .sequence ops next => return .code (← Cover.sequence c ops next)
  | .branch cond onTrue onFalse => return .code (← Cover.branch c cond onTrue onFalse)

end Codegen
