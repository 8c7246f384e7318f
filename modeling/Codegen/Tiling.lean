/-
  Tilings of trees.

  A tile covers the root of a tree with a rule; each leaf that the rule's
  pattern leaves open is covered by a tile of its own.  The cost of a tile is
  the number of tiles in it, as a word: a shared subtree counts each time it is
  met, so that a small tree may have more tiles than a word can count.
  `Catalogue.tile?` is the cheapest tile of an operation; among tiles of one
  cost, the one whose rule was declared first.

  The tiles of a tree are found from the leaves up: a `TileTable` holds the
  cheapest tile of every subtree met so far, each computed once.
-/
import Codegen.Rule.Basic

namespace Codegen

/-- A rule applied to the root of a tree, with tiles for the open leaves. -/
structure Tile where
  rule : Rule
  found : Match
  leaves : List Tile
  /-- The number of tiles, this one included, modulo `2 ^ 64`. -/
  cost : Word

/-- The cheapest tile of each value in it, if the value has one. -/
abbrev TileTable := List (Value × Option Tile)

namespace TileTable

/-- The tile of a value; a value that is not in the table has none. -/
def tile? (t : TileTable) (v : Value) : Option Tile :=
  ((t.find? fun entry => decide (entry.1 = v)).bind (·.2))

/-- Is the value in the table? -/
def holds (t : TileTable) (v : Value) : Bool := t.any fun entry => decide (entry.1 = v)

end TileTable

/-- The tile of a rule at the root of `s`, given the tiles of values: none if the
    pattern does not match or a leaf has no tile. -/
def Rule.tile? (best : Value → Option Tile) (s : Stmt) (r : Rule) : Option Tile := do
  let m ← r.pattern.apply s
  let leaves ← m.leaves.mapM best
  return ⟨r, m, leaves, leaves.foldr (fun t n => t.cost + n) 1⟩

/-- The cheaper of two tiles, the first one on a tie. -/
def Tile.cheaper : Option Tile → Option Tile → Option Tile
  | none, t => t
  | some t, none => some t
  | some t, some u => if u.cost < t.cost then some u else some t

/-- The cheapest tile that a rule of the list gives at the root of `s`. -/
def cheapest (rules : List Rule) (best : Value → Option Tile) (s : Stmt) : Option Tile :=
  rules.foldl (fun t r => Tile.cheaper t (r.tile? best s)) none

namespace Catalogue

/-- The table with the cheapest tile of `v` added, the subtrees of `v` being in
    it already. -/
def addTile (c : Catalogue) (v : Value) (t : TileTable) : TileTable :=
  (v, cheapest c.trees t.tile? (.value v)) :: t

/-- The table with the cheapest tiles of `v` and all its subtrees added. -/
def tabulate (c : Catalogue) : Value → TileTable → TileTable
  | .load a, t =>
    if t.holds (.load a) then t else c.addTile (.load a) (c.tabulate a t)
  | .binary op l r, t =>
    if t.holds (.binary op l r) then t
    else c.addTile (.binary op l r) (c.tabulate r (c.tabulate l t))
  | .unary op x, t =>
    if t.holds (.unary op x) then t else c.addTile (.unary op x) (c.tabulate x t)
  | v, t => if t.holds v then t else c.addTile v t

/-- The tiles of the values that an operation computes. -/
def tableOf (c : Catalogue) : Stmt → TileTable
  | .value v => c.tabulate v []
  | .write _ v => c.tabulate v []
  | .store a v => c.tabulate v (c.tabulate a [])
  | .ret _ => []

/-- The cheapest tile of an operation. -/
def tile? (c : Catalogue) : Stmt → Option Tile
  | .value v => (c.tabulate v []).tile? v
  | s => cheapest c.trees (c.tableOf s).tile? s

/-- The cheapest tile that a branch rule gives for a condition. -/
def branchTile? (c : Catalogue) (cond : Value) : Option Tile :=
  cheapest c.branches (c.tableOf (.value cond)).tile? (.value cond)

/-- The number of tiles needed for an operation, if it can be tiled. -/
def cost? (c : Catalogue) (s : Stmt) : Option Word := (c.tile? s).map Tile.cost

/-- The cheapest tile of an operation that must have one. -/
def tile (c : Catalogue) (s : Stmt) : Except Fault Tile :=
  match c.tile? s with
  | some t => .ok t
  | none => .error (.uncovered c.name s)

/-- The name of the rule selected for the root of an operation. -/
def ruleFor (c : Catalogue) (s : Stmt) : Except Fault String := (c.tile s).map (·.rule.name)

end Catalogue

end Codegen
