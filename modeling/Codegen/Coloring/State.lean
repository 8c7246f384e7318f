/-
  Graph coloring: the problem and the state of its solution.

  A coloring problem has `n` nodes, which are registers, and `m` moves, which
  are pairs of nodes that would like to share a register.  Physical registers
  are colored from the start with themselves.

  While the problem is solved, every virtual register is on one of three
  worklists, on the select stack, or coalesced into another node:

  * `simplify`: few neighbors and no move that could still succeed;
  * `freeze`: few neighbors, but some move could still succeed;
  * `spill`: at least as many neighbors as there are colors.

  Worklists and stack hold their newest entry first.
-/
import Codegen.Word
import Codegen.Register

namespace Codegen.Coloring

/-- A coloring problem. -/
structure Problem (n m : Nat) where
  /-- The registers, which are the nodes of the graph. -/
  registers : Vector Register n
  /-- The colors, the preferred ones first. -/
  palette : List Physical
  /-- What it costs to keep a node in memory. -/
  cost : Vector Word n
  /-- The pairs of nodes that would like to share a color. -/
  moves : Vector (Fin n × Fin n) m

/-- What has become of a move. -/
inductive MoveState where
  /-- To be tried. -/
  | pending
  /-- Tried without success; to be tried again when a degree has dropped. -/
  | active
  /-- Its two sides are one node. -/
  | coalesced
  /-- Its two sides interfere. -/
  | constrained
  /-- Given up. -/
  | frozen
  deriving DecidableEq, Repr

/-- Could the move still succeed? -/
def MoveState.isOpen : MoveState → Bool
  | pending | active => true
  | _ => false

/-- The state of a solution. -/
structure State (n m : Nat) where
  /-- The neighbors of each virtual node, stacked and coalesced ones included. -/
  adjacency : Vector (List (Fin n)) n
  /-- Which nodes are neighbors. -/
  linked : Vector (Vector Bool n) n
  /-- The number of neighbors of each virtual node still in the graph. -/
  degree : Vector Nat n
  /-- The moves each node takes part in. -/
  movesOf : Vector (List (Fin m)) n
  /-- What has become of each move. -/
  moveState : Vector MoveState m
  simplify : List (Fin n) := []
  freeze : List (Fin n) := []
  spill : List (Fin n) := []
  /-- The nodes taken out of the graph, to be colored last in, first out. -/
  stack : List (Fin n) := []
  /-- The node that each coalesced node was merged into. -/
  aliasOf : Vector (Option (Fin n)) n

/-- A worklist with one more entry, unless it is there already. -/
def push {α : Type} [DecidableEq α] (a : α) (l : List α) : List α := if a ∈ l then l else a :: l

variable {n m : Nat}

/-- Follows at most `limit` aliases from a node. -/
def chase (aliasOf : Vector (Option (Fin n)) n) : (limit : Nat) → Fin n → Fin n
  | 0, i => i
  | limit + 1, i =>
    match aliasOf.get i with
    | none => i
    | some j => chase aliasOf limit j

namespace Problem

/-- The number of colors. -/
def colors (p : Problem n m) : Nat := p.palette.length

/-- Is the node a physical register? -/
def precolored (p : Problem n m) (i : Fin n) : Bool := (p.registers.get i).isPhysical

/-- Is the node a physical register outside the palette? -/
def foreign (p : Problem n m) (i : Fin n) : Bool :=
  match p.registers.get i with
  | .physical h => !p.palette.contains h
  | .virtual _ => false

end Problem

namespace State

/-- Was the node merged into another one? -/
def coalesced (s : State n m) (i : Fin n) : Bool := (s.aliasOf.get i).isSome

/-- The node that stands for a node: the end of its chain of aliases, which is
    shorter than the number of nodes. -/
def representative (s : State n m) (i : Fin n) : Fin n := chase s.aliasOf n i

/-- The neighbors of a node that are still in the graph. -/
def adjacent (s : State n m) (i : Fin n) : List (Fin n) :=
  (s.adjacency.get i).filter fun j => !s.stack.contains j && !s.coalesced j

/-- The moves of a node that could still succeed. -/
def openMoves (s : State n m) (i : Fin n) : List (Fin m) :=
  (s.movesOf.get i).filter fun k => (s.moveState.get k).isOpen

/-- Has the node a move that could still succeed? -/
def moveRelated (s : State n m) (i : Fin n) : Bool := !(s.openMoves i).isEmpty

/-- The first move to be tried. -/
def nextMove? (s : State n m) : Option (Fin m) :=
  (List.finRange m).find? fun k => decide (s.moveState.get k = .pending)

/-- The state with the outcome of a move recorded. -/
def setMove (s : State n m) (k : Fin m) (outcome : MoveState) : State n m :=
  { s with moveState := s.moveState.set k outcome k.isLt }

/-- The state in which `v` is known as a neighbor of `u`. -/
def link (s : State n m) (u v : Fin n) : State n m :=
  { s with linked := s.linked.set u ((s.linked.get u).set v true v.isLt) u.isLt }

/-- The state in which `v` is listed as a neighbor of `u`. -/
def attach (s : State n m) (u v : Fin n) : State n m :=
  { s with
    adjacency := s.adjacency.set u (s.adjacency.get u ++ [v]) u.isLt
    degree := s.degree.set u (s.degree.get u + 1) u.isLt }

/-- The state with an edge between two nodes.  Physical registers have no list
    of neighbors and no degree. -/
def addEdge (p : Problem n m) (s : State n m) (u v : Fin n) : State n m :=
  if u = v || (s.linked.get u).get v then s
  else
    let s := (s.link u v).link v u
    let s := if p.precolored u then s else s.attach u v
    if p.precolored v then s else s.attach v u

end State

end Codegen.Coloring
