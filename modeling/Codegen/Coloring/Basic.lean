/-
  Graph coloring: from graphs to an allocation.

  `Allocator.allocate` colors an interference graph with a palette, merging the
  two sides of copy edges where that is safe.  Nodes come off the select stack
  in turn and get the first color that none of their neighbors has; a node for
  which no color is left stays unassigned.
-/
import Codegen.Allocation
import Codegen.Coloring.Step
import Codegen.Graph.Basic

namespace Codegen.Coloring

variable {n m : Nat} (p : Problem n m)

/-! ## The start -/

/-- The state without edges. -/
def State.blank : State n m where
  adjacency := Vector.replicate n []
  linked := Vector.replicate n (Vector.replicate n false)
  degree := Vector.replicate n 0
  movesOf := Vector.replicate n []
  moveState := Vector.replicate m .pending
  aliasOf := Vector.replicate n none

/-- The state in which the nodes know their moves. -/
def State.addMove (s : State n m) (k : Fin m) : State n m :=
  let (a, b) := p.moves.get k
  let s := { s with movesOf := s.movesOf.set a (s.movesOf.get a ++ [k]) a.isLt }
  { s with movesOf := s.movesOf.set b (s.movesOf.get b ++ [k]) b.isLt }

/-- The state with a virtual node put on its worklist. -/
def State.classify (s : State n m) (i : Fin n) : State n m :=
  if p.precolored i then s
  else if p.colors ≤ s.degree.get i then { s with spill := push i s.spill }
  else if s.moveRelated i then { s with freeze := push i s.freeze }
  else { s with simplify := push i s.simplify }

/-- The state at the start, with the given edges. -/
def State.start (edges : List (Fin n × Fin n)) : State n m :=
  let s := edges.foldl (fun s (u, v) => s.addEdge p u v) State.blank
  let s := (List.finRange m).foldl (State.addMove p) s
  (List.finRange n).foldl (State.classify p) s

/-! ## The colors -/

/-- The colors given so far. -/
abbrev Colors (n : Nat) := Vector (Option Physical) n

/-- Physical registers are colored with themselves. -/
def ownColors : Colors n := p.registers.map Register.physical?

/-- Gives a node the first color that none of its neighbors has. -/
def paint (s : State n m) (colors : Colors n) (i : Fin n) : Colors n :=
  let taken := (s.adjacency.get i).filterMap fun j => colors.get (s.representative j)
  match p.palette.find? fun h => !taken.contains h with
  | none => colors
  | some h => colors.set i (some h) i.isLt

/-- The colors of all nodes: of the stacked ones in turn, and then of the
    coalesced ones, which share the color of their representative. -/
def assignColors (s : State n m) : Colors n :=
  let colors := s.stack.foldl (paint p s) (ownColors p)
  Vector.ofFn fun i => colors.get (if s.coalesced i then s.representative i else i)

/-- A number of steps that is enough for every problem of this size. -/
def stepLimit (n m : Nat) : Nat := (n + 1) * (n + 1) * (m + 1) * (m + 1)

/-- The colors that a problem with the given edges ends up with. -/
def solve (edges : List (Fin n × Fin n)) : Colors n :=
  assignColors p (State.run p (stepLimit n m) (State.start p edges))

/-- The colors as an allocation of the registers. -/
def allocation (colors : Colors n) : Allocation where
  assigned := (List.finRange n).filterMap fun i => (colors.get i).map (p.registers.get i, ·)
  unassigned := ((List.finRange n).filter fun i => (colors.get i).isNone).map p.registers.get

end Codegen.Coloring

namespace Codegen

/-- What registers may be handed out, and what it costs to keep a register in
    memory (1 where nothing is said). -/
structure Allocator where
  name : String
  palette : List Physical
  costs : List (Register × Word) := []
  deriving DecidableEq, Repr

namespace Allocator

/-- The cost of keeping a register in memory. -/
def cost (a : Allocator) (r : Register) : Word := (a.costs.lookup r).getD 1

/-- The registers of the two graphs, each once. -/
def registers (conflicts copies : Graph) : List Register :=
  conflicts.nodes ++ copies.nodes.filter fun r => !conflicts.hasNode r

/-- The pairs of registers as pairs of positions in a list. -/
def pairs (nodes : List Register) (edges : List (Register × Register)) :
    List (Fin nodes.length × Fin nodes.length) :=
  edges.filterMap fun (a, b) => do return (← nodes.finIdxOf? a, ← nodes.finIdxOf? b)

/-- The edges of the interference graph, each from both of its ends. -/
def edges (conflicts copies : Graph) :
    List (Fin (registers conflicts copies).length × Fin (registers conflicts copies).length) :=
  pairs (registers conflicts copies)
    (conflicts.nodes.flatMap fun u => (conflicts.neighbors u).map (u, ·))

/-- The moves to be tried: the copies, but not those between two physical
    registers. -/
def moves (conflicts copies : Graph) :
    List (Fin (registers conflicts copies).length × Fin (registers conflicts copies).length) :=
  pairs (registers conflicts copies)
    (copies.edgeList.filter fun (u, v) => !(u.isPhysical && v.isPhysical))

/-- The coloring problem of two graphs. -/
def problem (a : Allocator) (conflicts copies : Graph) :
    Coloring.Problem (registers conflicts copies).length (moves conflicts copies).length where
  registers := ⟨(registers conflicts copies).toArray, by simp⟩
  palette := a.palette
  cost := ⟨((registers conflicts copies).map a.cost).toArray, by simp⟩
  moves := ⟨(moves conflicts copies).toArray, by simp⟩

/-- Colors the interference graph, merging the two sides of copy edges where
    that is safe. -/
def allocate (a : Allocator) (conflicts copies : Graph) : Allocation :=
  let problem := a.problem conflicts copies
  Coloring.allocation problem (Coloring.solve problem (edges conflicts copies))

end Allocator

end Codegen
