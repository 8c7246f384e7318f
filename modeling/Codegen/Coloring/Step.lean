/-
  Graph coloring: the steps.

  One step takes a node of low degree out of the graph (`simplifyNode`), tries
  a move (`tryMove`), gives up the moves of a node (`freezeNode`) or takes a
  node of high degree out of the graph in the hope that it gets a color all
  the same (`spillNode`), in this order of preference.

  Two nodes are merged only if that cannot make the graph harder to color: a
  node may be merged into a physical register if each of its neighbors is of
  low degree or a neighbor of that register already (`mergeSafe`), and two
  virtual registers may be merged if the result has fewer neighbors of high
  degree than there are colors (`unionSafe`).
-/
import Codegen.Coloring.State

namespace Codegen.Coloring.State

variable {n m : Nat} (p : Problem n m)

/-! ## Degrees -/

/-- The state in which the unsuccessful moves of the listed nodes are to be
    tried again. -/
def enableMoves (s : State n m) (nodes : List (Fin n)) : State n m :=
  nodes.foldl (fun s i =>
    (s.openMoves i).foldl (fun s k => s.setMove k .pending) s) s

/-- A neighbor of the node has left the graph.  A node whose degree drops below
    the number of colors leaves the spill worklist, and the moves around it get
    another chance. -/
def decrementDegree (s : State n m) (i : Fin n) : State n m :=
  if p.precolored i then s
  else
    let d := s.degree.get i
    let s := { s with degree := s.degree.set i (d - 1) i.isLt }
    if d ≠ p.colors then s
    else
      let s := s.enableMoves (i :: s.adjacent i)
      let s := { s with spill := s.spill.erase i }
      if s.moveRelated i then { s with freeze := push i s.freeze }
      else { s with simplify := push i s.simplify }

/-- Takes the node `i`, the newest of the simplify worklist, out of the graph. -/
def simplifyNode (s : State n m) (i : Fin n) : State n m :=
  let s := { s with simplify := s.simplify.erase i, stack := i :: s.stack }
  (s.adjacent i).foldl (decrementDegree p) s

/-! ## Moves -/

/-- A node that has become simple goes to the simplify worklist. -/
def addWorklist (s : State n m) (i : Fin n) : State n m :=
  if p.precolored i || s.moveRelated i || decide (p.colors ≤ s.degree.get i) then s
  else { s with freeze := s.freeze.erase i, simplify := push i s.simplify }

/-- Has the node many neighbors, or is it a physical register? -/
def significant (s : State n m) (i : Fin n) : Bool :=
  p.precolored i || decide (p.colors ≤ s.degree.get i)

/-- May `v` be merged into the physical register `u`? -/
def mergeSafe (s : State n m) (u v : Fin n) : Bool :=
  (s.adjacent v).all fun t =>
    decide (s.degree.get t < p.colors) || p.precolored t || (s.linked.get t).get u

/-- May the virtual registers `u` and `v` be merged? -/
def unionSafe (s : State n m) (u v : Fin n) : Bool :=
  decide ((s.adjacent u ++ s.adjacent v).eraseDups.countP (s.significant p) < p.colors)

/-- Merges `v` into `u`. -/
def combine (s : State n m) (u v : Fin n) : State n m :=
  let s : State n m := if v ∈ s.freeze then { s with freeze := s.freeze.erase v }
    else { s with spill := s.spill.erase v }
  let s := { s with
    aliasOf := s.aliasOf.set v (some u) v.isLt
    movesOf := s.movesOf.set u (s.movesOf.get u ++ s.movesOf.get v) u.isLt }
  let s := s.enableMoves [v]
  let s : State n m := (s.adjacent v).foldl (fun s t => decrementDegree p (s.addEdge p t u) t) s
  if p.colors ≤ s.degree.get u ∧ u ∈ s.freeze then
    { s with freeze := s.freeze.erase u, spill := push u s.spill }
  else s

/-- Tries to merge the two sides of a move.  Of two nodes, a physical one comes
    first. -/
def tryMove (s : State n m) (k : Fin m) : State n m :=
  let x := s.representative (p.moves.get k).1
  let y := s.representative (p.moves.get k).2
  let (u, v) := if p.precolored y then (y, x) else (x, y)
  if u = v then addWorklist p (s.setMove k .coalesced) u
  else if p.precolored v || (s.linked.get u).get v || p.foreign u then
    addWorklist p (addWorklist p (s.setMove k .constrained) u) v
  else if (p.precolored u && s.mergeSafe p u v) || (!p.precolored u && s.unionSafe p u v) then
    addWorklist p (combine p (s.setMove k .coalesced) u v) u
  else s.setMove k .active

/-- Gives up the moves of a node.  A node on the other side that has no move
    left becomes simple. -/
def freezeMoves (s : State n m) (u : Fin n) : State n m :=
  (s.openMoves u).foldl (fun s k =>
    let a := s.representative (p.moves.get k).1
    let v := if a = s.representative u then s.representative (p.moves.get k).2 else a
    let s := s.setMove k .frozen
    if !p.precolored v && !s.moveRelated v && decide (s.degree.get v < p.colors) &&
        s.freeze.contains v then
      { s with freeze := s.freeze.erase v, simplify := push v s.simplify }
    else s) s

/-- Gives up the moves of `u`, the newest of the freeze worklist. -/
def freezeNode (s : State n m) (u : Fin n) : State n m :=
  let s := { s with freeze := s.freeze.erase u, simplify := push u s.simplify }
  s.freezeMoves p u

/-! ## Spilling -/

/-- Is `i` cheaper to keep in memory than `j`, for each neighbor that it frees?
    The products wrap. -/
def cheaper (s : State n m) (i j : Fin n) : Bool :=
  decide (p.cost.get i * Int64.ofNat (s.degree.get j) < p.cost.get j * Int64.ofNat (s.degree.get i))

/-- The cheapest node of the spill worklist, the oldest on a tie. -/
def pickSpill (s : State n m) : Option (Fin n) :=
  s.spill.reverse.foldl (fun pick i =>
    match pick with
    | none => some i
    | some j => if s.cheaper p i j then some i else some j) none

/-- Treats a node of high degree as simple. -/
def spillNode (s : State n m) (u : Fin n) : State n m :=
  let s := { s with spill := s.spill.erase u, simplify := push u s.simplify }
  s.freezeMoves p u

/-! ## One step -/

/-- The next state, unless all worklists are empty. -/
def step (s : State n m) : Option (State n m) :=
  match s.simplify with
  | i :: _ => some (s.simplifyNode p i)
  | [] =>
    match s.nextMove? with
    | some k => some (s.tryMove p k)
    | none =>
      match s.freeze with
      | u :: _ => some (s.freezeNode p u)
      | [] => (s.pickSpill p).map (s.spillNode p)

/-- At most `limit` steps. -/
def run : (limit : Nat) → State n m → State n m
  | 0, s => s
  | limit + 1, s =>
    match s.step p with
    | none => s
    | some s' => run limit s'

end Codegen.Coloring.State
