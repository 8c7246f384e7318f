/-
  Graphs over registers in a graph of numbers.

  The graph of the registers is kept in three parts: a graph of a library, whose nodes
  are known by numbers, the registers in the order in which they were added, and the
  number of each register, which is its place in that order.

  * `Network` is what is used of the library.  It promises what `LawfulNetwork` says, and
    nothing about the order in which it lists nodes and edges.
  * `IndexedGraph` is the graph of the registers.  A call that breaks a rule of the library
    stops the program; its result is `none` here.
  * `Network.Listed` is one such library: the nodes and the edges, listed.
-/
import Codegen.Bindings
import Codegen.Register

namespace Codegen

/-- A node of the library: a register and its number. -/
structure Vertex where
  id : Nat
  register : Register
  deriving DecidableEq, Repr

/-- A library of undirected graphs whose nodes are known by their numbers. -/
class Network (γ : Type) where
  empty : γ
  /-- Add a node, whose number must be new. -/
  addNode : γ → Vertex → Option γ
  /-- The node of a number. -/
  node? : γ → Nat → Option Vertex
  /-- Set the edge between two nodes, which must have different numbers. -/
  setEdge : γ → Vertex → Vertex → Option γ
  /-- Remove the edge between two numbers, if there is one. -/
  removeEdge : γ → Nat → Nat → γ
  /-- Is there an edge between two numbers? -/
  hasEdge : γ → Nat → Nat → Bool
  /-- The nodes that have an edge with a number, in any order. -/
  adjacent : γ → Nat → List Vertex
  /-- The edges, each as the numbers of its ends, in any order. -/
  edges : γ → List (Nat × Nat)

/-- The library keeps a finite undirected graph without self loops and double edges. -/
class LawfulNetwork (γ : Type) [Network γ] : Prop where
  node?_empty : ∀ i, Network.node? (Network.empty : γ) i = none
  hasEdge_empty : ∀ i j, Network.hasEdge (Network.empty : γ) i j = false
  /-- A node of a new number can be added, and nothing else changes. -/
  addNode : ∀ (x : γ) (v : Vertex), Network.node? x v.id = none → ∃ x', Network.addNode x v = some x' ∧
    (∀ i, Network.node? x' i = if i = v.id then some v else Network.node? x i) ∧
    ∀ i j, Network.hasEdge x' i j = Network.hasEdge x i j
  /-- An edge between different numbers can be set.  Its ends become the nodes of their
      numbers, and nothing else changes. -/
  setEdge : ∀ (x : γ) (v w : Vertex), v.id ≠ w.id → ∃ x', Network.setEdge x v w = some x' ∧
    (∀ i, Network.node? x' i =
      if i = v.id then some v else if i = w.id then some w else Network.node? x i) ∧
    ∀ i j, Network.hasEdge x' i j = true ↔
      Network.hasEdge x i j = true ∨ i = v.id ∧ j = w.id ∨ i = w.id ∧ j = v.id
  node?_removeEdge : ∀ (x : γ) (i j k : Nat), Network.node? (Network.removeEdge x i j) k = Network.node? x k
  /-- The order in which the ends of an edge are given does not matter. -/
  hasEdge_removeEdge : ∀ (x : γ) (i j k l : Nat), Network.hasEdge (Network.removeEdge x i j) k l = true ↔
    Network.hasEdge x k l = true ∧ ¬(k = i ∧ l = j) ∧ ¬(k = j ∧ l = i)
  mem_adjacent : ∀ (x : γ) (i : Nat) (v : Vertex), v ∈ Network.adjacent x i ↔
    Network.hasEdge x i v.id = true ∧ Network.node? x v.id = some v
  /-- No node is listed twice. -/
  nodup_adjacent : ∀ (x : γ) (i : Nat), ((Network.adjacent x i).map Vertex.id).Nodup
  mem_edges : ∀ (x : γ) (i j : Nat), Network.hasEdge x i j = true ↔
    (i, j) ∈ Network.edges x ∨ (j, i) ∈ Network.edges x
  /-- No two of the edges listed have the same ends. -/
  pairwise_edges : ∀ x : γ, (Network.edges x).Pairwise fun e e' => e ≠ e' ∧ e ≠ e'.swap

/-- An undirected graph over registers in a graph of numbers. -/
structure IndexedGraph (γ : Type) where
  /-- The graph of the numbers. -/
  net : γ
  /-- The registers in the order in which they were added. -/
  nodes : List Register
  /-- The number of each register. -/
  index : Bindings Register Nat

namespace IndexedGraph

variable {γ : Type} [Network γ]

def empty : IndexedGraph γ := ⟨Network.empty, [], []⟩

/-- The graph with a register added, if it is not there yet. -/
def addNode (t : IndexedGraph γ) (r : Register) : Option (IndexedGraph γ) :=
  match t.index.get? r with
  | some _ => some t
  | none => do
    let id := t.nodes.length
    let net ← Network.addNode t.net ⟨id, r⟩
    return ⟨net, t.nodes ++ [r], t.index.set r id⟩

/-- The edge between two numbers set. -/
def connect (t : IndexedGraph γ) (i j : Nat) : Option (IndexedGraph γ) := do
  let v ← Network.node? t.net i
  let w ← Network.node? t.net j
  let net ← Network.setEdge t.net v w
  return { t with net }

/-- The number of a register, and zero for one that has none. -/
def number (t : IndexedGraph γ) (r : Register) : Nat := (t.index.get? r).getD 0

/-- The graph with an edge added, and its ends if they are not there yet.  An edge from a
    register to itself is ignored. -/
def addEdge (t : IndexedGraph γ) (a b : Register) : Option (IndexedGraph γ) := do
  let t ← t.addNode a
  let t ← t.addNode b
  if a = b then return t
  else t.connect (t.number a) (t.number b)

/-- The graph without the edge between two registers. -/
def removeEdge (t : IndexedGraph γ) (a b : Register) : IndexedGraph γ :=
  match t.index.get? a, t.index.get? b with
  | some i, some j => { t with net := Network.removeEdge t.net i j }
  | _, _ => t

/-- Is the register a node? -/
def hasNode (t : IndexedGraph γ) (r : Register) : Bool := (t.index.get? r).isSome

/-- Is there an edge between two registers? -/
def hasEdge (t : IndexedGraph γ) (a b : Register) : Bool :=
  match t.index.get? a, t.index.get? b with
  | some i, some j => Network.hasEdge t.net i j
  | _, _ => false

/-- The number of nodes. -/
def size (t : IndexedGraph γ) : Nat := t.nodes.length

/-- The registers linked to a register, by the places of their numbers. -/
def neighbors (t : IndexedGraph γ) (r : Register) : Option (List Register) :=
  match t.index.get? r with
  | none => some []
  | some i =>
    let ids := ((Network.adjacent t.net i).map Vertex.id).mergeSort
    ids.mapM fun k => t.nodes[k]?

/-- The number of registers linked to a register. -/
def degree (t : IndexedGraph γ) (r : Register) : Nat :=
  match t.index.get? r with
  | none => 0
  | some i => (Network.adjacent t.net i).length

/-- The number of edges. -/
def edges (t : IndexedGraph γ) : Nat := (Network.edges t.net).length

end IndexedGraph

/-! ## A library -/

/-- Nodes with different numbers and edges between them, each from its lower end. -/
structure Network.Listed where
  vertices : List Vertex := []
  pairs : List (Nat × Nat) := []
  ids : (vertices.map Vertex.id).Nodup := by exact List.nodup_nil
  once : pairs.Nodup := by exact List.nodup_nil
  ordered : ∀ e ∈ pairs, e.1 < e.2 := by simp

namespace Network.Listed

/-- The edge between two numbers, from the lower one. -/
def pair (i j : Nat) : Nat × Nat := (min i j, max i j)

/-- The nodes with one more, which replaces the one of its number. -/
def put (vs : List Vertex) (v : Vertex) : List Vertex :=
  vs.filter (fun u => u.id ≠ v.id) ++ [v]

theorem nodup_put {vs : List Vertex} (h : (vs.map Vertex.id).Nodup) (v : Vertex) :
    ((put vs v).map Vertex.id).Nodup := by
  rw [put, List.map_append, List.nodup_append]
  refine ⟨h.sublist (List.filter_sublist.map _), by simp, ?_⟩
  intro i hi j hj
  obtain ⟨u, hu, rfl⟩ := List.mem_map.1 hi
  rw [List.map_singleton, List.mem_singleton] at hj
  rw [hj]
  simpa using (List.mem_filter.1 hu).2

instance : Network Listed where
  empty := {}
  addNode x v :=
    if x.vertices.any (·.id == v.id) then none
    else some { x with vertices := put x.vertices v, ids := nodup_put x.ids v }
  node? x i := x.vertices.find? (·.id == i)
  setEdge x v w :=
    if h : v.id = w.id then none
    else some {
      vertices := put (put x.vertices w) v
      pairs := pair v.id w.id :: x.pairs.erase (pair v.id w.id)
      ids := nodup_put (nodup_put x.ids w) v
      once := List.nodup_cons.2 ⟨x.once.not_mem_erase, x.once.erase _⟩
      ordered := by
        intro e he
        rcases List.mem_cons.1 he with rfl | he
        · simp only [pair]; omega
        · exact x.ordered e (List.mem_of_mem_erase he) }
  removeEdge x i j :=
    { x with
      pairs := x.pairs.erase (pair i j)
      once := x.once.erase _
      ordered := fun e he => x.ordered e (List.mem_of_mem_erase he) }
  hasEdge x i j := x.pairs.contains (pair i j)
  adjacent x i := x.vertices.filter fun v => x.pairs.contains (pair i v.id)
  edges x := x.pairs

end Network.Listed

end Codegen
