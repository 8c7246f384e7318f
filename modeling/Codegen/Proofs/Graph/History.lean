/-
  Graphs and the calls that made them.

  A graph is made from the empty one by adding nodes and edges and removing edges.  The
  `Edit`s of a graph determine all that can be asked about it (`Records`): two registers are
  linked if the last call about the two added an edge, and the nodes are the registers that
  were added, in the order of their first call.

  For a `Graph`, one call is said in `linked_apply` and `nodes_apply`, a sequence of them in
  `linked_ofEdits` and `nodes_ofEdits`.  An `IndexedGraph` goes through the same calls in
  step with it (`Represents.perform`, `exists_ofEdits`), so that no call breaks a rule of the
  library and what it answers is what the graph does (`records_ofEdits`).
-/
import Codegen.Proofs.Graph.Indexed
import Mathlib

namespace Codegen

namespace Graph

/-! ## One call -/

/-- A call that changes a graph. -/
inductive Edit where
  /-- Add a node. -/
  | node (r : Register)
  /-- Add an edge. -/
  | edge (a b : Register)
  /-- Remove an edge. -/
  | cut (a b : Register)
  deriving DecidableEq, Repr

namespace Edit

/-- The graph after the call. -/
def apply (g : Graph) : Edit → Graph
  | node r => g.addNode r
  | edge a b => g.addEdge a b
  | cut a b => g.removeEdge a b

/-- The registers that are nodes after the call, if they were not before. -/
def added : Edit → List Register
  | node r => [r]
  | edge a b => [a, b]
  | cut _ _ => []

/-- Does the call add or remove the edge between two registers, given in either order? -/
def concerns (a b : Register) : Edit → Bool
  | node _ => false
  | edge x y | cut x y => decide (x = a ∧ y = b ∨ x = b ∧ y = a)

/-- Does the call add an edge? -/
def isEdge : Edit → Bool
  | edge _ _ => true
  | node _ | cut _ _ => false

end Edit

/-- A call about two registers decides whether they are linked, and no other call matters. -/
theorem linked_apply (g : Graph) (e : Edit) (a b : Register) :
    (e.apply g).linked a b = true ↔
      if e.concerns a b = true then a ≠ b ∧ e.isEdge = true else g.linked a b = true := by
  cases e with
  | node r => simp [Edit.apply, Edit.concerns]
  | edge x y =>
    simp only [Edit.apply, Edit.concerns, Edit.isEdge, linked_addEdge, decide_eq_true_eq, and_true]
    split
    · next h =>
      constructor
      · rintro (hab | ⟨hne, -⟩)
        · rintro rfl; simp at hab
        · exact hne
      · intro hne
        refine Or.inr ⟨hne, ?_⟩
        rcases h with ⟨rfl, rfl⟩ | ⟨rfl, rfl⟩
        · exact Or.inl ⟨rfl, rfl⟩
        · exact Or.inr ⟨rfl, rfl⟩
    · next h =>
      refine or_iff_left fun ⟨_, hab⟩ => h ?_
      rcases hab with ⟨rfl, rfl⟩ | ⟨rfl, rfl⟩
      · exact Or.inl ⟨rfl, rfl⟩
      · exact Or.inr ⟨rfl, rfl⟩
  | cut x y =>
    simp only [Edit.apply, Edit.concerns, Edit.isEdge, linked_removeEdge, decide_eq_true_eq,
      Bool.false_eq_true, and_false]
    split
    · next h =>
      refine iff_of_false (fun hab => ?_) not_false
      rcases h with ⟨rfl, rfl⟩ | ⟨rfl, rfl⟩
      · exact hab.2.1 ⟨rfl, rfl⟩
      · exact hab.2.2 ⟨rfl, rfl⟩
    · next h =>
      refine and_iff_left ⟨?_, ?_⟩
      · rintro ⟨rfl, rfl⟩; exact h (Or.inl ⟨rfl, rfl⟩)
      · rintro ⟨rfl, rfl⟩; exact h (Or.inr ⟨rfl, rfl⟩)

/-- A call adds its nodes behind those that are there, unless they are there already. -/
theorem nodes_apply (g : Graph) (e : Edit) :
    (e.apply g).nodes = e.added.foldl (fun ns r => if r ∈ ns then ns else ns ++ [r]) g.nodes := by
  cases e with
  | node r => exact nodes_addNode g r
  | edge a b =>
    rw [Edit.apply, nodes_addEdge, nodes_addNode, nodes_addNode]
    rfl
  | cut a b => exact nodes_removeEdge g a b

/-! ## Sequences of calls -/

/-- The graph that a sequence of calls makes from the empty one. -/
def ofEdits (es : List Edit) : Graph := es.foldl Edit.apply {}

theorem ofEdits_concat (es : List Edit) (e : Edit) : ofEdits (es ++ [e]) = e.apply (ofEdits es) := by
  rw [ofEdits, List.foldl_append]
  rfl

/-- **The last call about two registers decides whether they are linked.** -/
theorem linked_ofEdits (es : List Edit) (a b : Register) :
    (ofEdits es).linked a b = true ↔
      a ≠ b ∧ ∃ e, (es.filter (Edit.concerns a b)).getLast? = some e ∧ e.isEdge = true := by
  induction es using List.reverseRecOn with
  | nil => simp [ofEdits, linked, links, Links.of]
  | append_singleton es e ih =>
    rw [ofEdits_concat, linked_apply, List.filter_append]
    by_cases he : e.concerns a b = true
    · rw [if_pos he, List.filter_cons_of_pos he, List.filter_nil, List.getLast?_concat]
      simp
    · rw [if_neg he, List.filter_cons_of_neg he, List.filter_nil, List.append_nil]
      exact ih

theorem eraseDups_append_foldl (l rs : List Register) :
    rs.foldl (fun ns r => if r ∈ ns then ns else ns ++ [r]) l.eraseDups = (l ++ rs).eraseDups := by
  induction rs generalizing l with
  | nil => rw [List.append_nil]; rfl
  | cons r rs ih =>
    have hone : (l ++ [r]).eraseDups = if r ∈ l.eraseDups then l.eraseDups else l.eraseDups ++ [r] := by
      rw [List.eraseDups_append]
      by_cases h : r ∈ l
      · rw [if_pos (List.mem_eraseDups.2 h)]
        simp [List.removeAll, h]
      · rw [if_neg fun h' => h (List.mem_eraseDups.1 h')]
        simp [List.removeAll, h, List.eraseDups_cons]
    rw [List.foldl_cons, ← hone, ih, List.append_assoc]
    rfl

/-- **The nodes are the registers that were added**, each at its first place. -/
theorem nodes_ofEdits (es : List Edit) : (ofEdits es).nodes = (es.flatMap Edit.added).eraseDups := by
  induction es using List.reverseRecOn with
  | nil => rfl
  | append_singleton es e ih =>
    rw [ofEdits_concat, nodes_apply, ih, eraseDups_append_foldl, List.flatMap_append]
    simp

end Graph

namespace IndexedGraph

open Codegen.Graph (Edit)

variable {γ : Type} [Network γ] {t : IndexedGraph γ} {g : Graph}

/-- The graph after a call. -/
def perform (t : IndexedGraph γ) : Edit → Option (IndexedGraph γ)
  | .node r => t.addNode r
  | .edge a b => t.addEdge a b
  | .cut a b => some (t.removeEdge a b)

/-- The graph that a sequence of calls makes from the empty one. -/
def ofEdits (es : List Edit) : Option (IndexedGraph γ) := es.foldlM perform empty

/-- What a graph says about the calls that made it. -/
structure Records (es : List Edit) (t : IndexedGraph γ) : Prop where
  /-- Two registers are linked if they differ and the last call to add or remove the edge
      between them, in either order, added it. -/
  linked : ∀ a b, t.hasEdge a b = true ↔
    a ≠ b ∧ ∃ e, (es.filter (Edit.concerns a b)).getLast? = some e ∧ e.isEdge = true
  symm : ∀ a b, t.hasEdge a b = t.hasEdge b a
  irrefl : ∀ a, t.hasEdge a a = false
  /-- The nodes are the registers that were added, in order of first appearance, each once. -/
  nodes : t.nodes = (es.flatMap Edit.added).eraseDups
  mem_nodes : ∀ r, r ∈ t.nodes ↔ ∃ e ∈ es, r ∈ e.added
  nodup_nodes : t.nodes.Nodup
  hasNode : ∀ r, t.hasNode r = true ↔ r ∈ t.nodes
  /-- Removing an edge removes no node. -/
  nodes_removeEdge : ∀ a b, (t.removeEdge a b).nodes = t.nodes
  /-- The neighbors of a register are what it is linked to, in node order, each once, and
      its degree is their number. -/
  neighbors : ∀ a, ∃ bs, t.neighbors a = some bs ∧ (∀ b, b ∈ bs ↔ t.hasEdge a b = true) ∧
    bs.Sublist t.nodes ∧ bs.Nodup ∧ t.degree a = bs.length
  /-- The degrees count each edge twice. -/
  sum_degree : (t.nodes.map t.degree).sum = 2 * t.edges
  /-- The edges that are counted are the links, each from one of its ends. -/
  edges : ∃ es' : List (Register × Register), t.edges = es'.length ∧
    (es'.Pairwise fun e e' => e ≠ e' ∧ e ≠ e'.swap) ∧
    ∀ a b, t.hasEdge a b = true ↔ (a, b) ∈ es' ∨ (b, a) ∈ es'

section
variable [LawfulNetwork γ]

theorem Represents.perform (h : t.Represents g) (e : Edit) :
    ∃ t', t.perform e = some t' ∧ t'.Represents (e.apply g) := by
  cases e with
  | node r => exact h.addNode r
  | edge a b => exact h.addEdge a b
  | cut a b => exact ⟨_, rfl, h.removeEdge a b⟩

/-- **The graph of numbers goes through all calls in step with the graph of registers.** -/
theorem exists_ofEdits (es : List Edit) :
    ∃ t : IndexedGraph γ, ofEdits es = some t ∧ t.Represents (Graph.ofEdits es) := by
  induction es using List.reverseRecOn with
  | nil => exact ⟨empty, rfl, .empty⟩
  | append_singleton es e ih =>
    obtain ⟨t, ht, h⟩ := ih
    obtain ⟨t', ht', h'⟩ := h.perform e
    refine ⟨t', ?_, Graph.ofEdits_concat es e ▸ h'⟩
    rw [ofEdits, List.foldlM_append, ← ofEdits, ht]
    simpa using ht'

/-- A graph that stands for what the calls make records them. -/
theorem Represents.records {es : List Edit} (h : t.Represents (Graph.ofEdits es)) : Records es t where
  linked a b := by rw [h.linked, Graph.linked_ofEdits]
  symm a b := by rw [h.linked, h.linked, Graph.linked_comm]
  irrefl a := by rw [h.linked, Graph.linked_self]
  nodes := by rw [h.nodes, Graph.nodes_ofEdits]
  mem_nodes r := by rw [h.nodes, Graph.nodes_ofEdits, List.mem_eraseDups, List.mem_flatMap]
  nodup_nodes := by rw [h.nodes]; exact Graph.nodup_nodes _
  hasNode r := by rw [h.hasNode, Graph.hasNode_iff, h.nodes]
  nodes_removeEdge a b := (h.toInStep.removeEdge a b).2.1
  neighbors a := by
    refine ⟨_, h.neighbors a, ?_, ?_, (Graph.nodup_nodes _).filter _, ?_⟩
    · intro b
      rw [Graph.mem_neighbors, h.linked]
    · rw [h.nodes]
      exact List.filter_sublist
    · rw [h.degree, Graph.degree_eq_length_neighbors]
  sum_degree := by
    rw [h.nodes, h.edges, Graph.edges_eq_length_edgeList, ← Graph.sum_degree]
    exact congrArg List.sum (List.map_congr_left fun a _ => h.degree a)
  edges := by
    refine ⟨(Graph.ofEdits es).edgeList, ?_, Graph.pairwise_edgeList _, ?_⟩
    · rw [h.edges, Graph.edges_eq_length_edgeList]
    · intro a b
      rw [h.linked, Graph.linked_iff_mem_edgeList]

/-- **Every sequence of calls from the empty graph runs to its end and makes a graph that
    records it**, in step with the graph of the registers. -/
theorem records_ofEdits (es : List Edit) : ∃ t : IndexedGraph γ, ofEdits es = some t ∧
    Records es t ∧ t.Represents (Graph.ofEdits es) := by
  obtain ⟨t, ht, h⟩ := exists_ofEdits (γ := γ) es
  exact ⟨t, ht, h.records, h⟩

end

/-- Calls with an edge that is added, added from its other end and removed, and an edge from
    a register to itself. -/
def sampleEdits : List Edit :=
  [.edge (.virtual 4) (.virtual 2), .edge (.virtual 7) (.virtual 7), .edge (.virtual 2) (.virtual 4),
    .cut (.virtual 4) (.virtual 2), .edge (.virtual 2) (.virtual 7)]

theorem records_sampleEdits : ∃ t : IndexedGraph Network.Listed, ofEdits sampleEdits = some t ∧
    Records sampleEdits t ∧ t.Represents (Graph.ofEdits sampleEdits) ∧
    t.nodes = [.virtual 4, .virtual 2, .virtual 7] ∧ t.neighbors (.virtual 2) = some [.virtual 7] := by
  obtain ⟨t, ht, hrecords, h⟩ := records_ofEdits (γ := Network.Listed) sampleEdits
  exact ⟨t, ht, hrecords, h, h.nodes.trans (by decide), (h.neighbors _).trans (by decide)⟩

end IndexedGraph

end Codegen
