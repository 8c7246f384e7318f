/-
  The edges of a graph.

  Each edge is listed from one of its ends (`edgeList`), and the degrees count it twice
  (`sum_degree`).
-/
import Codegen.Graph.Basic
import Mathlib

namespace Codegen

namespace Links

/-- A node that is listed once has the links listed with it. -/
theorem of_eq_of_mem {es : Links} {a : Register} {ls : List Register} (h : es.nodes.Nodup)
    (hm : (a, ls) ∈ es) : es.of a = ls := by
  induction es with
  | nil => cases hm
  | cons e es ih =>
    obtain ⟨x, xs⟩ := e
    simp only [nodes, List.map_cons, List.nodup_cons] at h
    rcases List.mem_cons.1 hm with e | hm'
    · cases e; simp [of]
    · have hax : a ≠ x := fun e => h.1 (List.mem_map.2 ⟨(a, ls), hm', e⟩)
      have hax' : (a == x) = false := by simpa using hax
      have := ih h.2 hm'
      simp only [of, List.lookup_cons, hax'] at this ⊢
      exact this

end Links

namespace Graph

variable {g : Graph} {a b : Register}

/-- A node has as many links as neighbors. -/
theorem degree_eq_length_neighbors (g : Graph) (a : Register) :
    g.degree a = (g.neighbors a).length := by
  have hperm : (g.links a).Perm (g.neighbors a) := by
    refine (List.perm_ext_iff_of_nodup (g.wellFormed.simple a) (g.nodup_nodes.filter _)).2 fun b => ?_
    exact linked_iff.symm.trans mem_neighbors.symm
  exact hperm.length_eq

theorem degree_eq_countP (g : Graph) (a : Register) : g.degree a = g.nodes.countP (g.linked a) := by
  rw [degree_eq_length_neighbors, List.countP_eq_length_filter]
  rfl

theorem linked_comm (g : Graph) (a b : Register) : g.linked a b = g.linked b a :=
  Bool.eq_iff_iff.2 ⟨linked_symm, linked_symm⟩

theorem sum_map_linked (g : Graph) (x : Register) (l : List Register) :
    (l.map fun a => if g.linked a x = true then 1 else 0).sum = l.countP (g.linked x) := by
  induction l with
  | nil => rfl
  | cons a l ih => rw [List.map_cons, List.sum_cons, List.countP_cons, ih, g.linked_comm a x, Nat.add_comm]

/-- Among the nodes of a list, each edge is seen from both of its ends. -/
theorem sum_countP_linked (g : Graph) (l : List Register) :
    (l.map fun a => l.countP (g.linked a)).sum = 2 * (edgeList.go g l).length := by
  induction l with
  | nil => rfl
  | cons x l ih =>
    have hgo : (edgeList.go g (x :: l)).length = l.countP (g.linked x) + (edgeList.go g l).length := by
      rw [edgeList.go, List.length_append, List.length_map, List.countP_eq_length_filter]
      rfl
    simp only [List.map_cons, List.sum_cons, List.countP_cons, List.sum_map_add, ih, sum_map_linked, hgo,
      linked_self, Bool.false_eq_true, if_false]
    omega

/-- **The degrees sum to twice the number of edges that are listed.** -/
theorem sum_degree (g : Graph) : (g.nodes.map g.degree).sum = 2 * g.edgeList.length := by
  rw [show g.degree = fun a => g.nodes.countP (g.linked a) from funext g.degree_eq_countP]
  exact g.sum_countP_linked g.nodes

theorem map_degree_nodes (g : Graph) : g.nodes.map g.degree = g.entries.map (·.2.length) := by
  rw [nodes, Links.nodes, List.map_map]
  refine List.map_congr_left fun e he => ?_
  exact congrArg List.length (Links.of_eq_of_mem g.wellFormed.nodup he)

/-- The edges that are counted are those that are listed. -/
theorem edges_eq_length_edgeList (g : Graph) : g.edges = g.edgeList.length := by
  have hfold : ∀ es : Links, es.foldr (fun e n => e.2.length + n) 0 = (es.map (·.2.length)).sum := by
    intro es
    induction es with
    | nil => rfl
    | cons e es ih => rw [List.foldr_cons, ih, List.map_cons, List.sum_cons]
  change g.entries.foldr (fun e n => e.2.length + n) 0 / 2 = _
  rw [hfold, ← map_degree_nodes, sum_degree]
  omega

/-- The listed edges are between nodes of the list. -/
theorem mem_of_mem_edgeList_go {l : List Register} (h : (a, b) ∈ edgeList.go g l) :
    a ∈ l ∧ b ∈ l := by
  induction l with
  | nil => cases h
  | cons x l ih =>
    simp only [edgeList.go, List.mem_append, List.mem_map, List.mem_filter, Prod.mk.injEq] at h
    rcases h with ⟨y, ⟨hy, -⟩, rfl, rfl⟩ | h
    · exact ⟨List.mem_cons_self, List.mem_cons_of_mem _ hy⟩
    · exact ⟨List.mem_cons_of_mem _ (ih h).1, List.mem_cons_of_mem _ (ih h).2⟩

theorem nodup_edgeList_go (g : Graph) {l : List Register} (hl : l.Nodup) :
    (edgeList.go g l).Nodup := by
  induction l with
  | nil => exact List.nodup_nil
  | cons x l ih =>
    obtain ⟨hx, hl⟩ := List.nodup_cons.1 hl
    rw [edgeList.go]
    refine List.nodup_append.2 ⟨(hl.filter _).map fun _ _ e => (Prod.mk.inj e).2, ih hl, ?_⟩
    rintro e he e' he' rfl
    obtain ⟨y, -, rfl⟩ := List.mem_map.1 he
    exact hx (mem_of_mem_edgeList_go he').1

/-- No edge is listed from both of its ends. -/
theorem not_mem_edgeList_go_swap {l : List Register} (hl : l.Nodup)
    (h : (a, b) ∈ edgeList.go g l) : (b, a) ∉ edgeList.go g l := by
  induction l with
  | nil => cases h
  | cons x l ih =>
    obtain ⟨hx, hl⟩ := List.nodup_cons.1 hl
    simp only [edgeList.go, List.mem_append, List.mem_map, List.mem_filter, Prod.mk.injEq] at h ⊢
    rcases h with ⟨y, ⟨hy, -⟩, rfl, rfl⟩ | h
    · rintro (⟨z, ⟨hz, -⟩, rfl, rfl⟩ | h')
      · exact hx hz
      · exact hx (mem_of_mem_edgeList_go h').2
    · rintro (⟨z, ⟨hz, -⟩, rfl, rfl⟩ | h')
      · exact hx (mem_of_mem_edgeList_go h).2
      · exact ih hl h h'

/-- No two of the edges listed have the same ends. -/
theorem pairwise_edgeList (g : Graph) : g.edgeList.Pairwise fun e e' => e ≠ e' ∧ e ≠ e'.swap := by
  refine (nodup_edgeList_go g g.nodup_nodes).imp_of_mem ?_
  rintro e e' he he' hne
  refine ⟨hne, ?_⟩
  rintro rfl
  exact not_mem_edgeList_go_swap g.nodup_nodes he he'

/-- An edge is listed from one of its ends. -/
theorem linked_iff_mem_edgeList (g : Graph) (a b : Register) :
    g.linked a b = true ↔ (a, b) ∈ g.edgeList ∨ (b, a) ∈ g.edgeList := by
  constructor
  · exact mem_edgeList_of_linked
  · rintro (h | h)
    · exact linked_of_mem_edgeList h
    · exact linked_symm (linked_of_mem_edgeList h)

end Graph

end Codegen
