/-
  What a state of graph coloring looks like from outside, between any two steps.

  The worklists, the select stack and the merged nodes share out the virtual nodes, degrees and
  moves agree with the graph that is left, and a node is on the worklist that its degree and its
  moves ask for (`Consistent`).  The steps keep the invariant of which this is a part, so it
  holds before each of them and at the end (`allocate_consistent`).
-/
import Codegen.Proofs.Coloring.Allocate

namespace Codegen.Coloring.State

variable {n m : Nat} {p : Problem n m} {s : State n m} {i : Fin n}

/-- The state agrees with itself. -/
structure Consistent (p : Problem n m) (s : State n m) : Prop where
  /-- A virtual node is on one of the worklists, on the select stack or merged into another
      node, once and in one of these ways only.  Physical nodes are nowhere. -/
  partition : (s.simplify ++ s.freeze ++ s.spill ++ s.stack ++ (List.finRange n).filter s.coalesced).Perm
    ((List.finRange n).filter fun i => !p.precolored i)
  /-- The degree of a node on a worklist is the number of its neighbors, physical ones
      included, that are neither stacked nor merged. -/
  degree : ∀ i ∈ s.simplify ++ s.freeze ++ s.spill, s.degree.get i =
    (List.finRange n).countP fun j => (s.linked.get i).get j && !s.stack.contains j && !s.coalesced j
  linked_symm : ∀ i j, (s.linked.get i).get j = (s.linked.get j).get i
  linked_irrefl : ∀ i, (s.linked.get i).get i = false
  /-- A virtual node lists its neighbors, each once. -/
  mem_adjacency : ∀ i, p.precolored i = false →
    ∀ j, j ∈ s.adjacency.get i ↔ (s.linked.get i).get j = true
  nodup_adjacency : ∀ i, p.precolored i = false → (s.adjacency.get i).Nodup
  /-- Nodes to be frozen have few neighbors and a move that could still succeed. -/
  freeze_low : ∀ i ∈ s.freeze, s.degree.get i < p.colors
  freeze_open : ∀ i ∈ s.freeze, ∃ k ∈ s.movesOf.get i, (s.moveState.get k).isOpen = true
  /-- Nodes to be spilled have many neighbors. -/
  spill_high : ∀ i ∈ s.spill, p.colors ≤ s.degree.get i
  /-- Simple nodes and stacked ones have no move that could still succeed. -/
  closed : ∀ i ∈ s.simplify ++ s.stack, ∀ k ∈ s.movesOf.get i, (s.moveState.get k).isOpen = false
  /-- A move that could still succeed is known to the nodes that stand for its two sides. -/
  known : ∀ k, (s.moveState.get k).isOpen = true →
    k ∈ s.movesOf.get (s.representative (p.moves.get k).1) ∧
      k ∈ s.movesOf.get (s.representative (p.moves.get k).2)
  /-- A node that stands for itself knows the moves of the nodes that it stands for, and no
      others. -/
  mem_movesOf : ∀ i, s.coalesced i = false → ∀ k, k ∈ s.movesOf.get i ↔
    s.representative (p.moves.get k).1 = i ∨ s.representative (p.moves.get k).2 = i

section
variable (h : s.Inv p {})
include h

theorem Inv.mem_worklists : i ∈ s.simplify ++ s.freeze ++ s.spill ↔ s.Active p i := by
  rw [h.listed.active_iff, List.mem_append, List.mem_append, or_assoc]

theorem Inv.nodup_worklists : (s.simplify ++ s.freeze ++ s.spill).Nodup := by
  have hfirst : (s.simplify ++ s.freeze).Nodup :=
    List.nodup_append.2 ⟨h.listed.nodup_simplify, h.listed.nodup_freeze,
      fun i hi j hj e => h.listed.simplify_freeze hi (e ▸ hj)⟩
  refine List.nodup_append.2 ⟨hfirst, h.listed.nodup_spill, fun i hi j hj e => ?_⟩
  rcases List.mem_append.1 hi with hi | hi
  · exact h.listed.simplify_spill hi (e ▸ hj)
  · exact h.listed.freeze_spill hi (e ▸ hj)

/-- A virtual node has one place. -/
theorem Inv.perm_virtual :
    (s.simplify ++ s.freeze ++ s.spill ++ s.stack ++ (List.finRange n).filter s.coalesced).Perm
      ((List.finRange n).filter fun i => !p.precolored i) := by
  have hmerged : ∀ j, j ∈ (List.finRange n).filter s.coalesced ↔ s.coalesced j = true := by simp
  have hstack : (s.simplify ++ s.freeze ++ s.spill ++ s.stack).Nodup :=
    List.nodup_append.2 ⟨h.nodup_worklists, h.stack_nodup,
      fun i hi j hj e => (h.mem_worklists.1 hi).2.1 (e ▸ hj)⟩
  have hall : (s.simplify ++ s.freeze ++ s.spill ++ s.stack ++
      (List.finRange n).filter s.coalesced).Nodup := by
    refine List.nodup_append.2 ⟨hstack, (List.nodup_finRange n).filter _, fun i hi j hj e => ?_⟩
    have hc : s.coalesced i = false := by
      rcases List.mem_append.1 hi with hi | hi
      · exact (h.mem_worklists.1 hi).2.2
      · exact (h.stacked hi).2
    rw [e, (hmerged j).1 hj] at hc
    cases hc
  refine (List.perm_ext_iff_of_nodup hall ((List.nodup_finRange n).filter _)).2 fun i => ?_
  rw [List.mem_append, List.mem_append, h.mem_worklists, hmerged]
  simp only [List.mem_filter, List.mem_finRange, true_and, Bool.not_eq_true']
  constructor
  · rintro ((hi | hi) | hi)
    · exact hi.1
    · exact (h.stacked hi).1
    · obtain ⟨u, hu⟩ := Option.isSome_iff_exists.1 hi
      exact h.merging.virtual hu
  · intro hi
    by_cases hc : s.coalesced i = true
    · exact Or.inr hc
    · by_cases hs : i ∈ s.stack
      · exact Or.inl (Or.inr hs)
      · exact Or.inl (Or.inl ⟨hi, hs, Bool.eq_false_iff.2 hc⟩)

theorem Inv.degree_eq_countP (hi : s.Active p i) : s.degree.get i =
    (List.finRange n).countP fun j => (s.linked.get i).get j && !s.stack.contains j && !s.coalesced j := by
  have hperm : (s.adjacent i).Perm ((List.finRange n).filter fun j =>
      (s.linked.get i).get j && !s.stack.contains j && !s.coalesced j) := by
    refine (List.perm_ext_iff_of_nodup ((h.linked.nodup hi.1).filter _)
      ((List.nodup_finRange n).filter _)).2 fun j => ?_
    refine (h.mem_adjacent hi.1).trans ?_
    simp [Linked, Present, and_assoc]
  rw [h.degree hi, hperm.length_eq, List.countP_eq_length_filter]
  simp

/-- **The invariant of the steps makes a state consistent.** -/
theorem Inv.consistent : s.Consistent p where
  partition := h.perm_virtual
  degree _ hi := h.degree_eq_countP (h.mem_worklists.1 hi)
  linked_symm _ _ := Bool.eq_iff_iff.2 ⟨h.linked_symm, h.linked_symm⟩
  linked_irrefl := h.linked.irrefl
  mem_adjacency _ hi _ := h.linked.mem_adjacency hi
  nodup_adjacency _ hi := h.linked.nodup hi
  freeze_low _ hi := h.freeze_low hi List.not_mem_nil
  freeze_open i hi := by
    obtain ⟨k, hk⟩ := moveRelated_iff.1 (h.freeze_open hi List.not_mem_nil)
    exact ⟨k, mem_openMoves.1 hk⟩
  spill_high _ hi := h.spill_high hi List.not_mem_nil
  closed i hi k hk := by
    have hclosed : s.moveRelated i = false := by
      rcases List.mem_append.1 hi with hi | hi
      · exact h.simplify_closed hi List.not_mem_nil
      · exact h.stack_closed hi
    have := moveRelated_eq_false.1 hclosed k
    rw [mem_openMoves] at this
    exact Bool.eq_false_iff.2 fun ho => this ⟨hk, ho⟩
  known k _ := ⟨(h.mem_movesOf (h.coalesced_representative _)).2 (Or.inl rfl),
    (h.mem_movesOf (h.coalesced_representative _)).2 (Or.inr rfl)⟩
  mem_movesOf _ hi _ := h.mem_movesOf hi

end

end Codegen.Coloring.State

namespace Codegen.Allocator

open Coloring.State in
/-- **Allocation keeps its books**, whatever the graphs, the palette and the costs: after any
    number of steps the state is consistent.  The nodes are the registers of the two graphs,
    each once. -/
theorem allocate_consistent (a : Allocator) (conflicts copies : Graph) (t : Nat) :
    Consistent (a.problem conflicts copies)
        (run (a.problem conflicts copies) t
          (start (a.problem conflicts copies) (edges conflicts copies))) ∧
      (a.problem conflicts copies).registers.toList.Nodup ∧
      (∀ r, r ∈ (a.problem conflicts copies).registers.toList ↔
        r ∈ conflicts.nodes ∨ r ∈ copies.nodes) ∧
      (a.problem conflicts copies).colors = a.palette.length := by
  refine ⟨(inv_run_start _ _ t).consistent, nodup_registers_problem a conflicts copies, fun r => ?_, rfl⟩
  rw [toList_registers_problem]
  exact mem_registers

end Codegen.Allocator
