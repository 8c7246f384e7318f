/-
  The shape of a state: its select stack, its aliases and its edges.

  Most parts of a step leave the shape alone (`SameShape`).  Only a merge makes
  edges, from the node that stays to the neighbors of the one that goes
  (`linked_combine`).
-/
import Codegen.Proofs.Coloring.Leave

namespace Codegen.Coloring.State

variable {n m : Nat} {p : Problem n m} {s s' s'' : State n m} {i t u v : Fin n}

/-- Two states have the same stack, aliases and edges. -/
structure SameShape (s s' : State n m) : Prop where
  stack : s'.stack = s.stack
  aliasOf : s'.aliasOf = s.aliasOf
  linked : s'.linked = s.linked

namespace SameShape

theorem refl (s : State n m) : SameShape s s := ⟨rfl, rfl, rfl⟩

theorem trans (h : SameShape s s') (h' : SameShape s' s'') : SameShape s s'' :=
  ⟨h'.stack.trans h.stack, h'.aliasOf.trans h.aliasOf, h'.linked.trans h.linked⟩

theorem present_iff (h : SameShape s s') : s'.Present i ↔ s.Present i := by
  simp only [Present, coalesced, h.stack, h.aliasOf]

theorem foldl {α : Type} {f : State n m → α → State n m} (hf : ∀ s a, SameShape s (f s a))
    (l : List α) (s : State n m) : SameShape s (l.foldl f s) := by
  induction l generalizing s with
  | nil => exact refl s
  | cons a l ih => exact (hf s a).trans (ih _)

end SameShape

theorem sameShape_decrementDegree (p : Problem n m) (s : State n m) (t : Fin n) :
    SameShape s (s.decrementDegree p t) := by
  rw [decrementDegree_eq]; exact ⟨rfl, rfl, rfl⟩

theorem sameShape_addWorklist (p : Problem n m) (s : State n m) (t : Fin n) :
    SameShape s (s.addWorklist p t) := by
  unfold addWorklist
  split <;> exact ⟨rfl, rfl, rfl⟩

/-- Stacking a node changes the stack only. -/
theorem sameShape_simplifyNode (p : Problem n m) (s : State n m) (i : Fin n) :
    SameShape { s with stack := i :: s.stack } (s.simplifyNode p i) :=
  have h := SameShape.foldl (sameShape_decrementDegree p) _
    { s with simplify := s.simplify.erase i, stack := i :: s.stack }
  ⟨h.stack, h.aliasOf, h.linked⟩

/-! ## Merging -/

theorem WellLinked.linked_addEdge (h : WellLinked p s.adjacency s.linked) {a b : Fin n} :
    (s.addEdge p u v).Linked a b ↔ s.Linked a b ∨ u ≠ v ∧ (a = u ∧ b = v ∨ a = v ∧ b = u) := by
  by_cases huv : u = v
  · have e : s.addEdge p u v = s := by simp [State.addEdge, huv]
    rw [e]; simp [huv]
  by_cases hl : s.Linked u v
  · rw [addEdge_of_linked hl]
    constructor
    · exact Or.inl
    · rintro (hab | ⟨-, ⟨rfl, rfl⟩ | ⟨rfl, rfl⟩⟩)
      · exact hab
      · exact hl
      · exact h.symm hl
  · rw [State.linked_addEdge huv hl]; simp [huv]

theorem handOver_eq (p : Problem n m) (u : Fin n) (s : State n m) (t : Fin n) :
    (handOver p u s t).stack = s.stack ∧ (handOver p u s t).aliasOf = s.aliasOf ∧
      (handOver p u s t).adjacency = (s.addEdge p t u).adjacency ∧
      (handOver p u s t).linked = (s.addEdge p t u).linked := by
  rw [handOver, decrementDegree_eq]
  refine ⟨?_, ?_, rfl, rfl⟩ <;> rw [addEdge_eq]

/-- The state after the neighbors of the merged node were handed over. -/
theorem foldl_handOver (h : WellLinked p s.adjacency s.linked) {l : List (Fin n)} (hl : u ∉ l) :
    (l.foldl (handOver p u) s).stack = s.stack ∧ (l.foldl (handOver p u) s).aliasOf = s.aliasOf ∧
      ∀ a b, (l.foldl (handOver p u) s).Linked a b ↔
        s.Linked a b ∨ a = u ∧ b ∈ l ∨ b = u ∧ a ∈ l := by
  induction l generalizing s with
  | nil => simp
  | cons t l ih =>
    simp only [List.mem_cons, not_or] at hl
    obtain ⟨hstack, halias, hadj, hlinked⟩ := handOver_eq p u s t
    have hw : WellLinked p (handOver p u s t).adjacency (handOver p u s t).linked := by
      rw [hadj, hlinked]; exact h.addEdge t u
    obtain ⟨h₁, h₂, h₃⟩ := ih hw hl.2
    refine ⟨h₁.trans hstack, h₂.trans halias, fun a b => (h₃ a b).trans ?_⟩
    have : (handOver p u s t).Linked a b ↔ (s.addEdge p t u).Linked a b := by
      rw [Linked, hlinked]; rfl
    rw [this, h.linked_addEdge]
    simp only [List.mem_cons]
    constructor
    · rintro ((hab | ⟨-, ⟨rfl, rfl⟩ | ⟨rfl, rfl⟩⟩) | ⟨rfl, hb⟩ | ⟨rfl, ha⟩) <;> simp [*]
    · rintro (hab | ⟨rfl, rfl | hb⟩ | ⟨rfl, rfl | ha⟩)
      · exact Or.inl (Or.inl hab)
      · exact Or.inl (Or.inr ⟨Ne.symm hl.1, Or.inr ⟨rfl, rfl⟩⟩)
      · exact Or.inr (Or.inl ⟨rfl, hb⟩)
      · exact Or.inl (Or.inr ⟨Ne.symm hl.1, Or.inl ⟨rfl, rfl⟩⟩)
      · exact Or.inr (Or.inr ⟨rfl, ha⟩)

theorem present_merge (hm : Mergeable p s u v) (hstack : s'.stack = s.stack)
    (halias : s'.aliasOf = s.aliasOf.set v (some u) v.isLt) :
    s'.Present i ↔ s.Present i ∧ i ≠ v := by
  rw [← present_absorbed hm.active.2, Present, Present, coalesced, coalesced, hstack, halias]
  rfl

section
variable (hw : WellLinked p s.adjacency s.linked) (hm : Mergeable p s u v)
include hw hm

theorem mem_adjacent_absorbed : t ∈ (s.absorbed u v).adjacent v ↔ t ∈ s.adjacent v := by
  rw [mem_adjacent, mem_adjacent, present_absorbed hm.active.2]
  refine ⟨fun ht => ⟨ht.1, ht.2.1⟩, fun ht => ⟨ht.1, ht.2, ?_⟩⟩
  rintro rfl
  have := (hw.mem_adjacency hm.active.1).1 ht.1
  rw [hw.irrefl] at this; cases this

/-- **What a merge does to the shape.** -/
theorem combine_shape (h : Listed (s.Active p) s.simplify s.freeze s.spill) :
    (s.combine p u v).stack = s.stack ∧
      (s.combine p u v).aliasOf = s.aliasOf.set v (some u) v.isLt ∧
      ∀ a b, (s.combine p u v).Linked a b ↔
        s.Linked a b ∨ a = u ∧ b ∈ s.adjacent v ∨ b = u ∧ a ∈ s.adjacent v := by
  obtain ⟨ms, -, e⟩ := enableMoves_eq (s.absorbed u v) [v]
  have hu : u ∉ (s.absorbed u v).adjacent v := fun hu =>
    hm.apart (hw.symm ((hw.mem_adjacency hm.active.1).1 (mem_adjacent.1 hu).1))
  obtain ⟨h₁, h₂, h₃⟩ := foldl_handOver (s := { s.absorbed u v with moveState := ms }) hw hu
  simp only [mem_adjacent_absorbed hw hm] at h₃
  rw [combine_eq h]
  dsimp only
  rw [e]
  split
  · exact ⟨h₁, h₂, h₃⟩
  · exact ⟨h₁, h₂, h₃⟩

/-- A merge takes `v` out of the graph, and nothing else. -/
theorem present_combine (h : Listed (s.Active p) s.simplify s.freeze s.spill) {j : Fin n} :
    (s.combine p u v).Present j ↔ s.Present j ∧ j ≠ v := by
  obtain ⟨h₁, h₂, -⟩ := combine_shape hw hm h
  exact present_merge hm h₁ h₂

end

end Codegen.Coloring.State
