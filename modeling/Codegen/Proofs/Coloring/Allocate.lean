/-
  Register allocation is sound.

  `Allocator.allocate` colors the registers of an interference graph and a graph
  of copies.  Each register is assigned or left over, never both; physical
  registers keep their place, virtual ones get registers of the palette; and
  registers that interfere never share one (`allocate_sound`).
-/
import Codegen.Proofs.Coloring.Sound

namespace Codegen

/-! ## Colors as an allocation -/

namespace Coloring

variable {n m : Nat} {p : Problem n m} {c : Colors n} {i : Fin n} {r : Register} {q : Physical}

theorem mem_assigned :
    (r, q) ∈ (allocation p c).assigned ↔ ∃ i, p.registers.get i = r ∧ c.get i = some q := by
  simp only [allocation, List.mem_filterMap, List.mem_finRange, true_and, Option.map_eq_some_iff,
    Prod.mk.injEq]
  constructor
  · rintro ⟨i, q', hq, rfl, rfl⟩; exact ⟨i, rfl, hq⟩
  · rintro ⟨i, rfl, hq⟩; exact ⟨i, q, hq, rfl, rfl⟩

section
variable (hinj : p.registers.toList.Nodup)
include hinj

/-- Each register is assigned once. -/
theorem nodup_assigned : ((allocation p c).assigned.map (·.1)).Nodup := by
  have hmap : (allocation p c).assigned.map (·.1) =
      ((List.finRange n).filter fun i => (c.get i).isSome).map p.registers.get := by
    simp only [allocation]
    induction List.finRange n with
    | nil => rfl
    | cons i l ih => cases hc : c.get i <;> simp [hc, ih]
  rw [hmap]
  exact ((List.nodup_finRange n).filter _).map fun _ _ => registers_injective hinj

theorem lookup_allocation_iff :
    (allocation p c).lookup r = some q ↔ ∃ i, p.registers.get i = r ∧ c.get i = some q := by
  rw [Allocation.lookup_eq_some_iff (nodup_assigned hinj), mem_assigned]

theorem lookup_allocation (i : Fin n) : (allocation p c).lookup (p.registers.get i) = c.get i := by
  refine Option.ext fun q => (lookup_allocation_iff hinj).trans ⟨?_, fun h => ⟨i, rfl, h⟩⟩
  rintro ⟨j, hj, hq⟩
  rwa [registers_injective hinj hj] at hq

theorem unassigned_allocation :
    (allocation p c).unassigned =
      p.registers.toList.filter fun r => ((allocation p c).lookup r).isNone := by
  have hlist : p.registers.toList = (List.finRange n).map p.registers.get := by
    refine List.ext_getElem (by simp) fun j h₁ h₂ => ?_
    simp [Vector.get]
  rw [hlist, List.filter_map]
  refine congrArg (List.map _) (List.filter_congr fun i _ => ?_)
  rw [Function.comp_apply, lookup_allocation hinj]

end

end Coloring

/-! ## The registers of two graphs -/

namespace Allocator

variable {conflicts copies : Graph} {r : Register}

theorem mem_registers :
    r ∈ registers conflicts copies ↔ r ∈ conflicts.nodes ∨ r ∈ copies.nodes := by
  simp only [registers, List.mem_append, List.mem_filter, Bool.not_eq_true',
    Bool.eq_false_iff, ne_eq, Graph.hasNode_iff]
  tauto

theorem nodup_registers (conflicts copies : Graph) : (registers conflicts copies).Nodup := by
  refine List.nodup_append.2 ⟨conflicts.nodup_nodes, copies.nodup_nodes.filter _, ?_⟩
  rintro a ha b hb rfl
  simp only [List.mem_filter, Bool.not_eq_true', Bool.eq_false_iff, ne_eq, Graph.hasNode_iff] at hb
  exact hb.2 ha

theorem mem_pairs {nodes : List Register} (hn : nodes.Nodup) {edges : List (Register × Register)}
    {i j : Fin nodes.length} : (i, j) ∈ pairs nodes edges ↔ (nodes.get i, nodes.get j) ∈ edges := by
  have hidx : ∀ {a} {k : Fin nodes.length}, nodes.finIdxOf? a = some k ↔ nodes.get k = a := by
    intro a k
    rw [List.finIdxOf?_eq_some_iff]
    refine ⟨fun h => h.1, fun h => ⟨h, fun l hl e => ?_⟩⟩
    have := (List.Nodup.getElem_inj_iff hn (i := l) (j := k)).1 (e.trans h.symm)
    omega
  simp only [pairs, List.mem_filterMap]
  constructor
  · rintro ⟨⟨a, b⟩, he, h⟩
    simp only [Option.bind_eq_bind, Option.bind_eq_some_iff, Option.pure_def, Option.some.injEq,
      Prod.mk.injEq] at h
    obtain ⟨i', hi, j', hj, rfl, rfl⟩ := h
    rw [hidx.1 hi, hidx.1 hj]; exact he
  · intro he
    refine ⟨_, he, ?_⟩
    rw [hidx.2 (rfl : nodes.get i = _), hidx.2 (rfl : nodes.get j = _)]
    rfl

theorem mem_edges {i j : Fin (registers conflicts copies).length} :
    (i, j) ∈ edges conflicts copies ↔
      conflicts.linked ((registers conflicts copies).get i) ((registers conflicts copies).get j) = true := by
  simp only [edges, mem_pairs (nodup_registers conflicts copies), List.mem_flatMap, List.mem_map,
    Prod.mk.injEq, Graph.mem_neighbors]
  constructor
  · rintro ⟨x, -, y, hxy, rfl, rfl⟩; exact hxy
  · intro h; exact ⟨_, (Graph.mem_nodes_of_linked h).1, _, h, rfl, rfl⟩

variable (a : Allocator) (conflicts copies : Graph)

theorem get_registers_problem (i : Fin (registers conflicts copies).length) :
    (a.problem conflicts copies).registers.get i = (registers conflicts copies).get i := rfl

theorem toList_registers_problem :
    (a.problem conflicts copies).registers.toList = registers conflicts copies := by
  simp [problem]

theorem nodup_registers_problem : (a.problem conflicts copies).registers.toList.Nodup := by
  rw [toList_registers_problem]; exact nodup_registers conflicts copies

theorem exists_register_problem {r : Register} (h : r ∈ conflicts.nodes ∨ r ∈ copies.nodes) :
    ∃ i, (a.problem conflicts copies).registers.get i = r :=
  List.get_of_mem (mem_registers.2 h)

theorem linked_start_iff {i j : Fin (registers conflicts copies).length} :
    (Coloring.State.start (a.problem conflicts copies) (edges conflicts copies)).Linked i j ↔
      conflicts.linked ((a.problem conflicts copies).registers.get i)
        ((a.problem conflicts copies).registers.get j) = true := by
  rw [Coloring.State.linked_start, mem_edges, mem_edges, get_registers_problem,
    get_registers_problem]
  constructor
  · rintro ⟨-, h | h⟩
    · exact h
    · exact Graph.linked_symm h
  · intro h
    refine ⟨?_, Or.inl h⟩
    rintro rfl; simp at h

/-! ## Soundness -/

theorem unassigned_allocate : (a.allocate conflicts copies).unassigned =
    (registers conflicts copies).filter fun x => ((a.allocate conflicts copies).lookup x).isNone := by
  rw [allocate, Coloring.unassigned_allocation (nodup_registers_problem a conflicts copies),
    toList_registers_problem]

/-- The registers of the graphs are assigned or left over. -/
theorem mem_nodes_allocate {x : Register} : (x ∈ conflicts.nodes ∨ x ∈ copies.nodes) ↔
    (∃ q, (a.allocate conflicts copies).lookup x = some q) ∨ x ∈ (a.allocate conflicts copies).unassigned := by
  rw [unassigned_allocate, List.mem_filter, mem_registers, Option.isNone_iff_eq_none]
  constructor
  · intro hx
    cases hq : (a.allocate conflicts copies).lookup x with
    | none => exact Or.inr ⟨hx, rfl⟩
    | some q => exact Or.inl ⟨q, rfl⟩
  · rintro (⟨q, hq⟩ | ⟨hx, -⟩)
    · obtain ⟨i, rfl, -⟩ :=
        (Coloring.lookup_allocation_iff (nodup_registers_problem a conflicts copies)).1 hq
      exact mem_registers.1 (List.get_mem _ i)
    · exact hx

/-- Physical registers of the graphs keep their place. -/
theorem lookup_physical_allocate {q : Physical}
    (hq : .physical q ∈ conflicts.nodes ∨ .physical q ∈ copies.nodes) :
    (a.allocate conflicts copies).lookup (.physical q) = some q := by
  obtain ⟨hinv, -⟩ := Coloring.State.guarded_run (a.problem conflicts copies)
    (edges conflicts copies) (Coloring.stepLimit _ _)
  obtain ⟨i, hi⟩ := exists_register_problem a conflicts copies hq
  have hpre : (a.problem conflicts copies).precolored i = true := by
    rw [Coloring.Problem.precolored, hi]; rfl
  rw [allocate, ← hi, Coloring.lookup_allocation (nodup_registers_problem a conflicts copies)]
  exact (Coloring.get_assignColors_of_precolored hinv hpre).trans (by rw [hi]; rfl)

/-- Virtual registers live in registers of the palette. -/
theorem mem_palette_of_lookup_allocate {id : Nat} {q : Physical}
    (hq : (a.allocate conflicts copies).lookup (.virtual id) = some q) : q ∈ a.palette := by
  obtain ⟨hinv, -⟩ := Coloring.State.guarded_run (a.problem conflicts copies)
    (edges conflicts copies) (Coloring.stepLimit _ _)
  obtain ⟨i, hi, hc⟩ :=
    (Coloring.lookup_allocation_iff (nodup_registers_problem a conflicts copies)).1 hq
  have hpre : (a.problem conflicts copies).precolored i = false := by
    rw [Coloring.Problem.precolored, hi]; rfl
  exact Coloring.mem_palette_of_assignColors hinv hpre hc

/-- Registers that interfere do not share a place. -/
theorem lookup_allocate_ne_of_linked {x y : Register} {q : Physical} (hxy : conflicts.linked x y = true)
    (hx : (a.allocate conflicts copies).lookup x = some q) :
    (a.allocate conflicts copies).lookup y ≠ some q := by
  intro hy
  have hinj := nodup_registers_problem a conflicts copies
  obtain ⟨hinv, hguard⟩ := Coloring.State.guarded_run (a.problem conflicts copies)
    (edges conflicts copies) (Coloring.stepLimit _ _)
  obtain ⟨i, rfl, hi⟩ := (Coloring.lookup_allocation_iff hinj).1 hx
  obtain ⟨j, rfl, hj⟩ := (Coloring.lookup_allocation_iff hinj).1 hy
  exact Coloring.assignColors_ne hinj
    (Coloring.State.inv_start (a.problem conflicts copies) _).linked_symm hinv hguard
    ((linked_start_iff a conflicts copies).2 hxy) hi hj

/-- What a sound allocation for an interference graph and a graph of copies is. -/
structure Sound (palette : List Physical) (conflicts copies : Graph) (r : Allocation) : Prop where
  /-- Each register is assigned at most once. -/
  nodup : (r.assigned.map (·.1)).Nodup
  /-- The registers of the graphs are assigned or left over. -/
  mem_nodes : ∀ x, (x ∈ conflicts.nodes ∨ x ∈ copies.nodes) ↔
    (∃ q, r.lookup x = some q) ∨ x ∈ r.unassigned
  /-- No register is left over twice. -/
  nodup_unassigned : r.unassigned.Nodup
  /-- Those left over are the ones that are not assigned, in the order of the
      graphs. -/
  unassigned : r.unassigned = (registers conflicts copies).filter fun x => (r.lookup x).isNone
  /-- Physical registers of the graphs keep their place. -/
  physical : ∀ {q}, .physical q ∈ conflicts.nodes ∨ .physical q ∈ copies.nodes →
    r.lookup (.physical q) = some q
  /-- Virtual registers live in registers of the palette. -/
  virtual : ∀ {id q}, r.lookup (.virtual id) = some q → q ∈ palette
  /-- Registers that interfere do not share one. -/
  apart : ∀ {x y q}, conflicts.linked x y = true → r.lookup x = some q → r.lookup y ≠ some q

/-- **Allocation is sound, whatever the graphs, the palette and the costs.** -/
theorem allocate_sound : Sound a.palette conflicts copies (a.allocate conflicts copies) where
  nodup := Coloring.nodup_assigned (nodup_registers_problem a conflicts copies)
  mem_nodes _ := mem_nodes_allocate a conflicts copies
  nodup_unassigned := by
    rw [unassigned_allocate]
    exact (nodup_registers conflicts copies).filter _
  unassigned := unassigned_allocate a conflicts copies
  physical := lookup_physical_allocate a conflicts copies
  virtual := mem_palette_of_lookup_allocate a conflicts copies
  apart := lookup_allocate_ne_of_linked a conflicts copies

end Allocator

end Codegen
