/-
  Moving nodes between worklists.

  A node that is put on a worklist leaves the others, and whatever was owed
  about its old place is settled: `Inv.toSimplify`, `Inv.toFreeze` and
  `Inv.toSpill` say what has to hold of the node.
-/
import Codegen.Proofs.Coloring.Invariant

namespace Codegen.Coloring.State

variable {n m : Nat} {p : Problem n m} {s : State n m} {x : Debt n} {i t : Fin n}

namespace Listed

variable {active : Fin n → Prop} {simplify freeze spill : List (Fin n)}

theorem toSimplify (h : Listed active simplify freeze spill) (ht : active t) :
    Listed active (push t simplify) (freeze.erase t) (spill.erase t) where
  active_iff {i} := by
    rw [h.active_iff, mem_push, h.nodup_freeze.mem_erase_iff, h.nodup_spill.mem_erase_iff]
    by_cases hi : i = t
    · subst hi; simpa using h.active_iff.1 ht
    · simp [hi]
  nodup_simplify := nodup_push h.nodup_simplify
  nodup_freeze := h.nodup_freeze.erase t
  nodup_spill := h.nodup_spill.erase t
  simplify_freeze {i} hi hf := by
    rw [h.nodup_freeze.mem_erase_iff] at hf
    exact h.simplify_freeze ((mem_push.1 hi).resolve_left hf.1) hf.2
  simplify_spill {i} hi hs := by
    rw [h.nodup_spill.mem_erase_iff] at hs
    exact h.simplify_spill ((mem_push.1 hi).resolve_left hs.1) hs.2
  freeze_spill hi hs := h.freeze_spill (List.mem_of_mem_erase hi) (List.mem_of_mem_erase hs)

theorem toFreeze (h : Listed active simplify freeze spill) (ht : active t) (hts : t ∉ simplify) :
    Listed active simplify (push t freeze) (spill.erase t) where
  active_iff {i} := by
    rw [h.active_iff, mem_push, h.nodup_spill.mem_erase_iff]
    by_cases hi : i = t
    · subst hi; simpa using h.active_iff.1 ht
    · simp [hi]
  nodup_simplify := h.nodup_simplify
  nodup_freeze := nodup_push h.nodup_freeze
  nodup_spill := h.nodup_spill.erase t
  simplify_freeze {i} hi hf := by
    rcases mem_push.1 hf with rfl | hf
    · exact hts hi
    · exact h.simplify_freeze hi hf
  simplify_spill hi hs := h.simplify_spill hi (List.mem_of_mem_erase hs)
  freeze_spill {i} hi hs := by
    rw [h.nodup_spill.mem_erase_iff] at hs
    exact h.freeze_spill ((mem_push.1 hi).resolve_left hs.1) hs.2

theorem toSpill (h : Listed active simplify freeze spill) (ht : active t) (hts : t ∉ simplify) :
    Listed active simplify (freeze.erase t) (push t spill) where
  active_iff {i} := by
    rw [h.active_iff, mem_push, h.nodup_freeze.mem_erase_iff]
    by_cases hi : i = t
    · subst hi; simpa using h.active_iff.1 ht
    · simp [hi]
  nodup_simplify := h.nodup_simplify
  nodup_freeze := h.nodup_freeze.erase t
  nodup_spill := nodup_push h.nodup_spill
  simplify_freeze hi hf := h.simplify_freeze hi (List.mem_of_mem_erase hf)
  simplify_spill {i} hi hs := by
    rcases mem_push.1 hs with rfl | hs
    · exact hts hi
    · exact h.simplify_spill hi hs
  freeze_spill {i} hi hs := by
    rw [h.nodup_freeze.mem_erase_iff] at hi
    exact h.freeze_spill hi.2 ((mem_push.1 hs).resolve_left hi.1)

/-- A node that leaves the graph leaves the worklists. -/
theorem leave (h : Listed active simplify freeze spill) (t : Fin n) :
    Listed (fun i => active i ∧ i ≠ t) (simplify.erase t) (freeze.erase t) (spill.erase t) where
  active_iff {i} := by
    rw [h.active_iff, h.nodup_simplify.mem_erase_iff, h.nodup_freeze.mem_erase_iff,
      h.nodup_spill.mem_erase_iff]
    by_cases hi : i = t <;> simp [hi]
  nodup_simplify := h.nodup_simplify.erase t
  nodup_freeze := h.nodup_freeze.erase t
  nodup_spill := h.nodup_spill.erase t
  simplify_freeze hi hf := h.simplify_freeze (List.mem_of_mem_erase hi) (List.mem_of_mem_erase hf)
  simplify_spill hi hs := h.simplify_spill (List.mem_of_mem_erase hi) (List.mem_of_mem_erase hs)
  freeze_spill hi hs := h.freeze_spill (List.mem_of_mem_erase hi) (List.mem_of_mem_erase hs)

end Listed

namespace Inv

/-- A node is treated as simple. -/
theorem toSimplify (h : s.Inv p (((x.heat t).loosen t).cool t)) (ht : s.Active p t) :
    Inv p (x.keep t) { s with simplify := push t s.simplify, freeze := s.freeze.erase t,
                              spill := s.spill.erase t } where
  linked := h.linked
  merging := h.merging
  listed := h.listed.toSimplify ht
  stack_nodup := h.stack_nodup
  stacked := h.stacked
  stack_closed := h.stack_closed
  degree := h.degree
  simplify_closed {i} hi hx := by
    have hit : i ≠ t := fun e => hx (by simp [Debt.keep, e])
    exact h.simplify_closed ((mem_push.1 hi).resolve_left hit) (List.not_mem_of_not_mem_cons hx)
  freeze_low {i} hi hx := by
    rw [h.listed.nodup_freeze.mem_erase_iff] at hi
    exact h.freeze_low hi.2 (List.not_mem_cons_of_ne_of_not_mem hi.1 hx)
  freeze_open {i} hi hx := by
    rw [h.listed.nodup_freeze.mem_erase_iff] at hi
    exact h.freeze_open hi.2 (List.not_mem_cons_of_ne_of_not_mem hi.1 hx)
  spill_high {i} hi hx := by
    rw [h.listed.nodup_spill.mem_erase_iff] at hi
    exact h.spill_high hi.2 (List.not_mem_cons_of_ne_of_not_mem hi.1 hx)

/-- A node without moves is simple. -/
theorem settleKept (h : s.Inv p (x.keep t)) (hclosed : s.moveRelated t = false) : s.Inv p x where
  __ := h
  simplify_closed {i} hi hx := by
    by_cases hit : i = t
    · subst hit; exact hclosed
    · exact h.simplify_closed hi (List.not_mem_cons_of_ne_of_not_mem hit hx)

/-- A node with moves, or one that is not to be frozen, is not loose. -/
theorem settleLoosened (h : s.Inv p (x.loosen t)) (hopen : t ∈ s.freeze → s.moveRelated t = true) :
    s.Inv p x where
  __ := h
  freeze_open {i} hi hx := by
    by_cases hit : i = t
    · subst hit; exact hopen hi
    · exact h.freeze_open hi (List.not_mem_cons_of_ne_of_not_mem hit hx)

/-- A node of low degree, or one that is not to be frozen, is not hot. -/
theorem settleHeated (h : s.Inv p (x.heat t))
    (hlow : t ∈ s.freeze → s.degree.get t < p.colors) : s.Inv p x where
  __ := h
  freeze_low {i} hi hx := by
    by_cases hit : i = t
    · subst hit; exact hlow hi
    · exact h.freeze_low hi (List.not_mem_cons_of_ne_of_not_mem hit hx)

/-- Nothing is owed about the degree of a node that is not active. -/
theorem settleLagging (h : s.Inv p (x.lag t)) (ht : ¬ s.Active p t) : s.Inv p x where
  __ := h
  degree {i} hi := by
    have hit : i ≠ t := fun e => ht (e ▸ hi)
    simpa [Debt.lag, hit] using h.degree hi

/-- A node of low degree with moves is to be frozen. -/
theorem toFreeze (h : s.Inv p (((x.heat t).loosen t).cool t)) (ht : s.Active p t)
    (hts : t ∉ s.simplify) (hlow : s.degree.get t < p.colors) (hopen : s.moveRelated t = true) :
    Inv p x { s with freeze := push t s.freeze, spill := s.spill.erase t } where
  linked := h.linked
  merging := h.merging
  listed := h.listed.toFreeze ht hts
  stack_nodup := h.stack_nodup
  stacked := h.stacked
  stack_closed := h.stack_closed
  degree := h.degree
  simplify_closed := h.simplify_closed
  freeze_low {i} hi hx := by
    by_cases hit : i = t
    · subst hit; exact hlow
    · exact h.freeze_low ((mem_push.1 hi).resolve_left hit)
        (List.not_mem_cons_of_ne_of_not_mem hit hx)
  freeze_open {i} hi hx := by
    by_cases hit : i = t
    · subst hit; exact hopen
    · exact h.freeze_open ((mem_push.1 hi).resolve_left hit)
        (List.not_mem_cons_of_ne_of_not_mem hit hx)
  spill_high {i} hi hx := by
    rw [h.listed.nodup_spill.mem_erase_iff] at hi
    exact h.spill_high hi.2 (List.not_mem_cons_of_ne_of_not_mem hi.1 hx)

/-- A node of high degree is to be spilled. -/
theorem toSpill (h : s.Inv p (((x.heat t).loosen t).cool t)) (ht : s.Active p t)
    (hts : t ∉ s.simplify) (hhigh : p.colors ≤ s.degree.get t) :
    Inv p x { s with freeze := s.freeze.erase t, spill := push t s.spill } where
  linked := h.linked
  merging := h.merging
  listed := h.listed.toSpill ht hts
  stack_nodup := h.stack_nodup
  stacked := h.stacked
  stack_closed := h.stack_closed
  degree := h.degree
  simplify_closed := h.simplify_closed
  freeze_low {i} hi hx := by
    rw [h.listed.nodup_freeze.mem_erase_iff] at hi
    exact h.freeze_low hi.2 (List.not_mem_cons_of_ne_of_not_mem hi.1 hx)
  freeze_open {i} hi hx := by
    rw [h.listed.nodup_freeze.mem_erase_iff] at hi
    exact h.freeze_open hi.2 (List.not_mem_cons_of_ne_of_not_mem hi.1 hx)
  spill_high {i} hi hx := by
    by_cases hit : i = t
    · subst hit; exact hhigh
    · exact h.spill_high ((mem_push.1 hi).resolve_left hit)
        (List.not_mem_cons_of_ne_of_not_mem hit hx)

end Inv

end Codegen.Coloring.State
