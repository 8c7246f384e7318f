/-
  Simple nodes have few neighbors.

  A node is put on the simplify worklist when its degree is low, unless it was
  chosen to be spilled.  Degrees of simple nodes never grow, so in a thin state,
  where nothing is spilled, all simple nodes have a low degree (`Low.step`).
-/
import Codegen.Proofs.Coloring.Thin

namespace Codegen.Coloring.State

variable {n m : Nat} {p : Problem n m} {s s' : State n m} {i t u v : Fin n} {k : Fin m}

/-- All simple nodes have a low degree. -/
def Low (p : Problem n m) (s : State n m) : Prop := ∀ i ∈ s.simplify, s.degree.get i < p.colors

/-- A node of low degree may be simplified. -/
theorem Low.push (h : s.Low p) (ht : s.degree.get t < p.colors) :
    Low p { s with simplify := Coloring.push t s.simplify } := by
  intro i hi
  rcases mem_push.1 hi with rfl | hi
  · exact ht
  · exact h i hi

/-! ## Degrees -/

theorem degree_decrementDegree_ne (hi : i ≠ t) :
    (s.decrementDegree p t).degree.get i = s.degree.get i := by
  by_cases ht : p.precolored t = true
  · rw [decrementDegree_of_precolored ht]
  · rw [Bool.not_eq_true] at ht
    by_cases hd : s.degree.get t = p.colors
    · obtain ⟨ms, -, e⟩ := decrementDegree_of_eq (s := s) ht hd
      rw [e]
      dsimp only
      split <;> exact lowered_ne s hi
    · rw [decrementDegree_of_ne ht hd]; exact lowered_ne s hi

theorem mem_simplify_decrementDegree (hi : i ∈ (s.decrementDegree p t).simplify) :
    i = t ∧ p.precolored t = false ∨ i ∈ s.simplify := by
  by_cases ht : p.precolored t = true
  · rw [decrementDegree_of_precolored ht] at hi; exact Or.inr hi
  · rw [Bool.not_eq_true] at ht
    by_cases hd : s.degree.get t = p.colors
    · obtain ⟨ms, -, e⟩ := decrementDegree_of_eq (s := s) ht hd
      rw [e] at hi
      dsimp only at hi
      split at hi
      · exact Or.inr hi
      · exact (mem_push.1 hi).imp_left fun e => ⟨e, ht⟩
    · rw [decrementDegree_of_ne ht hd] at hi; exact Or.inr hi

/-- A node whose degree drops is simple only if the degree is low now. -/
theorem low_decrementDegree (ht : p.precolored t = false) (hpos : 0 < s.degree.get t)
    (h : ∀ i ∈ s.simplify, i ≠ t → s.degree.get i < p.colors)
    (hle : t ∈ s.simplify → s.degree.get t ≤ p.colors) : (s.decrementDegree p t).Low p := by
  intro i hi
  by_cases hit : i = t
  · subst hit
    by_cases hd : s.degree.get i = p.colors
    · obtain ⟨ms, -, e⟩ := decrementDegree_of_eq (s := s) ht hd
      have hdeg : (s.decrementDegree p i).degree = s.lowered i := by
        rw [e]; dsimp only; split <;> rfl
      rw [hdeg, lowered_self]; omega
    · rw [decrementDegree_of_ne ht hd] at hi ⊢
      have := hle hi
      change (s.lowered i).get i < p.colors
      rw [lowered_self]; omega
  · rw [degree_decrementDegree_ne hit]
    exact h i ((mem_simplify_decrementDegree hi).resolve_left fun e => hit e.1) hit

theorem Low.decrementDegree (h : s.Low p) (hpos : p.precolored t = false → 0 < s.degree.get t) :
    (s.decrementDegree p t).Low p := by
  by_cases ht : p.precolored t = true
  · rw [decrementDegree_of_precolored ht]; exact h
  · rw [Bool.not_eq_true] at ht
    exact low_decrementDegree ht (hpos ht) (fun i hi _ => h i hi) fun hi => (h t hi).le

theorem Low.foldl_decrementDegree {l : List (Fin n)} (h : s.Low p) (hl : l.Nodup)
    (hpos : ∀ t ∈ l, p.precolored t = false → 0 < s.degree.get t) :
    (l.foldl (State.decrementDegree p) s).Low p := by
  induction l generalizing s with
  | nil => exact h
  | cons t l ih =>
    obtain ⟨htl, hl⟩ := List.nodup_cons.1 hl
    refine ih (h.decrementDegree (hpos t (by simp))) hl fun j hj hpre => ?_
    have hjt : j ≠ t := fun e => htl (e ▸ hj)
    rw [degree_decrementDegree_ne hjt]
    exact hpos j (by simp [hj]) hpre

/-- The degree of a node with a neighbor in the graph. -/
theorem Inv.degree_pos (h : s.Inv p {}) (hv : s.Active p v) (ht : t ∈ s.adjacent v)
    (hpre : p.precolored t = false) : 0 < s.degree.get t := by
  obtain ⟨hlink, hpres⟩ := (h.mem_adjacent hv.1).1 ht
  have hmem : v ∈ s.adjacent t := (h.mem_adjacent hpre).2 ⟨h.linked_symm hlink, hv.2⟩
  rw [h.degree ⟨hpre, hpres⟩]
  have := List.length_pos_of_mem hmem
  omega

theorem Low.simplifyNode (h : s.Inv p {}) (hl : s.Low p) (hi : i ∈ s.simplify) :
    (s.simplifyNode p i).Low p := by
  have hact := h.listed.active_iff.2 (Or.inl hi)
  refine Low.foldl_decrementDegree (s := { s with simplify := s.simplify.erase i, stack := i :: s.stack })
    (fun j hj => hl j (List.mem_of_mem_erase hj)) ((h.linked.nodup hact.1).filter _) fun t ht hpre => ?_
  obtain ⟨hadj, hpres⟩ := mem_adjacent.1 ht
  exact h.degree_pos hact (mem_adjacent.2 ⟨hadj, fun hs => hpres.1 (List.mem_cons_of_mem _ hs), hpres.2⟩)
    hpre

/-! ## Moves -/

theorem Low.addWorklist (h : s.Low p) (u : Fin n) : (s.addWorklist p u).Low p := by
  unfold State.addWorklist
  split
  · exact h
  · next hc =>
    simp only [Bool.or_eq_true, decide_eq_true_eq, not_or, not_le] at hc
    exact h.push hc.2

theorem degree_addEdge_ne (hi : i ≠ u) (hi' : i ≠ v) :
    (s.addEdge p u v).degree.get i = s.degree.get i := by
  by_cases huv : u = v
  · have e : s.addEdge p u v = s := by simp [State.addEdge, huv]
    rw [e]
  · by_cases hl : s.Linked u v
    · rw [addEdge_of_linked hl]
    · rw [degree_addEdge huv hl, if_neg (by simp [hi, hi'])]; rfl

theorem le_degree_addEdge : s.degree.get i ≤ (s.addEdge p u v).degree.get i := by
  by_cases huv : u = v
  · have e : s.addEdge p u v = s := by simp [State.addEdge, huv]
    rw [e]
  · by_cases hl : s.Linked u v
    · rw [addEdge_of_linked hl]
    · rw [degree_addEdge huv hl]; omega

/-- Handing over a neighbor exchanges one neighbor of it for another one. -/
theorem Low.handOver (h : s.Low p) (hu : u ∉ s.simplify) (htu : t ≠ u)
    (hpos : p.precolored t = false → 0 < s.degree.get t) (hact : ∀ i ∈ s.simplify, p.precolored i = false) :
    (State.handOver p u s t).Low p := by
  have hsimp : (s.addEdge p t u).simplify = s.simplify := by rw [addEdge_eq]
  have hne : ∀ i ∈ s.simplify, i ≠ t → (s.addEdge p t u).degree.get i < p.colors := by
    intro i hi hit
    have hiu : i ≠ u := fun e => hu (e ▸ hi)
    rw [degree_addEdge_ne hit hiu]; exact h i hi
  unfold State.handOver
  by_cases ht : p.precolored t = true
  · rw [decrementDegree_of_precolored ht]
    intro i hi
    rw [hsimp] at hi
    refine hne i hi ?_
    rintro rfl; rw [hact i hi] at ht; cases ht
  · rw [Bool.not_eq_true] at ht
    refine low_decrementDegree ht ?_ (by rw [hsimp]; exact hne) fun hi => ?_
    · exact (hpos ht).trans_le le_degree_addEdge
    · rw [hsimp] at hi
      have := h t hi
      have := degree_addEdge_le (p := p) (s := s) (u := t) (v := u) t
      omega

theorem mem_simplify_handOver (hi : i ∈ (State.handOver p u s t).simplify) :
    i = t ∧ p.precolored t = false ∨ i ∈ s.simplify := by
  refine (mem_simplify_decrementDegree hi).imp_right fun h => ?_
  rwa [addEdge_eq] at h

theorem degree_handOver_ne (hi : i ≠ t) (hu : i ≠ u) :
    (State.handOver p u s t).degree.get i = s.degree.get i := by
  rw [State.handOver, degree_decrementDegree_ne hi, degree_addEdge_ne hi hu]

theorem Low.foldl_handOver {l : List (Fin n)} (h : s.Low p) (hu : u ∉ s.simplify) (hul : u ∉ l)
    (hl : l.Nodup) (hpos : ∀ t ∈ l, p.precolored t = false → 0 < s.degree.get t)
    (hact : ∀ i ∈ s.simplify, p.precolored i = false) :
    (l.foldl (State.handOver p u) s).Low p := by
  induction l generalizing s with
  | nil => exact h
  | cons t l ih =>
    obtain ⟨htl, hl⟩ := List.nodup_cons.1 hl
    simp only [List.mem_cons, not_or] at hul
    have htu : t ≠ u := Ne.symm hul.1
    refine ih (h.handOver hu htu (hpos t (by simp)) hact) ?_ hul.2 hl (fun j hj hpre => ?_)
      fun j hj => ?_
    · intro hmem
      rcases mem_simplify_handOver hmem with ⟨e, -⟩ | hmem
      · exact hul.1 e
      · exact hu hmem
    · have hjt : j ≠ t := fun e => htl (e ▸ hj)
      have hju : j ≠ u := fun e => hul.2 (e ▸ hj)
      rw [degree_handOver_ne hjt hju]
      exact hpos j (by simp [hj]) hpre
    · rcases mem_simplify_handOver hj with ⟨rfl, hpre⟩ | hmem
      · exact hpre
      · exact hact j hmem

theorem low_combine (h : s.Inv p {}) (hs : s.simplify = []) (hm : Mergeable p s u v) :
    ((s.setMove k .coalesced).combine p u v).Low p := by
  obtain ⟨ms, -, e⟩ := enableMoves_eq ((s.setMove k .coalesced).absorbed u v) [v]
  have hfold : (((s.setMove k .coalesced).absorbed u v).adjacent v).foldl (State.handOver p u)
      { (s.setMove k .coalesced).absorbed u v with moveState := ms } |>.Low p := by
    have hnil : ∀ i, i ∉ ((s.setMove k .coalesced).absorbed u v).simplify := fun i hi => by
      rw [absorbed, setMove, hs] at hi; cases hi
    have hmem : ∀ {t}, t ∈ ((s.setMove k .coalesced).absorbed u v).adjacent v → t ∈ s.adjacent v :=
      (mem_adjacent_absorbed (s := s.setMove k .coalesced) h.linked
        ⟨hm.present, hm.active, hm.ne, hm.apart, hm.own⟩).1
    refine Low.foldl_handOver ?_ ?_ (fun hu => ?_) ((h.linked.nodup hm.active.1).filter _)
      (fun t ht => h.degree_pos hm.active (hmem ht)) ?_
    · exact fun i hi => absurd hi (hnil i)
    · exact hnil u
    · exact hm.apart (h.linked_symm ((h.mem_adjacent hm.active.1).1 (hmem hu)).1)
    · exact fun i hi => absurd hi (hnil i)
  rw [combine_eq (s := s.setMove k .coalesced) h.listed]
  dsimp only
  rw [e]
  split
  · exact hfold
  · exact hfold

theorem Low.tryMove (h : s.Inv p {}) (hs : s.simplify = [])
    (hk : (s.moveState.get k).isOpen = true) : (s.tryMove p k).Low p := by
  have hset : ∀ o, (s.setMove k o).Low p := fun o i hi => by
    rw [setMove, hs] at hi; cases hi
  rcases tryMove_cases h hk with ⟨-, e⟩ | e | ⟨hm, -, e⟩ | e <;> rw [e]
  · exact (hset _).addWorklist _
  · exact ((hset _).addWorklist _).addWorklist _
  · exact (low_combine h hs hm).addWorklist _
  · exact hset _

theorem Low.freezeMove (h : s.Low p) (u : Fin n) (k : Fin m) : (State.freezeMove p u s k).Low p := by
  unfold State.freezeMove
  dsimp only
  generalize (if s.representative (p.moves.get k).1 = s.representative u then
    s.representative (p.moves.get k).2 else s.representative (p.moves.get k).1) = v
  split
  · next hc =>
    simp only [Bool.and_eq_true, decide_eq_true_eq] at hc
    exact Low.push (s := s.setMove k .frozen) h hc.1.2
  · exact h

theorem Low.freezeMoves (h : s.Low p) (u : Fin n) : (s.freezeMoves p u).Low p := by
  rw [freezeMoves_eq]
  induction s.openMoves u generalizing s with
  | nil => exact h
  | cons k l ih => exact ih (h.freezeMove u k)

/-- **In a thin state, every step keeps the degrees of simple nodes low.** -/
theorem Low.step (h : s.Inv p {}) (ht : s.Thin p) (hl : s.Low p) (hs : s.step p = some s') :
    s'.Low p := by
  rcases step_cases hs with ⟨i, hi, rfl⟩ | ⟨he, k, hk, rfl⟩ | ⟨he, -, u, hu, rfl⟩ | ⟨he, hf, u, hu, rfl⟩
  · exact hl.simplifyNode h hi
  · exact Low.tryMove h he (by rw [hk]; rfl)
  · have hdeg := h.freeze_low hu (by simp)
    exact Low.freezeMoves (s := { s with freeze := s.freeze.erase u, simplify := Coloring.push u s.simplify })
      (hl.push hdeg) u
  · rw [ht.spill_eq_nil h he hf] at hu; cases hu

end Codegen.Coloring.State
