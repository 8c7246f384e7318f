/-
  Nodes that leave the graph.

  A node leaves the graph when it is put on the select stack (`Inv.simplifyNode`)
  or merged into another node (`Inv.combine`).  The degrees of its neighbors
  then lag behind, until each of them was lowered in turn.
-/
import Codegen.Proofs.Coloring.Degrees

namespace Codegen.Coloring.State

variable {n m : Nat} {p : Problem n m} {s s' : State n m} {x : Debt n} {i t u v : Fin n}

theorem Listed.congr {active active' : Fin n → Prop} {simplify freeze spill : List (Fin n)}
    (h : Listed active simplify freeze spill) (hiff : ∀ i, active' i ↔ active i) :
    Listed active' simplify freeze spill :=
  { h with active_iff := fun {i} => (hiff i).trans h.active_iff }

/-- The neighbors of a node, once `v` has left the graph. -/
theorem length_adjacent_leave (hw : WellLinked p s.adjacency s.linked)
    (hadj : s'.adjacency = s.adjacency) (hpres : ∀ j, s'.Present j ↔ s.Present j ∧ j ≠ v)
    (hv : s.Active p v) (hi : s'.Active p i) :
    (s.adjacent i).length = (s'.adjacent i).length + if i ∈ s'.adjacent v then 1 else 0 := by
  have hnodup : (s.adjacent i).Nodup := (hw.nodup hi.1).filter _
  have hset : s'.adjacent i = (s.adjacent i).erase v := by
    rw [hnodup.erase_eq_filter]
    unfold adjacent
    rw [hadj, List.filter_filter]
    refine List.filter_congr fun j _ => ?_
    have := hpres j
    simp only [Present] at this
    rw [Bool.eq_iff_iff]
    simp only [Bool.and_eq_true, Bool.not_eq_true', List.contains_eq_mem, decide_eq_false_iff_not,
      bne_iff_ne, ne_eq]
    tauto
  have hmem : i ∈ s'.adjacent v ↔ v ∈ s.adjacent i := by
    rw [mem_adjacent, mem_adjacent, hadj, hw.mem_adjacency hv.1, hw.mem_adjacency hi.1]
    exact ⟨fun h => ⟨hw.symm h.1, hv.2⟩, fun h => ⟨hw.symm h.1, hi.2⟩⟩
  rw [hset, List.length_erase]
  by_cases h : v ∈ s.adjacent i
  · have := List.length_pos_of_mem h
    rw [if_pos h, if_pos (hmem.2 h)]
    omega
  · rw [if_neg h, if_neg (mt hmem.1 h), Nat.add_zero]

/-! ## Simplification -/

/-- What a dropped degree leaves alone. -/
theorem decrementDegree_eq (p : Problem n m) (s : State n m) (t : Fin n) :
    s.decrementDegree p t =
      { s with degree := (s.decrementDegree p t).degree,
               moveState := (s.decrementDegree p t).moveState,
               simplify := (s.decrementDegree p t).simplify,
               freeze := (s.decrementDegree p t).freeze,
               spill := (s.decrementDegree p t).spill } := by
  by_cases ht : p.precolored t = true
  · rw [decrementDegree_of_precolored ht]
  · by_cases hd : s.degree.get t = p.colors
    · obtain ⟨ms, -, e⟩ := decrementDegree_of_eq (s := s) (Bool.eq_false_iff.2 ht) hd
      rw [e]
      dsimp only
      split <;> rfl
    · rw [decrementDegree_of_ne (Bool.eq_false_iff.2 ht) hd]

theorem present_decrementDegree {j : Fin n} :
    (s.decrementDegree p t).Present j ↔ s.Present j := by
  rw [decrementDegree_eq]; rfl

/-- The degrees of all neighbors are lowered in turn. -/
theorem Inv.foldl_decrementDegree {l : List (Fin n)} (h : s.Inv p { lagging := l }) (hl : l.Nodup)
    (hpres : ∀ t ∈ l, s.Present t) : (l.foldl (State.decrementDegree p) s).Inv p {} := by
  induction l generalizing s with
  | nil => exact h
  | cons t l ih =>
    obtain ⟨htl, hl⟩ := List.nodup_cons.1 hl
    have ht := hpres t (by simp)
    refine ih ?_ hl fun j hj => present_decrementDegree.2 (hpres j (by simp [hj]))
    by_cases hpre : p.precolored t = true
    · rw [decrementDegree_of_precolored hpre]
      exact Inv.settleLagging (x := { lagging := l }) h fun ha => by rw [ha.1] at hpre; cases hpre
    · refine Inv.decrementDegree (x := { lagging := l }) (h.heat t) ⟨Bool.eq_false_iff.2 hpre, ht⟩
        htl (fun hf => ?_) (by simp) (by simp)
      exact (h.freeze_low hf (by simp)).le

/-- **Putting a simple node on the select stack keeps the invariant.** -/
theorem Inv.simplifyNode (h : s.Inv p {}) (hi : i ∈ s.simplify) : (s.simplifyNode p i).Inv p {} := by
  have hact : s.Active p i := h.listed.active_iff.2 (Or.inl hi)
  let s₁ : State n m := { s with simplify := s.simplify.erase i, stack := i :: s.stack }
  have hpres : ∀ j, s₁.Present j ↔ s.Present j ∧ j ≠ i := by
    intro j
    simp only [Present, s₁, List.mem_cons, not_or]
    exact ⟨fun h => ⟨⟨h.1.2, h.2⟩, h.1.1⟩, fun h => ⟨⟨h.2, h.1.1⟩, h.1.2⟩⟩
  have hs₁ : s₁.Inv p { lagging := s₁.adjacent i } :=
    { linked := h.linked
      merging := h.merging
      listed := by
        have := h.listed.leave i
        rw [List.erase_of_not_mem (h.listed.simplify_freeze hi),
          List.erase_of_not_mem (h.listed.simplify_spill hi)] at this
        refine this.congr fun j => ?_
        rw [Active, hpres, ← and_assoc]; rfl
      stack_nodup := List.nodup_cons.2 ⟨hact.2.1, h.stack_nodup⟩
      stacked := by
        intro j hj
        rcases List.mem_cons.1 hj with rfl | hj
        · exact ⟨hact.1, hact.2.2⟩
        · exact h.stacked hj
      stack_closed := by
        intro j hj
        rcases List.mem_cons.1 hj with rfl | hj
        · exact h.simplify_closed hi (by simp)
        · exact h.stack_closed hj
      degree := by
        intro j hj
        have hd := h.degree ⟨hj.1, ((hpres j).1 hj.2).1⟩
        have hlen := length_adjacent_leave h.linked (rfl : s₁.adjacency = s.adjacency) hpres hact hj
        exact (by simpa using hd : s.degree.get j = (s.adjacent j).length).trans hlen
      simplify_closed := fun hj _ => h.simplify_closed (List.mem_of_mem_erase hj) (by simp)
      freeze_low := h.freeze_low
      freeze_open := h.freeze_open
      spill_high := h.spill_high }
  exact hs₁.foldl_decrementDegree ((h.linked.nodup hact.1).filter _) fun t ht =>
    (State.mem_adjacent.1 ht).2

/-! ## Merging -/

/-- After `v` was merged into `u`, `u` stands for what `v` stood for. -/
theorem Merging.set {aliasOf : Vector (Option (Fin n)) n} {movesOf : Vector (List (Fin m)) n}
    (h : Merging p aliasOf movesOf) (hu : aliasOf.get u = none) (hv : aliasOf.get v = none)
    (huv : u ≠ v) (hvirtual : p.precolored v = false) (hown : p.foreign u = false) :
    Merging p (aliasOf.set v (some u) v.isLt)
      (movesOf.set u (movesOf.get u ++ movesOf.get v) u.isLt) where
  settled := h.settled.set hu hv huv
  virtual {i j} hi := by
    by_cases hiv : i = v
    · subst hiv; exact hvirtual
    · rw [Indexed.get_set_ne _ _ hiv] at hi; exact h.virtual hi
  own {i j} hi := by
    by_cases hiv : i = v
    · subst hiv
      rw [Indexed.get_set_self, Option.some.injEq] at hi
      subst hi; exact hown
    · rw [Indexed.get_set_ne _ _ hiv] at hi; exact h.own hi
  mem_movesOf {i k} hi := by
    have hiv : i ≠ v := by
      rintro rfl
      rw [Indexed.get_set_self] at hi; cases hi
    rw [Indexed.get_set_ne _ _ hiv] at hi
    rw [h.settled.chase_set hu hv huv, h.settled.chase_set hu hv huv]
    by_cases hiu : i = u
    · subst hiu
      rw [Indexed.get_set_self, List.mem_append, h.mem_movesOf hi, h.mem_movesOf hv]
      by_cases h₁ : chase aliasOf n (p.moves.get k).1 = v <;>
        by_cases h₂ : chase aliasOf n (p.moves.get k).2 = v <;> simp [h₁, h₂]
    · rw [Indexed.get_set_ne _ _ hiu, h.mem_movesOf hi]
      by_cases h₁ : chase aliasOf n (p.moves.get k).1 = v <;>
        by_cases h₂ : chase aliasOf n (p.moves.get k).2 = v <;>
          simp [h₁, h₂, Ne.symm hiu, Ne.symm hiv]

/-- The state in which `v` is an alias of `u`, but its neighbors do not know. -/
def absorbed (s : State n m) (u v : Fin n) : State n m :=
  { s with
    freeze := s.freeze.erase v
    spill := s.spill.erase v
    aliasOf := s.aliasOf.set v (some u) v.isLt
    movesOf := s.movesOf.set u (s.movesOf.get u ++ s.movesOf.get v) u.isLt }

theorem present_absorbed {j : Fin n} (hv : s.Present v) :
    (s.absorbed u v).Present j ↔ s.Present j ∧ j ≠ v := by
  by_cases hj : j = v
  · subst hj; simp [Present, absorbed, coalesced]
  · simp only [Present, absorbed, coalesced, Indexed.get_set_ne _ _ hj]
    simp [hj]

/-- The nodes that may be merged: `u` is still in the graph, `v` is virtual too,
    and they do not interfere. -/
structure Mergeable (p : Problem n m) (s : State n m) (u v : Fin n) : Prop where
  present : s.Present u
  active : s.Active p v
  ne : u ≠ v
  apart : ¬ s.Linked u v
  own : p.foreign u = false

/-- After the alias was made, the degrees of the neighbors of `v` lag behind. -/
theorem Inv.absorbed (h : s.Inv p (x.loosen v)) (hx : x.lagging = []) (hs : s.simplify = [])
    (hm : Mergeable p s u v) :
    (s.absorbed u v).Inv p
      (({ x with lagging := (s.absorbed u v).adjacent v } : Debt n).loosen u) where
  linked := h.linked
  merging := h.merging.set (coalesced_eq_false.1 hm.present.2) (coalesced_eq_false.1 hm.active.2.2)
    hm.ne hm.active.1 hm.own
  listed := by
    have := h.listed.leave v
    rw [List.erase_of_not_mem (by simp [hs] : v ∉ s.simplify)] at this
    refine this.congr fun j => ?_
    rw [Active, present_absorbed hm.active.2, ← and_assoc]; rfl
  stack_nodup := h.stack_nodup
  stacked {i} hi := by
    have hiv : i ≠ v := fun e => hm.active.2.1 (e ▸ hi)
    refine ⟨(h.stacked hi).1, ?_⟩
    change ((s.aliasOf.set v (some u) v.isLt).get i).isSome = false
    rw [Indexed.get_set_ne _ _ hiv]; exact (h.stacked hi).2
  stack_closed {i} hi := by
    have hiu : i ≠ u := fun e => hm.present.1 (e ▸ hi)
    have := h.stack_closed hi
    unfold moveRelated openMoves at this ⊢
    simp only [State.absorbed, Indexed.get_set_ne _ _ hiu]
    exact this
  degree {i} hi := by
    have hd := h.degree ⟨hi.1, ((present_absorbed hm.active.2).1 hi.2).1⟩
    have hlen := length_adjacent_leave h.linked
      (rfl : (s.absorbed u v).adjacency = s.adjacency)
      (fun j => present_absorbed hm.active.2) hm.active hi
    have hd' : s.degree.get i = (s.adjacent i).length := by simpa [Debt.loosen, hx] using hd
    exact hd'.trans hlen
  simplify_closed hi _ := by rw [State.absorbed, hs] at hi; cases hi
  freeze_low {i} hi hx := h.freeze_low (List.mem_of_mem_erase hi) hx
  freeze_open {i} hi hx := by
    have hiv := (h.listed.nodup_freeze.mem_erase_iff).1 hi
    have hiu : i ≠ u := fun e => hx (by simp [Debt.loosen, e])
    have := h.freeze_open hiv.2
      (List.not_mem_cons_of_ne_of_not_mem hiv.1 (List.not_mem_of_not_mem_cons hx))
    unfold moveRelated openMoves at this ⊢
    simp only [State.absorbed, Indexed.get_set_ne _ _ hiu]
    exact this
  spill_high {i} hi hx := h.spill_high (List.mem_of_mem_erase hi) hx

/-- A neighbor `t` of the merged node becomes a neighbor of `u`. -/
def handOver (p : Problem n m) (u : Fin n) (s : State n m) (t : Fin n) : State n m :=
  (s.addEdge p t u).decrementDegree p t

theorem present_handOver {j : Fin n} : (handOver p u s t).Present j ↔ s.Present j := by
  rw [handOver, present_decrementDegree, addEdge_eq]; rfl

theorem degree_addEdge_le (i : Fin n) :
    (s.addEdge p u v).degree.get i ≤ s.degree.get i + 1 := by
  by_cases huv : u = v
  · have e : s.addEdge p u v = s := by simp [State.addEdge, huv]
    rw [e]; omega
  · by_cases hl : s.Linked u v
    · rw [addEdge_of_linked hl]; omega
    · rw [degree_addEdge huv hl]; split <;> omega

theorem Inv.handOver {l : List (Fin n)} (h : s.Inv p ⟨t :: l, [u], [u], [], []⟩)
    (htl : t ∉ l) (ht : s.Present t) (hu : s.Present u) (htu : t ≠ u) :
    (State.handOver p u s t).Inv p ⟨l, [u], [u], [], []⟩ := by
  have h₁ : (s.addEdge p t u).Inv p ((Debt.heat ⟨l, [u], [u], [], []⟩ t).lag t) :=
    (h.addEdge ht hu htu).weaken rfl (by simp [Debt.heat, Debt.lag]) (by simp [Debt.heat, Debt.lag])
      (by simp [Debt.heat, Debt.lag]) (by simp [Debt.heat, Debt.lag])
  have hfreeze : (s.addEdge p t u).freeze = s.freeze := by rw [addEdge_eq]
  have ht₁ : (s.addEdge p t u).Present t := by rw [addEdge_eq]; exact ht
  unfold State.handOver
  by_cases hpre : p.precolored t = true
  · have hact : ¬ (s.addEdge p t u).Active p t := fun ha => by rw [ha.1] at hpre; cases hpre
    rw [decrementDegree_of_precolored hpre]
    exact (h₁.settleLagging hact).settleHeated fun hf =>
      absurd (h₁.listed.active_iff.2 (Or.inr (Or.inl hf))) hact
  · refine h₁.decrementDegree ⟨Bool.eq_false_iff.2 hpre, ht₁⟩ htl (fun hf => ?_) (by simp)
      (by simpa using htu)
    rw [hfreeze] at hf
    have := h.freeze_low hf (by simpa using htu)
    have := degree_addEdge_le (p := p) (s := s) (u := t) (v := u) t
    omega

theorem Inv.foldl_handOver {l : List (Fin n)} (h : s.Inv p ⟨l, [u], [u], [], []⟩) (hl : l.Nodup)
    (hpres : ∀ t ∈ l, s.Present t ∧ t ≠ u) (hu : s.Present u) :
    (l.foldl (State.handOver p u) s).Inv p ⟨[], [u], [u], [], []⟩ := by
  induction l generalizing s with
  | nil => exact h
  | cons t l ih =>
    obtain ⟨htl, hl⟩ := List.nodup_cons.1 hl
    obtain ⟨ht, htu⟩ := hpres t (by simp)
    refine ih (h.handOver htl ht hu htu) hl (fun j hj => ?_) (present_handOver.2 hu)
    exact ⟨present_handOver.2 (hpres j (by simp [hj])).1, (hpres j (by simp [hj])).2⟩

/-- The merge in one piece: the alias is made, its moves are tried again, and its
    neighbors are handed over. -/
theorem combine_eq (h : Listed (s.Active p) s.simplify s.freeze s.spill) (u v : Fin n) :
    s.combine p u v =
      let s₁ := (s.absorbed u v).enableMoves [v]
      let s₂ := (s₁.adjacent v).foldl (handOver p u) s₁
      if p.colors ≤ s₂.degree.get u ∧ u ∈ s₂.freeze then
        { s₂ with freeze := s₂.freeze.erase u, spill := push u s₂.spill }
      else s₂ := by
  have e : (if v ∈ s.freeze then { s with freeze := s.freeze.erase v }
      else { s with spill := s.spill.erase v } : State n m) =
        { s with freeze := s.freeze.erase v, spill := s.spill.erase v } := by
    split
    · next hv => rw [List.erase_of_not_mem (h.freeze_spill hv)]
    · next hv => rw [List.erase_of_not_mem hv]
  simp only [combine, e]
  rfl

/-- **Merging two nodes keeps the invariant**, but the move that led to it may
    have been the last one of `u`. -/
theorem Inv.combine (h : s.Inv p (Debt.loosen ⟨[], [], [u], [], []⟩ v)) (hs : s.simplify = [])
    (hm : Mergeable p s u v) : (s.combine p u v).Inv p ⟨[], [], [u], [], []⟩ := by
  have h₁ : ((s.absorbed u v).enableMoves [v]).Inv p
      ⟨(s.absorbed u v).adjacent v, [u], [u], [], []⟩ :=
    ((Inv.absorbed h rfl hs hm).enableMoves [v]).weaken rfl (by simp [Debt.loosen])
      (by simp [Debt.loosen]) (by simp [Debt.loosen]) (by simp [Debt.loosen])
  obtain ⟨ms, -, e⟩ := enableMoves_eq (s.absorbed u v) [v]
  have hadj : ((s.absorbed u v).enableMoves [v]).adjacent v = (s.absorbed u v).adjacent v := by
    rw [e]; rfl
  have hu : ((s.absorbed u v).enableMoves [v]).Present u := by
    rw [e]; exact (present_absorbed hm.active.2).2 ⟨hm.present, hm.ne⟩
  have h₂ := h₁.foldl_handOver ((h.linked.nodup hm.active.1).filter _) (fun t ht => by
    obtain ⟨hadj, hpres⟩ := State.mem_adjacent.1 ht
    refine ⟨by rw [e]; exact hpres, ?_⟩
    rintro rfl
    exact hm.apart (h.linked.symm ((h.linked.mem_adjacency hm.active.1).1 hadj))) hu
  rw [combine_eq h.listed]
  dsimp only
  rw [hadj]
  split
  · next hhigh =>
    have hact := h₂.listed.active_iff.2 (Or.inr (Or.inl hhigh.2))
    have h₃ := Inv.toSpill (x := {}) (h₂.cool u) hact
      (fun hmem => h₂.listed.simplify_freeze hmem hhigh.2) hhigh.1
    exact h₃.loosen u
  · next hlow =>
    exact Inv.settleHeated (x := ⟨[], [], [u], [], []⟩) h₂ fun hf =>
      Nat.lt_of_not_le fun hd => hlow ⟨hd, hf⟩

end Codegen.Coloring.State
