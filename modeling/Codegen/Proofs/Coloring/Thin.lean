/-
  Graphs that can be taken apart greedily.

  A state is thin if every set of active nodes has a member with fewer neighbors
  in the set and among the physical registers than there are colors.  Then some
  node can always be simplified, and no node has to be spilled
  (`Thin.spill_eq_nil`).

  Taking a node out of the graph keeps it thin, and so does a safe merge: the
  two tests are made for this (`Thin.merge_physical`, `thin_merge_virtual`).
-/
import Codegen.Proofs.Coloring.Ending

namespace Codegen.Coloring.State

variable {n m : Nat} {p : Problem n m} {s s' : State n m} {S : Finset (Fin n)} {i t u v w : Fin n}

instance (s : State n m) (u v : Fin n) : Decidable (s.Linked u v) :=
  inferInstanceAs (Decidable (_ = true))

/-- The neighbors of a node in a set and among the physical registers. -/
def around (p : Problem n m) (s : State n m) (S : Finset (Fin n)) (i : Fin n) : Finset (Fin n) :=
  Finset.univ.filter fun j => s.Linked i j ∧ (j ∈ S ∨ p.precolored j = true)

/-- Every set of active nodes has a member with few neighbors around it. -/
def Thin (p : Problem n m) (s : State n m) : Prop :=
  ∀ S : Finset (Fin n), S.Nonempty → (∀ i ∈ S, s.Active p i) →
    ∃ i ∈ S, (s.around p S i).card < p.colors

theorem mem_around : t ∈ s.around p S i ↔ s.Linked i t ∧ (t ∈ S ∨ p.precolored t = true) := by
  simp [around]

theorem around_congr (h : ∀ j, s'.Linked i j ∧ (j ∈ S ∨ p.precolored j = true) ↔
    s.Linked i j ∧ (j ∈ S ∨ p.precolored j = true)) : s'.around p S i = s.around p S i := by
  ext j; rw [mem_around, mem_around]; exact h j

section
variable (h : s.Inv p {})
include h

/-- All neighbors around a node are still in the graph. -/
theorem Inv.around_subset (hS : ∀ j ∈ S, s.Active p j) (hi : p.precolored i = false) :
    s.around p S i ⊆ (s.adjacent i).toFinset := by
  intro j hj
  obtain ⟨hlink, hj⟩ := mem_around.1 hj
  rw [List.mem_toFinset, h.mem_adjacent hi]
  refine ⟨hlink, ?_⟩
  rcases hj with hj | hj
  · exact (hS j hj).2
  · exact h.present_of_precolored hj

theorem Inv.card_adjacent (hi : s.Active p i) : (s.adjacent i).toFinset.card = s.degree.get i := by
  have hn : (s.adjacent i).Nodup := (h.linked.nodup hi.1).filter _
  rw [List.toFinset_card_of_nodup hn, h.degree hi]
  simp

/-- **In a thin state nothing has to be spilled.** -/
theorem Thin.spill_eq_nil (ht : s.Thin p) (hs : s.simplify = []) (hf : s.freeze = []) :
    s.spill = [] := by
  by_contra hne
  obtain ⟨i, hi⟩ := List.exists_mem_of_ne_nil _ hne
  have hact : ∀ {j}, s.Active p j → j ∈ s.spill := by
    intro j hj
    rcases h.listed.active_iff.1 hj with hj | hj | hj
    · rw [hs] at hj; cases hj
    · rw [hf] at hj; cases hj
    · exact hj
  obtain ⟨j, hj, hlow⟩ := ht (s.actives p)
    ⟨i, mem_actives.2 (h.listed.active_iff.2 (Or.inr (Or.inr hi)))⟩ fun j hj => mem_actives.1 hj
  have hactj := mem_actives.1 hj
  -- all that is in the graph is active or physical, so the degree is counted
  have hsub : (s.adjacent j).toFinset ⊆ s.around p (s.actives p) j := by
    intro t ht
    rw [List.mem_toFinset, h.mem_adjacent hactj.1] at ht
    refine mem_around.2 ⟨ht.1, ?_⟩
    by_cases hpre : p.precolored t = true
    · exact Or.inr hpre
    · exact Or.inl (mem_actives.2 ⟨Bool.eq_false_iff.2 hpre, ht.2⟩)
  have := Finset.card_le_card hsub
  rw [h.card_adjacent hactj] at this
  have := h.spill_high (hact hactj) (by simp)
  omega

end

/-! ## Taking nodes out of the graph -/

theorem Thin.mono (h : s.Thin p) (hact : ∀ {i}, s'.Active p i → s.Active p i)
    (hlinked : s'.linked = s.linked) : s'.Thin p := by
  intro S hne hS
  obtain ⟨i, hi, hlow⟩ := h S hne fun i hi => hact (hS i hi)
  refine ⟨i, hi, ?_⟩
  rwa [around_congr (s := s) fun j => by simp only [Linked, hlinked]]

/-! ## Merging -/

/-- A node that is no neighbor of `v` has the neighbors that it had. -/
theorem around_other (hlinked : ∀ a b, s'.Linked a b ↔
    s.Linked a b ∨ a = u ∧ b ∈ s.adjacent v ∨ b = u ∧ a ∈ s.adjacent v)
    (hwu : w ≠ u) (hwv : w ∉ s.adjacent v) : s'.around p S w = s.around p S w := by
  refine around_congr fun j => ?_
  rw [hlinked]
  simp [hwu, hwv]

section
variable (h : s.Inv p {}) (hm : Mergeable p s u v)
  (hact : ∀ {i}, s'.Active p i → s.Active p i ∧ i ≠ v)
  (hlinked : ∀ a b, s'.Linked a b ↔
    s.Linked a b ∨ a = u ∧ b ∈ s.adjacent v ∨ b = u ∧ a ∈ s.adjacent v)
  (hS : ∀ i ∈ S, s'.Active p i)
include h hm hact hlinked hS

/-- A neighbor of `v` exchanges `v` for `u`, so it has no more neighbors than
    before. -/
theorem card_around_exchange (hw : w ∈ S) (hwu : w ≠ u) (hwv : w ∈ s.adjacent v) :
    (s'.around p S w).card ≤ s.degree.get w := by
  have hactw := (hact (hS w hw)).1
  have hv : v ∈ (s.adjacent w).toFinset := by
    rw [List.mem_toFinset, h.mem_adjacent hactw.1]
    exact ⟨h.linked_symm ((h.mem_adjacent hm.active.1).1 hwv).1, hm.active.2⟩
  have hsub : s'.around p S w ⊆ insert u ((s.adjacent w).toFinset.erase v) := by
    intro j hj
    obtain ⟨hlink, hj⟩ := mem_around.1 hj
    rw [Finset.mem_insert]
    rcases (hlinked w j).1 hlink with hlink | ⟨e, -⟩ | ⟨e, -⟩
    · refine Or.inr (Finset.mem_erase.2 ⟨?_, h.around_subset (fun i hi => (hact (hS i hi)).1)
        hactw.1 (mem_around.2 ⟨hlink, hj⟩)⟩)
      rintro rfl
      rcases hj with hj | hj
      · exact (hact (hS j hj)).2 rfl
      · rw [hm.active.1] at hj; cases hj
    · exact absurd e hwu
    · exact Or.inl e
  have hcard := Finset.card_le_card hsub
  have := Finset.card_insert_le u ((s.adjacent w).toFinset.erase v)
  have := Finset.card_erase_of_mem hv
  have := Finset.card_pos.2 ⟨v, hv⟩
  rw [h.card_adjacent hactw] at *
  omega

/-- **A safe merge into a physical register keeps the state thin.** -/
theorem Thin.merge_physical (ht : s.Thin p) (hu : p.precolored u = true)
    (hsafe : s.mergeSafe p u v = true) (hne : S.Nonempty) :
    ∃ i ∈ S, (s'.around p S i).card < p.colors := by
  obtain ⟨w, hw, hlow⟩ := ht S hne fun i hi => (hact (hS i hi)).1
  have hwpre := (hS w hw).1
  have hwu : w ≠ u := by rintro rfl; rw [hu] at hwpre; cases hwpre
  refine ⟨w, hw, ?_⟩
  by_cases hwv : w ∈ s.adjacent v
  · have htest := List.all_eq_true.1 hsafe w hwv
    simp only [Bool.or_eq_true, decide_eq_true_eq, hwpre, Bool.false_eq_true, or_false] at htest
    rcases htest with hdeg | hlink
    · exact (card_around_exchange h hm hact hlinked hS hw hwu hwv).trans_lt hdeg
    · -- the physical register was a neighbor already
      rwa [around_congr (s := s) fun j => ?_]
      rw [hlinked]
      constructor
      · rintro ⟨hl | ⟨e, -⟩ | ⟨rfl, -⟩, hj⟩
        · exact ⟨hl, hj⟩
        · exact absurd e hwu
        · exact ⟨hlink, hj⟩
      · exact fun hj => ⟨Or.inl hj.1, hj.2⟩
  · rwa [around_other hlinked hwu hwv]

/-- A safe merge of two virtual registers leaves a node with few neighbors in
    every set that the merged node is in. -/
theorem card_around_merge_virtual (hu : u ∈ S) (hsafe : s.unionSafe p u v = true) :
    ∃ i ∈ S, (s'.around p S i).card < p.colors := by
  have huact := (hact (hS u hu)).1
  -- either a neighbor in the set has a low degree, or all of them count in the test
  by_cases hlow : ∃ w ∈ S, w ≠ u ∧ (w ∈ s.adjacent u ∨ w ∈ s.adjacent v) ∧ s.degree.get w < p.colors
  · obtain ⟨w, hw, hwu, -, hdeg⟩ := hlow
    refine ⟨w, hw, ?_⟩
    by_cases hwv : w ∈ s.adjacent v
    · exact (card_around_exchange h hm hact hlinked hS hw hwu hwv).trans_lt hdeg
    · have hactw := (hact (hS w hw)).1
      have := Finset.card_le_card (h.around_subset (fun i hi => (hact (hS i hi)).1) hactw.1)
      rw [h.card_adjacent hactw] at this
      rw [around_other hlinked hwu hwv]
      omega
  · refine ⟨u, hu, ?_⟩
    simp only [not_exists, not_and, not_lt] at hlow
    simp only [unionSafe, decide_eq_true_eq, List.countP_eq_length_filter] at hsafe
    refine lt_of_le_of_lt (le_trans (Finset.card_le_card fun j hj => ?_) (List.toFinset_card_le _)) hsafe
    obtain ⟨hlink, hj⟩ := mem_around.1 hj
    have hpres : s.Present j := hj.elim (fun hj => (hact (hS j hj)).1.2) h.present_of_precolored
    have hmem : j ∈ s.adjacent u ∨ j ∈ s.adjacent v := by
      rcases (hlinked u j).1 hlink with hl | ⟨-, hjv⟩ | ⟨e, huv⟩
      · exact Or.inl ((h.mem_adjacent huact.1).2 ⟨hl, hpres⟩)
      · exact Or.inr hjv
      · exact absurd (h.linked_symm ((h.mem_adjacent hm.active.1).1 huv).1) hm.apart
    have hju : j ≠ u := by
      rintro rfl
      rcases hmem with hmem | hmem
      · exact h.ne_of_linked ((h.mem_adjacent huact.1).1 hmem).1 rfl
      · exact hm.apart (h.linked_symm ((h.mem_adjacent hm.active.1).1 hmem).1)
    have hsig : s.significant p j = true := by
      rw [significant, Bool.or_eq_true, decide_eq_true_eq]
      rcases hj with hj | hj
      · exact Or.inr (hlow j hj hju hmem)
      · exact Or.inl hj
    rw [List.mem_toFinset, List.mem_filter, List.mem_eraseDups, List.mem_append]
    exact ⟨hmem, hsig⟩

end

/-- **Every step keeps the state thin.** -/
theorem Thin.shift (h : s.Inv p {}) (ht : s.Thin p) (hs : Shift p s s') : s'.Thin p := by
  cases hs with
  | same hsame =>
    exact ht.mono (fun hi => ⟨hi.1, hsame.present_iff.1 hi.2⟩) hsame.linked
  | stack _ hsame =>
    refine ht.mono (fun {j} hj => ⟨hj.1, ?_⟩) hsame.linked
    have := hsame.present_iff.1 hj.2
    exact ⟨fun hs => this.1 (List.mem_cons_of_mem _ hs), this.2⟩
  | @merge u v hm hsafe hstack halias hlinked =>
    have hact : ∀ {i}, s'.Active p i → s.Active p i ∧ i ≠ v := fun {i} hi => by
      have := (present_merge hm hstack halias).1 hi.2
      exact ⟨⟨hi.1, this.1⟩, this.2⟩
    intro S hne hS
    rcases hsafe with ⟨hu, hsafe⟩ | ⟨hu, hsafe⟩
    · exact ht.merge_physical h hm hact hlinked hS hu hsafe hne
    · by_cases huS : u ∈ S
      · exact card_around_merge_virtual h hm hact hlinked hS huS hsafe
      · -- nothing in the set has a new neighbor in the set
        obtain ⟨w, hw, hlow⟩ := ht S hne fun i hi => (hact (hS i hi)).1
        have hwu : w ≠ u := fun e => huS (e ▸ hw)
        refine ⟨w, hw, ?_⟩
        rwa [around_congr (s := s) fun j => ?_]
        rw [hlinked]
        constructor
        · rintro ⟨hl | ⟨e, -⟩ | ⟨rfl, -⟩, hj⟩
          · exact ⟨hl, hj⟩
          · exact absurd e hwu
          · rcases hj with hj | hj
            · exact absurd hj huS
            · rw [hu] at hj; cases hj
        · exact fun hj => ⟨Or.inl hj.1, hj.2⟩

end Codegen.Coloring.State
