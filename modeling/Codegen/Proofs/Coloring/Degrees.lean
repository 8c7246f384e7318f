/-
  Degrees and moves.

  * Trying moves again changes no promise of the invariant (`Inv.enableMoves`).
  * A node whose degree has dropped settles the debt that its degree was too
    large (`Inv.decrementDegree`), and goes to another worklist if it has to.
  * A new edge between two nodes of the graph keeps degrees exact
    (`Inv.addEdge`).
-/
import Codegen.Proofs.Coloring.Worklists

namespace Codegen.Coloring.State

variable {n m : Nat} {p : Problem n m} {s : State n m} {x : Debt n} {i t u v : Fin n}

/-! ## Outcomes of moves -/

/-- Two outcomes of the moves leave the same moves open. -/
def SameOpen (ms ms' : Vector MoveState m) : Prop :=
  ∀ k, (ms'.get k).isOpen = (ms.get k).isOpen

theorem openMoves_of_sameOpen {ms : Vector MoveState m} (h : SameOpen s.moveState ms) (i : Fin n) :
    openMoves { s with moveState := ms } i = s.openMoves i :=
  List.filter_congr fun k _ => h k

theorem moveRelated_of_sameOpen {ms : Vector MoveState m} (h : SameOpen s.moveState ms)
    (i : Fin n) : moveRelated { s with moveState := ms } i = s.moveRelated i := by
  rw [moveRelated, moveRelated, openMoves_of_sameOpen h]

/-- The invariant does not tell open moves from each other. -/
theorem Inv.sameOpen (h : s.Inv p x) {ms : Vector MoveState m} (hms : SameOpen s.moveState ms) :
    Inv p x { s with moveState := ms } where
  linked := h.linked
  merging := h.merging
  listed := h.listed
  stack_nodup := h.stack_nodup
  stacked := h.stacked
  stack_closed hi := by rw [moveRelated_of_sameOpen hms]; exact h.stack_closed hi
  degree := h.degree
  simplify_closed hi hx := by rw [moveRelated_of_sameOpen hms]; exact h.simplify_closed hi hx
  freeze_low := h.freeze_low
  freeze_open hi hx := by rw [moveRelated_of_sameOpen hms]; exact h.freeze_open hi hx
  spill_high := h.spill_high

theorem setMove_sameOpen {k : Fin m} {o : MoveState} (hk : (s.moveState.get k).isOpen = o.isOpen) :
    SameOpen s.moveState (s.moveState.set k o k.isLt) := fun j => by
  by_cases hj : j = k
  · subst hj; rw [Indexed.get_set_self, hk]
  · rw [Indexed.get_set_ne _ _ hj]

/-- Trying moves again changes their outcomes only, and leaves the same open. -/
theorem enableMoves_eq (s : State n m) (nodes : List (Fin n)) :
    ∃ ms, SameOpen s.moveState ms ∧ s.enableMoves nodes = { s with moveState := ms } := by
  have inner : ∀ (l : List (Fin m)) (s : State n m),
      (∀ k ∈ l, (s.moveState.get k).isOpen = true) → ∃ ms, SameOpen s.moveState ms ∧
        l.foldl (fun s k => s.setMove k .pending) s = { s with moveState := ms } := by
    intro l
    induction l with
    | nil => exact fun s _ => ⟨s.moveState, fun _ => rfl, rfl⟩
    | cons k l ih =>
      intro s hl
      have hk := setMove_sameOpen (s := s) (k := k) (o := .pending) (hl k (by simp))
      obtain ⟨ms, hms, e⟩ := ih (s.setMove k .pending) fun j hj => by
        rw [setMove, hk j]; exact hl j (by simp [hj])
      exact ⟨ms, fun j => (hms j).trans (hk j), e⟩
  induction nodes generalizing s with
  | nil => exact ⟨s.moveState, fun _ => rfl, rfl⟩
  | cons i nodes ih =>
    obtain ⟨ms, hms, e⟩ := inner (s.openMoves i) s fun k hk => (mem_openMoves.1 hk).2
    obtain ⟨ms', hms', e'⟩ := ih { s with moveState := ms }
    refine ⟨ms', fun k => (hms' k).trans (hms k), ?_⟩
    rw [enableMoves, List.foldl_cons, e]
    exact e'

theorem Inv.enableMoves (h : s.Inv p x) (nodes : List (Fin n)) : (s.enableMoves nodes).Inv p x := by
  obtain ⟨ms, hms, e⟩ := enableMoves_eq s nodes
  rw [e]; exact h.sameOpen hms

/-! ## Dropping degrees -/

theorem decrementDegree_of_precolored (ht : p.precolored t = true) : s.decrementDegree p t = s := by
  simp [decrementDegree, ht]

/-- The degrees after a neighbor of `t` has left the graph. -/
def lowered (s : State n m) (t : Fin n) : Vector Nat n :=
  s.degree.set t (s.degree.get t - 1) t.isLt

theorem lowered_self (s : State n m) (t : Fin n) : (s.lowered t).get t = s.degree.get t - 1 :=
  Indexed.get_set_self _ _ _

theorem lowered_ne (s : State n m) (h : i ≠ t) : (s.lowered t).get i = s.degree.get i :=
  Indexed.get_set_ne _ _ h

theorem decrementDegree_of_ne (ht : p.precolored t = false) (hd : s.degree.get t ≠ p.colors) :
    s.decrementDegree p t = { s with degree := s.lowered t } := by
  simp [decrementDegree, ht, hd, lowered]

/-- A node whose degree drops below the number of colors leaves the spill
    worklist. -/
theorem decrementDegree_of_eq (ht : p.precolored t = false) (hd : s.degree.get t = p.colors) :
    ∃ ms, SameOpen s.moveState ms ∧ s.decrementDegree p t =
      let s' := { s with degree := s.lowered t, moveState := ms }
      if s'.moveRelated t then { s' with freeze := push t s'.freeze, spill := s'.spill.erase t }
      else { s' with simplify := push t s'.simplify, spill := s'.spill.erase t } := by
  obtain ⟨ms, hms, e⟩ := enableMoves_eq { s with degree := s.lowered t } (t :: s.adjacent t)
  refine ⟨ms, hms, ?_⟩
  have e' : State.enableMoves { s with degree := s.degree.set t (p.colors - 1) t.isLt }
      (t :: State.adjacent { s with degree := s.degree.set t (p.colors - 1) t.isLt } t) =
        { s with degree := s.lowered t, moveState := ms } := by
    rw [← hd]; exact e
  unfold decrementDegree
  rw [if_neg (by simp [ht])]
  simp only [hd, ne_eq, not_true_eq_false, if_false, e']
  rfl

/-- The degree of a node is exact again, but may be too small for its worklist. -/
theorem Inv.lower (h : s.Inv p ((x.heat t).lag t)) (ht : s.Active p t) (hlag : t ∉ x.lagging)
    (hlow : t ∈ s.freeze → s.degree.get t ≤ p.colors) :
    Inv p (x.cool t) { s with degree := s.lowered t } where
  linked := h.linked
  merging := h.merging
  listed := h.listed
  stack_nodup := h.stack_nodup
  stacked := h.stacked
  stack_closed := h.stack_closed
  degree {i} hi := by
    have hd := h.degree hi
    change (s.lowered t).get i = (s.adjacent i).length + if i ∈ x.lagging then 1 else 0
    by_cases hit : i = t
    · subst hit
      rw [if_pos (by simp [Debt.lag])] at hd
      rw [lowered_self, hd, if_neg hlag]; rfl
    · rw [lowered_ne s hit, hd]
      simp [Debt.lag, Debt.heat, hit]
  simplify_closed := h.simplify_closed
  freeze_low {i} hi hx := by
    change (s.lowered t).get i < p.colors
    by_cases hit : i = t
    · subst hit
      have hd := h.degree ht
      rw [if_pos (by simp [Debt.lag])] at hd
      have := hlow hi
      rw [lowered_self]; omega
    · rw [lowered_ne s hit]
      exact h.freeze_low hi (List.not_mem_cons_of_ne_of_not_mem hit hx)
  freeze_open := h.freeze_open
  spill_high {i} hi hx := by
    change p.colors ≤ (s.lowered t).get i
    have hit : i ≠ t := fun e => hx (by simp [Debt.cool, e])
    rw [lowered_ne s hit]
    exact h.spill_high hi (List.not_mem_of_not_mem_cons hx)

/-- **A dropped degree settles its debt**, and the node is on the right worklist
    afterwards. -/
theorem Inv.decrementDegree (h : s.Inv p ((x.heat t).lag t)) (ht : s.Active p t)
    (hlag : t ∉ x.lagging) (hlow : t ∈ s.freeze → s.degree.get t ≤ p.colors)
    (hkept : t ∉ x.kept) (hloose : t ∉ x.loosened) : (s.decrementDegree p t).Inv p x := by
  have hdeg : s.degree.get t = (s.adjacent t).length + 1 := by
    simpa [Debt.lag] using h.degree ht
  have hs := h.lower ht hlag hlow
  by_cases hd : s.degree.get t = p.colors
  · obtain ⟨ms, hms, e⟩ := decrementDegree_of_eq (s := s) ht.1 hd
    replace hs := hs.sameOpen hms
    rw [e]
    dsimp only
    split
    · next hrel =>
      refine ((hs.heat t).loosen t).toFreeze ht ?_ ?_ hrel
      · intro hmem
        have := hs.simplify_closed hmem hkept
        rw [hrel] at this; cases this
      · change (s.lowered t).get t < p.colors
        rw [lowered_self]; omega
    · next hrel =>
      have hrel' := Bool.eq_false_iff.2 hrel
      have htf : t ∉ s.freeze := fun hf => hrel (hs.freeze_open hf hloose)
      have := (((hs.heat t).loosen t).toSimplify ht).settleKept hrel'
      rwa [show List.erase _ t = s.freeze from List.erase_of_not_mem htf] at this
  · rw [decrementDegree_of_ne ht.1 hd]
    refine { hs with spill_high := fun {i} hi hx => ?_ }
    by_cases hit : i = t
    · subst hit
      change p.colors ≤ (s.lowered i).get i
      have hcool : i ∈ s.spill → p.colors ≤ s.degree.get i := fun hi => h.spill_high hi hx
      have := hcool hi
      rw [lowered_self]; omega
    · exact hs.spill_high hi (List.not_mem_cons_of_ne_of_not_mem hit hx)

/-! ## New edges -/

/-- A new edge changes nothing but the neighbors and the degrees. -/
theorem addEdge_eq (p : Problem n m) (s : State n m) (u v : Fin n) :
    s.addEdge p u v =
      { s with adjacency := (s.addEdge p u v).adjacency, linked := (s.addEdge p u v).linked,
               degree := (s.addEdge p u v).degree } := by
  unfold addEdge
  split
  · rfl
  · dsimp only
    split <;> split <;> rfl

theorem addEdge_of_linked (h : s.Linked u v) : s.addEdge p u v = s := by
  have : (s.linked.get u).get v = true := h
  simp [addEdge, this]

theorem linked_link {a b : Fin n} : (s.link u v).Linked a b ↔ s.Linked a b ∨ a = u ∧ b = v := by
  unfold Linked link
  by_cases ha : a = u
  · subst ha
    rw [Indexed.get_set_self]
    by_cases hb : b = v
    · subst hb; simp
    · rw [Indexed.get_set_ne _ _ hb]; simp [hb]
  · rw [Indexed.get_set_ne _ _ ha]; simp [ha]

@[simp] theorem adjacency_link : (s.link u v).adjacency = s.adjacency := rfl

@[simp] theorem degree_link : (s.link u v).degree = s.degree := rfl

theorem adjacency_attach (a : Fin n) :
    (s.attach u v).adjacency.get a = s.adjacency.get a ++ if a = u then [v] else [] := by
  by_cases ha : a = u
  · subst ha; rw [attach, Indexed.get_set_self, if_pos rfl]
  · rw [attach, Indexed.get_set_ne _ _ ha, if_neg ha, List.append_nil]

theorem degree_attach (a : Fin n) :
    (s.attach u v).degree.get a = s.degree.get a + if a = u then 1 else 0 := by
  by_cases ha : a = u
  · subst ha; rw [attach, Indexed.get_set_self, if_pos rfl]
  · rw [attach, Indexed.get_set_ne _ _ ha, if_neg ha, Nat.add_zero]

section
variable (huv : u ≠ v) (hl : ¬ s.Linked u v)
include huv hl

theorem addEdge_of_not_linked :
    s.addEdge p u v =
      let s₁ := (s.link u v).link v u
      let s₂ := if p.precolored u then s₁ else s₁.attach u v
      if p.precolored v then s₂ else s₂.attach v u := by
  have : (s.linked.get u).get v = false := Bool.eq_false_iff.2 hl
  simp only [addEdge, this, huv, decide_false, Bool.or_false, Bool.false_eq_true, if_false]

theorem linked_addEdge {a b : Fin n} :
    (s.addEdge p u v).Linked a b ↔ s.Linked a b ∨ a = u ∧ b = v ∨ a = v ∧ b = u := by
  have e : (s.addEdge p u v).linked = ((s.link u v).link v u).linked := by
    rw [addEdge_of_not_linked huv hl]
    dsimp only
    split <;> split <;> rfl
  change ((s.addEdge p u v).linked.get a).get b = true ↔ _
  rw [e]
  refine (linked_link (s := s.link u v)).trans ?_
  rw [linked_link]
  tauto

theorem adjacency_addEdge (a : Fin n) :
    (s.addEdge p u v).adjacency.get a = s.adjacency.get a ++
      if p.precolored a then [] else if a = u then [v] else if a = v then [u] else [] := by
  rw [addEdge_of_not_linked huv hl]
  -- each end is listed by the other one, if that is virtual
  by_cases hau : a = u
  · subst hau
    by_cases ha : p.precolored a = true <;> by_cases hv : p.precolored v = true <;>
      simp [ha, hv, adjacency_attach, huv]
  · by_cases hav : a = v
    · subst hav
      by_cases ha : p.precolored a = true <;> by_cases hu : p.precolored u = true <;>
        simp [ha, hu, adjacency_attach, hau]
    · by_cases hu : p.precolored u = true <;> by_cases hv : p.precolored v = true <;>
        simp [hu, hv, adjacency_attach, hau, hav]

theorem degree_addEdge (a : Fin n) :
    (s.addEdge p u v).degree.get a = s.degree.get a +
      if p.precolored a = false ∧ (a = u ∨ a = v) then 1 else 0 := by
  rw [addEdge_of_not_linked huv hl]
  by_cases hau : a = u
  · subst hau
    by_cases ha : p.precolored a = true <;> by_cases hv : p.precolored v = true <;>
      simp [ha, hv, degree_attach, huv]
  · by_cases hav : a = v
    · subst hav
      by_cases ha : p.precolored a = true <;> by_cases hu : p.precolored u = true <;>
        simp [ha, hu, degree_attach, hau]
    · by_cases hu : p.precolored u = true <;> by_cases hv : p.precolored v = true <;>
        simp [hu, hv, degree_attach, hau, hav]

end

/-- A new edge keeps neighborhood symmetric. -/
theorem WellLinked.addEdge (h : WellLinked p s.adjacency s.linked) (u v : Fin n) :
    WellLinked p (s.addEdge p u v).adjacency (s.addEdge p u v).linked := by
  by_cases huv : u = v
  · have e : s.addEdge p u v = s := by simp [State.addEdge, huv]
    rw [e]; exact h
  by_cases hl : s.Linked u v
  · rw [addEdge_of_linked hl]; exact h
  have hl' : ¬ s.Linked v u := fun hvu => hl (h.symm hvu)
  refine ⟨fun {a b} hab => ?_, fun a => ?_, fun {a b} ha => ?_, fun {a} ha => ?_⟩
  · rcases (linked_addEdge huv hl).1 hab with hab | ⟨rfl, rfl⟩ | ⟨rfl, rfl⟩
    · exact (linked_addEdge huv hl).2 (Or.inl (h.symm hab))
    · exact (linked_addEdge huv hl).2 (Or.inr (Or.inr ⟨rfl, rfl⟩))
    · exact (linked_addEdge huv hl).2 (Or.inr (Or.inl ⟨rfl, rfl⟩))
  · refine Bool.eq_false_iff.2 fun haa => ?_
    rcases (linked_addEdge huv hl).1 haa with haa | ⟨rfl, e⟩ | ⟨rfl, e⟩
    · rw [Linked, h.irrefl] at haa; cases haa
    · exact huv e
    · exact huv e.symm
  · refine Iff.trans ?_ (linked_addEdge (p := p) huv hl).symm
    rw [adjacency_addEdge huv hl, List.mem_append, h.mem_adjacency ha, ha]
    refine or_congr Iff.rfl ?_
    by_cases hau : a = u
    · subst hau; simp [huv]
    · by_cases hav : a = v
      · subst hav; simp [hau]
      · simp [hau, hav]
  · rw [adjacency_addEdge huv hl, ha]
    have hn := h.nodup ha
    by_cases hau : a = u
    · subst hau
      have hv : v ∉ s.adjacency.get a := fun hv => hl ((h.mem_adjacency ha).1 hv)
      simpa using hn.concat hv
    · by_cases hav : a = v
      · subst hav
        have hu : u ∉ s.adjacency.get a := fun hu => hl' ((h.mem_adjacency ha).1 hu)
        simpa [hau] using hn.concat hu
      · simpa [hau, hav] using hn

/-- A new edge between nodes of the graph counts for the degrees of both. -/
theorem Inv.addEdge (h : s.Inv p x) (hu : s.Present u) (hv : s.Present v) (huv : u ≠ v) :
    (s.addEdge p u v).Inv p ((x.heat u).heat v) := by
  by_cases hl : s.Linked u v
  · rw [addEdge_of_linked hl]; exact (h.heat u).heat v
  have hlinked := h.linked.addEdge u v
  have hadj := adjacency_addEdge (p := p) huv hl
  have hdeg := degree_addEdge (p := p) huv hl
  rw [addEdge_eq]
  refine { h with linked := hlinked, degree := fun {i} hi => ?_, freeze_low := fun {i} hi hx => ?_,
                  spill_high := fun {i} hi hx => ?_ }
  · have hd := h.degree hi
    have hpre : p.precolored i = false := hi.1
    have hfilter : ∀ {j}, s.Present j → [j].filter (fun j => !s.stack.contains j &&
        !s.coalesced j) = [j] := by
      intro j hj; simp [hj.1, hj.2]
    change (s.addEdge p u v).degree.get i = (List.filter (fun j => !s.stack.contains j &&
      !s.coalesced j) ((s.addEdge p u v).adjacency.get i)).length + if i ∈ x.lagging then 1 else 0
    rw [hdeg, hadj, List.filter_append, List.length_append, hd]
    simp only [hpre, Bool.false_eq_true, if_false, true_and]
    change (s.adjacent i).length + _ + _ = (s.adjacent i).length + _ + _
    by_cases hiu : i = u
    · rw [if_pos (Or.inl hiu), if_pos hiu, hfilter hv, List.length_singleton]
      omega
    · by_cases hiv : i = v
      · rw [if_pos (Or.inr hiv), if_neg hiu, if_pos hiv, hfilter hu, List.length_singleton]
        omega
      · simp [hiu, hiv]
  · have hne : i ≠ u ∧ i ≠ v := by
      constructor <;> rintro rfl <;> exact hx (by simp [Debt.heat])
    change (s.addEdge p u v).degree.get i < p.colors
    rw [hdeg, if_neg (by simp [hne.1, hne.2])]
    exact h.freeze_low hi fun hx' => hx (by simp [Debt.heat, hx'])
  · change p.colors ≤ (s.addEdge p u v).degree.get i
    rw [hdeg]
    have := h.spill_high hi hx
    omega

end Codegen.Coloring.State
