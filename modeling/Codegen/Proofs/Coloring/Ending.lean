/-
  Graph coloring comes to an end.

  Each step takes a node out of the graph, settles a move that was to be tried,
  or finds a node to be simplified next.  The measure `toDo` counts what is left
  to be done, so the number of steps allowed is enough for every problem
  (`step_run_start`).
-/
import Codegen.Proofs.Coloring.Start

namespace Codegen.Coloring.State

variable {n m : Nat} {p : Problem n m} {s s' : State n m} {i u : Fin n} {k : Fin m}

instance (p : Problem n m) (s : State n m) : DecidablePred (s.Active p) := fun i =>
  inferInstanceAs (Decidable (p.precolored i = false ∧ i ∉ s.stack ∧ s.coalesced i = false))

/-- The virtual nodes that are still in the graph. -/
def actives (p : Problem n m) (s : State n m) : Finset (Fin n) := Finset.univ.filter (s.Active p)

/-- The moves that are to be tried. -/
def pending (s : State n m) : Finset (Fin m) :=
  Finset.univ.filter fun k => s.moveState.get k = .pending

/-- What is left to be done. -/
def toDo (p : Problem n m) (s : State n m) : Nat :=
  (s.actives p).card * (2 * m + 2) + 2 * s.pending.card + if s.simplify = [] then 1 else 0

theorem mem_actives : i ∈ s.actives p ↔ s.Active p i := by simp [actives]

theorem mem_pending : k ∈ s.pending ↔ s.moveState.get k = .pending := by simp [pending]

theorem card_actives_le (p : Problem n m) (s : State n m) : (s.actives p).card ≤ n := by
  simpa using (s.actives p).card_le_univ

theorem card_pending_le (s : State n m) : s.pending.card ≤ m := by
  simpa using s.pending.card_le_univ

/-! ## What each step gets done -/

theorem actives_same (h : SameShape s s') : s'.actives p = s.actives p := by
  ext i
  rw [mem_actives, mem_actives, Active, Active, h.present_iff]

/-- A step that takes a node out of the graph gets something done, whatever
    becomes of the moves. -/
theorem toDo_lt_of_leave (h : (s'.actives p).card < (s.actives p).card) :
    s'.toDo p < s.toDo p := by
  unfold toDo
  have hm := s'.card_pending_le
  have : ((s'.actives p).card + 1) * (2 * m + 2) ≤ (s.actives p).card * (2 * m + 2) :=
    Nat.mul_le_mul_right _ h
  rw [Nat.add_mul] at this
  split <;> split <;> omega

theorem toDo_lt_of_shift (h : s.Inv p {}) (hs : Shift p s s') :
    SameShape s s' ∨ s'.toDo p < s.toDo p := by
  cases hs with
  | same h => exact Or.inl h
  | @stack i hi hsame =>
    have hact := h.listed.active_iff.2 (Or.inl hi)
    refine Or.inr (toDo_lt_of_leave (Finset.card_lt_card ?_))
    refine Finset.ssubset_iff_subset_ne.2 ⟨fun j hj => ?_, fun e => ?_⟩
    · rw [actives_same hsame, mem_actives] at hj
      exact mem_actives.2 ⟨hj.1, fun hs => hj.2.1 (List.mem_cons_of_mem _ hs), hj.2.2⟩
    · have hi := mem_actives.2 hact
      rw [← e, actives_same hsame, mem_actives] at hi
      exact hi.2.1 (List.mem_cons_self ..)
  | @merge u v hm _ hstack halias _ =>
    refine Or.inr (toDo_lt_of_leave (Finset.card_lt_card ?_))
    have hpres : ∀ j, s'.Active p j ↔ s.Active p j ∧ j ≠ v := fun j => by
      rw [Active, Active, present_merge hm hstack halias, and_assoc]
    refine Finset.ssubset_iff_subset_ne.2 ⟨fun j hj => ?_, fun e => ?_⟩
    · exact mem_actives.2 ((hpres j).1 (mem_actives.1 hj)).1
    · have hv := mem_actives.2 hm.active
      rw [← e, mem_actives, hpres] at hv
      exact hv.2 rfl

theorem pending_setMove {o : MoveState} (ho : o ≠ .pending) :
    (s.setMove k o).pending = s.pending.erase k := by
  ext j
  rw [Finset.mem_erase, mem_pending, mem_pending]
  by_cases hj : j = k
  · subst hj; simp [setMove, ho]
  · simp [setMove, Indexed.get_set_ne _ _ hj, hj]

theorem pending_addWorklist : (s.addWorklist p u).pending = s.pending := by
  unfold addWorklist; split <;> rfl

theorem toDo_tryMove (h : s.Inv p {}) (hs : s.simplify = [])
    (hk : s.moveState.get k = .pending) : (s.tryMove p k).toDo p < s.toDo p := by
  have hopen : (s.moveState.get k).isOpen = true := by rw [hk]; rfl
  rcases toDo_lt_of_shift h (h.shift_tryMove hopen) with hsame | hlt
  · -- the move is not to be tried any more
    have hpend : (s.tryMove p k).pending = s.pending.erase k := by
      rcases tryMove_cases h hopen with ⟨-, e⟩ | e | ⟨hm, -, e⟩ | e
      · rw [e, pending_addWorklist, pending_setMove (by simp)]
      · rw [e, pending_addWorklist, pending_addWorklist, pending_setMove (by simp)]
      · -- a merge would have changed the shape
        have hshape := combine_shape (p := p) (s := s.setMove k .coalesced) h.linked
          ⟨hm.present, hm.active, hm.ne, hm.apart, hm.own⟩ h.listed
        have halias := hsame.aliasOf
        rw [e, (sameShape_addWorklist p _ _).aliasOf, hshape.2.1] at halias
        have hv := coalesced_eq_false.1 hm.active.2.2
        rw [← halias] at hv
        change (s.aliasOf.set _ _ _).get _ = none at hv
        rw [Indexed.get_set_self] at hv; cases hv
      · rw [e, pending_setMove (by simp)]
    have hcard := Finset.card_erase_lt_of_mem (mem_pending.2 hk)
    unfold toDo
    rw [actives_same hsame, hpend, if_pos hs]
    split <;> omega
  · exact hlt

theorem pending_freezeMoves (p : Problem n m) (s : State n m) (u : Fin n) :
    (s.freezeMoves p u).pending ⊆ s.pending := by
  have key : ∀ (l : List (Fin m)) (s : State n m),
      (l.foldl (freezeMove p u) s).pending ⊆ s.pending := by
    intro l
    induction l with
    | nil => exact fun s => Finset.Subset.refl _
    | cons k l ih =>
      intro s
      have e : (freezeMove p u s k).pending = (s.setMove k .frozen).pending := by
        rw [freezeMove_eq]; rfl
      refine (ih _).trans ?_
      rw [e, pending_setMove (by simp)]
      exact Finset.erase_subset _ _
  exact key _ _

theorem mem_simplify_freezeMoves (hi : i ∈ s.simplify) : i ∈ (s.freezeMoves p u).simplify := by
  have key : ∀ (l : List (Fin m)) (s : State n m), i ∈ s.simplify →
      i ∈ (l.foldl (freezeMove p u) s).simplify := by
    intro l
    induction l with
    | nil => exact fun s hi => hi
    | cons k l ih => exact fun s hi => ih _ (mem_simplify_freezeMove hi)
  exact key _ _ hi

theorem toDo_freezeMoves (s' : State n m) (hs : s.simplify = []) (hsame : SameShape s s')
    (hu : u ∈ s'.simplify) (hpend : s'.pending = s.pending) :
    (s'.freezeMoves p u).toDo p < s.toDo p := by
  have hcard := Finset.card_le_card (pending_freezeMoves p s' u)
  have hmem := mem_simplify_freezeMoves (p := p) (u := u) hu
  have hne : (s'.freezeMoves p u).simplify ≠ [] := List.ne_nil_of_mem hmem
  rw [hpend] at hcard
  unfold toDo
  rw [actives_same (hsame.trans (sameShape_freezeMoves p s' u)), if_pos hs, if_neg hne]
  omega

/-- **Each step gets something done.** -/
theorem toDo_step (h : s.Inv p {}) (hs : s.step p = some s') : s'.toDo p < s.toDo p := by
  rcases step_cases hs with ⟨i, hi, rfl⟩ | ⟨he, k, hk, rfl⟩ | ⟨he, -, u, -, rfl⟩ | ⟨he, -, u, -, rfl⟩
  · rcases toDo_lt_of_shift h (.stack hi (sameShape_simplifyNode p s i)) with hsame | hlt
    · have := hsame.stack
      rw [(sameShape_simplifyNode p s i).stack] at this
      simp at this
    · exact hlt
  · exact toDo_tryMove h he hk
  · exact toDo_freezeMoves { s with freeze := s.freeze.erase u, simplify := push u s.simplify }
      he ⟨rfl, rfl, rfl⟩ (mem_push.2 (Or.inl rfl)) rfl
  · exact toDo_freezeMoves { s with spill := s.spill.erase u, simplify := push u s.simplify }
      he ⟨rfl, rfl, rfl⟩ (mem_push.2 (Or.inl rfl)) rfl

/-! ## The end -/

theorem toDo_pos (h : s.Inv p {}) : 0 < s.toDo p := by
  unfold toDo
  by_cases hs : s.simplify = []
  · rw [if_pos hs]; omega
  · obtain ⟨i, hi⟩ := List.exists_mem_of_ne_nil _ hs
    have hpos : 0 < (s.actives p).card :=
      Finset.card_pos.2 ⟨i, mem_actives.2 (h.listed.active_iff.2 (Or.inl hi))⟩
    have := Nat.mul_pos hpos (by omega : 0 < 2 * m + 2)
    omega

/-- A run that is allowed as many steps as there are things to be done ends. -/
theorem step_run {limit : Nat} (h : s.Inv p {}) (hl : s.toDo p ≤ limit) :
    (s.run p limit).step p = none := by
  induction limit generalizing s with
  | zero => exact absurd (toDo_pos h) (by omega)
  | succ limit ih =>
    unfold run
    split
    · next hs => exact hs
    · next s' hs =>
      have := toDo_step h hs
      exact ih (h.step hs) (by omega)

theorem toDo_le (p : Problem n m) (s : State n m) : s.toDo p ≤ stepLimit n m := by
  have hn := card_actives_le p s
  have hm := s.card_pending_le
  have hmul : (s.actives p).card * (2 * m + 2) ≤ n * (2 * m + 2) := Nat.mul_le_mul_right _ hn
  have hlimit : n * (2 * m + 2) + 2 * m + 1 ≤ stepLimit n m := by
    unfold stepLimit
    nlinarith [Nat.zero_le n, Nat.zero_le m, Nat.zero_le (n * m), Nat.zero_le (n * n * m * m),
      Nat.zero_le (n * m * m), Nat.zero_le (n * n * m), Nat.zero_le (n * n), Nat.zero_le (m * m)]
  unfold toDo
  split <;> omega

/-- **The number of steps allowed is enough.** -/
theorem step_run_start (p : Problem n m) (edges : List (Fin n × Fin n)) :
    ((start p edges).run p (stepLimit n m)).step p = none :=
  step_run (inv_start p edges) (toDo_le p _)

/-- In the end no virtual node is left in the graph. -/
theorem not_active_of_step (h : s.Inv p {}) (hs : s.step p = none) (i : Fin n) :
    ¬ s.Active p i := by
  intro hi
  unfold step at hs
  split at hs
  · cases hs
  · next hsimplify =>
    split at hs
    · cases hs
    · split at hs
      · cases hs
      · next hfreeze =>
        rw [Option.map_eq_none_iff] at hs
        rcases h.listed.active_iff.1 hi with hi | hi | hi
        · rw [hsimplify] at hi; cases hi
        · rw [hfreeze] at hi; cases hi
        · rw [spill_eq_nil_of_pickSpill hs] at hi; cases hi

end Codegen.Coloring.State
