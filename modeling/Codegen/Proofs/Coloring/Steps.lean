/-
  The steps of graph coloring keep the invariant.

  A step simplifies a node, tries a move, freezes a node or chooses one to be
  spilled.  `Inv.step` says that each keeps the invariant; `Inv.run` that every
  run does.
-/
import Codegen.Proofs.Coloring.Shape

namespace Codegen.Coloring.State

variable {n m : Nat} {p : Problem n m} {s s' : State n m} {x : Debt n} {i u v : Fin n} {k : Fin m}

/-! ## Closing moves -/

section
variable {o : MoveState}

theorem mem_openMoves_setMove (ho : o.isOpen = false) {j : Fin m} :
    j ∈ (s.setMove k o).openMoves i ↔ j ∈ s.openMoves i ∧ j ≠ k := by
  rw [mem_openMoves, mem_openMoves]
  by_cases hj : j = k
  · subst hj; simp [setMove, ho]
  · simp only [setMove, Indexed.get_set_ne _ _ hj]
    simp [hj]

/-- A move is given an outcome; its two nodes may have lost their last move. -/
theorem Inv.close (h : s.Inv p x) (ho : o.isOpen = false) :
    (s.setMove k o).Inv p ((x.loosen (s.representative (p.moves.get k).1)).loosen
      (s.representative (p.moves.get k).2)) where
  linked := h.linked
  merging := h.merging
  listed := h.listed
  stack_nodup := h.stack_nodup
  stacked := h.stacked
  stack_closed hi := moveRelated_eq_false.2 fun j hj =>
    moveRelated_eq_false.1 (h.stack_closed hi) j ((mem_openMoves_setMove ho).1 hj).1
  degree := h.degree
  simplify_closed hi hx := moveRelated_eq_false.2 fun j hj =>
    moveRelated_eq_false.1 (h.simplify_closed hi hx) j ((mem_openMoves_setMove ho).1 hj).1
  freeze_low := h.freeze_low
  freeze_open {i} hi hx := by
    simp only [Debt.loosen, List.mem_cons, not_or] at hx
    obtain ⟨j, hj⟩ := moveRelated_iff.1 (h.freeze_open hi hx.2.2)
    refine moveRelated_iff.2 ⟨j, (mem_openMoves_setMove ho).2 ⟨hj, ?_⟩⟩
    rintro rfl
    have hact := h.listed.active_iff.2 (Or.inr (Or.inl hi))
    rcases (h.mem_movesOf hact.2.2).1 (mem_openMoves.1 hj).1 with e | e
    · exact hx.2.1 e.symm
    · exact hx.1 e.symm
  spill_high := h.spill_high

end

/-- A node that may have lost its last move is put on the right worklist. -/
theorem Inv.addWorklist (h : s.Inv p (x.loosen u)) (hu : s.Present u) (hheat : u ∉ x.heated)
    (hcool : u ∉ x.cooled) : (s.addWorklist p u).Inv p x := by
  unfold State.addWorklist
  split
  · next hc =>
    refine h.settleLoosened fun hf => ?_
    have hact := h.listed.active_iff.2 (Or.inr (Or.inl hf))
    have hlow := h.freeze_low hf hheat
    simp only [Bool.or_eq_true, decide_eq_true_eq, hact.1, Bool.false_eq_true, false_or] at hc
    exact hc.resolve_right (by omega)
  · next hc =>
    simp only [Bool.or_eq_true, decide_eq_true_eq, not_or, Bool.not_eq_true, not_le] at hc
    obtain ⟨⟨hpre, hclosed⟩, hlow⟩ := hc
    have hspill : u ∉ s.spill := fun hs => by
      have := h.spill_high hs hcool
      omega
    have := (Inv.toSimplify ((h.heat u).cool u) ⟨hpre, hu⟩).settleKept hclosed
    rwa [List.erase_of_not_mem hspill] at this

/-! ## Trying moves -/

/-- The two nodes of a move, a physical one first. -/
def ends (p : Problem n m) (s : State n m) (k : Fin m) : Fin n × Fin n :=
  let a := s.representative (p.moves.get k).1
  let b := s.representative (p.moves.get k).2
  if p.precolored b then (b, a) else (a, b)

theorem ends_cases (p : Problem n m) (s : State n m) (k : Fin m) :
    s.ends p k = (s.representative (p.moves.get k).1, s.representative (p.moves.get k).2) ∨
      s.ends p k = (s.representative (p.moves.get k).2, s.representative (p.moves.get k).1) := by
  unfold ends
  dsimp only
  split
  · exact Or.inr rfl
  · exact Or.inl rfl

theorem Inv.close_ends {o : MoveState} (h : s.Inv p {}) (ho : o.isOpen = false) :
    (s.setMove k o).Inv p ((Debt.loosen {} (s.ends p k).2).loosen (s.ends p k).1) := by
  have hc := h.close (k := k) ho
  rcases ends_cases p s k with e | e <;> rw [e]
  · exact hc.weaken rfl (by simp [Debt.loosen]) (by simp [Debt.loosen]) (by simp [Debt.loosen])
      (by simp [Debt.loosen])
  · exact hc

theorem Inv.present_ends (h : s.Inv p x) (hk : (s.moveState.get k).isOpen = true) :
    s.Present (s.ends p k).1 ∧ s.Present (s.ends p k).2 := by
  have h₁ := h.present_representative hk (Or.inl rfl)
  have h₂ := h.present_representative hk (Or.inr rfl)
  rcases ends_cases p s k with e | e <;> rw [e]
  · exact ⟨h₁, h₂⟩
  · exact ⟨h₂, h₁⟩

/-- The merge of `u` and `v` is safe. -/
def Safe (p : Problem n m) (s : State n m) (u v : Fin n) : Prop :=
  p.precolored u = true ∧ s.mergeSafe p u v = true ∨
    p.precolored u = false ∧ s.unionSafe p u v = true

/-- What trying a move does to its two nodes. -/
theorem tryMove_eq (p : Problem n m) (s : State n m) (k : Fin m) : s.tryMove p k =
    if (s.ends p k).1 = (s.ends p k).2 then addWorklist p (s.setMove k .coalesced) (s.ends p k).1
    else if p.precolored (s.ends p k).2 || (s.linked.get (s.ends p k).1).get (s.ends p k).2 ||
        p.foreign (s.ends p k).1 then
      addWorklist p (addWorklist p (s.setMove k .constrained) (s.ends p k).1) (s.ends p k).2
    else if (p.precolored (s.ends p k).1 && s.mergeSafe p (s.ends p k).1 (s.ends p k).2) ||
        (!p.precolored (s.ends p k).1 && s.unionSafe p (s.ends p k).1 (s.ends p k).2) then
      addWorklist p (combine p (s.setMove k .coalesced) (s.ends p k).1 (s.ends p k).2) (s.ends p k).1
    else s.setMove k .active := rfl

/-- What may become of a move that is tried. -/
theorem tryMove_cases (h : s.Inv p x) (hk : (s.moveState.get k).isOpen = true) :
    ((s.ends p k).1 = (s.ends p k).2 ∧
      s.tryMove p k = (s.setMove k .coalesced).addWorklist p (s.ends p k).1) ∨
    (s.tryMove p k =
      ((s.setMove k .constrained).addWorklist p (s.ends p k).1).addWorklist p (s.ends p k).2) ∨
    (Mergeable p s (s.ends p k).1 (s.ends p k).2 ∧ Safe p s (s.ends p k).1 (s.ends p k).2 ∧
      s.tryMove p k = ((s.setMove k .coalesced).combine p (s.ends p k).1
        (s.ends p k).2).addWorklist p (s.ends p k).1) ∨
    s.tryMove p k = s.setMove k .active := by
  obtain ⟨hu, hv⟩ := h.present_ends hk
  rw [tryMove_eq]
  generalize s.ends p k = uv at hu hv
  obtain ⟨u, v⟩ := uv
  dsimp only at hu hv ⊢
  split
  · next huv => exact Or.inl ⟨huv, rfl⟩
  · next huv =>
    split
    · exact Or.inr (Or.inl rfl)
    · next hc =>
      simp only [Bool.or_eq_true, not_or, Bool.not_eq_true] at hc
      split
      · next hsafe =>
        refine Or.inr (Or.inr (Or.inl ⟨⟨hu, ⟨hc.1.1, hv⟩, huv, ?_, hc.2⟩, ?_, rfl⟩))
        · exact fun hl => by rw [Linked, hc.1.2] at hl; cases hl
        · simpa [Safe] using hsafe
      · exact Or.inr (Or.inr (Or.inr rfl))

theorem Inv.tryMove (h : s.Inv p {}) (hs : s.simplify = [])
    (hk : (s.moveState.get k).isOpen = true) : (s.tryMove p k).Inv p {} := by
  obtain ⟨hu, hv⟩ := h.present_ends hk
  rcases tryMove_cases h hk with ⟨huv, e⟩ | e | ⟨hm, -, e⟩ | e <;> rw [e]
  · have hc := h.close_ends (k := k) (o := .coalesced) rfl
    rw [← huv] at hc
    have hc' := hc.weaken (y := Debt.loosen {} (s.ends p k).1) rfl (by simp [Debt.loosen])
      (by simp [Debt.loosen]) (by simp [Debt.loosen]) (by simp [Debt.loosen])
    exact hc'.addWorklist hu (by simp) (by simp)
  · have hc := h.close_ends (k := k) (o := .constrained) rfl
    refine Inv.addWorklist (hc.addWorklist hu (by simp [Debt.loosen]) (by simp [Debt.loosen])) ?_
      (by simp) (by simp)
    exact (sameShape_addWorklist p _ _).present_iff.2 hv
  · have hc := h.close_ends (k := k) (o := .coalesced) rfl
    have hm' : Mergeable p (s.setMove k .coalesced) (s.ends p k).1 (s.ends p k).2 :=
      ⟨hm.present, hm.active, hm.ne, hm.apart, hm.own⟩
    have hc' := hc.weaken (y := Debt.loosen ⟨[], [], [(s.ends p k).1], [], []⟩ (s.ends p k).2) rfl
      (by simp [Debt.loosen]) (by simp [Debt.loosen]) (by simp [Debt.loosen]) (by simp [Debt.loosen])
    refine Inv.addWorklist (x := {}) (hc'.combine hs hm') ?_ (by simp) (by simp)
    exact (present_combine hc.linked hm' hc.listed).2 ⟨hm.present, hm.ne⟩
  · exact h.sameOpen (setMove_sameOpen hk)

/-! ## Freezing -/

/-- Gives up one move of `u`. -/
def freezeMove (p : Problem n m) (u : Fin n) (s : State n m) (k : Fin m) : State n m :=
  let a := s.representative (p.moves.get k).1
  let v := if a = s.representative u then s.representative (p.moves.get k).2 else a
  let s := s.setMove k .frozen
  if !p.precolored v && !s.moveRelated v && decide (s.degree.get v < p.colors) &&
      s.freeze.contains v then
    { s with freeze := s.freeze.erase v, simplify := push v s.simplify }
  else s

theorem freezeMoves_eq (p : Problem n m) (s : State n m) (u : Fin n) :
    s.freezeMoves p u = (s.openMoves u).foldl (freezeMove p u) s := rfl

/-- What giving up a move leaves alone. -/
theorem freezeMove_eq (p : Problem n m) (u : Fin n) (s : State n m) (k : Fin m) :
    freezeMove p u s k =
      { s with moveState := s.moveState.set k .frozen k.isLt,
               simplify := (freezeMove p u s k).simplify,
               freeze := (freezeMove p u s k).freeze } := by
  unfold freezeMove
  dsimp only
  generalize (if s.representative (p.moves.get k).1 = s.representative u then
    s.representative (p.moves.get k).2 else s.representative (p.moves.get k).1) = v
  split <;> rfl

theorem mem_simplify_freezeMove (hi : i ∈ s.simplify) : i ∈ (freezeMove p u s k).simplify := by
  unfold freezeMove
  dsimp only
  generalize (if s.representative (p.moves.get k).1 = s.representative u then
    s.representative (p.moves.get k).2 else s.representative (p.moves.get k).1) = v
  split
  · exact mem_push.2 (Or.inr hi)
  · exact hi

theorem Inv.freezeMove (h : s.Inv p (Debt.keep {} u)) (hu : u ∈ s.simplify)
    (hk : s.representative (p.moves.get k).1 = u ∨ s.representative (p.moves.get k).2 = u) :
    (State.freezeMove p u s k).Inv p (Debt.keep {} u) := by
  have hact := h.listed.active_iff.2 (Or.inl hu)
  have hrep : s.representative u = u := representative_of_not_coalesced hact.2.2
  -- only the other end of the move can have lost its last one
  obtain ⟨v, hv, hc⟩ : ∃ v, v = (if s.representative (p.moves.get k).1 = s.representative u then
      s.representative (p.moves.get k).2 else s.representative (p.moves.get k).1) ∧
      (s.setMove k .frozen).Inv p (((Debt.keep {} u).loosen v).loosen u) := by
    refine ⟨_, rfl, (h.close (k := k) (o := .frozen) rfl).weaken rfl (List.Subset.refl _) ?_
      (List.Subset.refl _) (List.Subset.refl _)⟩
    rw [hrep]
    rcases hk with e | e
    · simp [Debt.loosen, e]
    · rw [e]
      by_cases ha : s.representative (p.moves.get k).1 = u <;> simp [Debt.loosen, ha]
  replace hc := hc.settleLoosened fun hf => absurd hf (h.listed.simplify_freeze hu)
  unfold State.freezeMove
  dsimp only
  rw [← hv]
  split
  · next hcond =>
    simp only [Bool.and_eq_true, Bool.not_eq_true', decide_eq_true_eq, List.contains_eq_mem] at hcond
    obtain ⟨⟨⟨-, hclosed⟩, -⟩, hf⟩ := hcond
    have hactv := hc.listed.active_iff.2 (Or.inr (Or.inl hf))
    have hs := (Inv.toSimplify ((hc.heat v).cool v) hactv).settleKept hclosed
    rwa [List.erase_of_not_mem (hc.listed.freeze_spill hf)] at hs
  · next hcond =>
    refine hc.settleLoosened fun hf => ?_
    have hactv := hc.listed.active_iff.2 (Or.inr (Or.inl hf))
    have hlow := hc.freeze_low hf (by simp [Debt.keep, Debt.loosen])
    simpa [hactv.1, hlow, hf] using hcond

/-- All moves of a simple node are given up in turn. -/
theorem Inv.foldl_freezeMove {l : List (Fin m)} (h : s.Inv p (Debt.keep {} u))
    (hu : u ∈ s.simplify)
    (hl : ∀ k ∈ l, s.representative (p.moves.get k).1 = u ∨ s.representative (p.moves.get k).2 = u)
    (hopen : ∀ k ∈ s.openMoves u, k ∈ l) : (l.foldl (State.freezeMove p u) s).Inv p {} := by
  induction l generalizing s with
  | nil => exact h.settleKept (moveRelated_eq_false.2 fun k hk => by simpa using hopen k hk)
  | cons k l ih =>
    refine ih (h.freezeMove hu (hl k (by simp))) (mem_simplify_freezeMove hu) ?_ ?_
    · intro j hj
      rw [freezeMove_eq]
      exact hl j (by simp [hj])
    · intro j hj
      rw [freezeMove_eq] at hj
      obtain ⟨hj, hjk⟩ := (mem_openMoves_setMove (s := s) (o := .frozen) rfl).1 hj
      exact (List.mem_cons.1 (hopen j hj)).resolve_left hjk

theorem Inv.freezeMoves (h : s.Inv p (Debt.keep {} u)) (hu : u ∈ s.simplify) :
    (s.freezeMoves p u).Inv p {} := by
  have hact := h.listed.active_iff.2 (Or.inl hu)
  rw [freezeMoves_eq]
  exact h.foldl_freezeMove hu (fun k hk => (h.mem_movesOf hact.2.2).1 (mem_openMoves.1 hk).1)
    fun _ hk => hk

theorem Inv.freezeNode (h : s.Inv p {}) (hu : u ∈ s.freeze) : (s.freezeNode p u).Inv p {} := by
  have hact := h.listed.active_iff.2 (Or.inr (Or.inl hu))
  have hs := Inv.toSimplify (((h.heat u).loosen u).cool u) hact
  rw [List.erase_of_not_mem (h.listed.freeze_spill hu)] at hs
  exact hs.freezeMoves (mem_push.2 (Or.inl rfl))

theorem Inv.spillNode (h : s.Inv p {}) (hu : u ∈ s.spill) : (s.spillNode p u).Inv p {} := by
  have hact := h.listed.active_iff.2 (Or.inr (Or.inr hu))
  have hs := Inv.toSimplify (((h.heat u).loosen u).cool u) hact
  rw [List.erase_of_not_mem fun hf => h.listed.freeze_spill hf hu] at hs
  exact hs.freezeMoves (mem_push.2 (Or.inl rfl))

/-- The node to be spilled is one of the spill worklist. -/
theorem mem_of_pickSpill (hu : s.pickSpill p = some u) : u ∈ s.spill := by
  -- a step keeps the pick or takes the node
  have key : ∀ (f : Option (Fin n) → Fin n → Option (Fin n)),
      (∀ pick i, f pick i = some i ∨ f pick i = pick) → ∀ (l : List (Fin n)) (pick : Option (Fin n)),
      l.foldl f pick = some u → u ∈ l ∨ pick = some u := by
    intro f hf l
    induction l with
    | nil => exact fun pick h => Or.inr h
    | cons i l ih =>
      intro pick h
      rcases ih _ h with h | h
      · exact Or.inl (List.mem_cons_of_mem _ h)
      · rcases hf pick i with e | e
        · exact Or.inl (Option.some.inj (e.symm.trans h) ▸ List.mem_cons_self)
        · exact Or.inr (e.symm.trans h)
  refine (key _ (fun pick i => ?_) _ _ hu).elim List.mem_reverse.1 fun h => by cases h
  cases pick with
  | none => exact Or.inl rfl
  | some j =>
    by_cases hc : s.cheaper p i j = true
    · exact Or.inl (if_pos hc)
    · exact Or.inr (if_neg hc)

theorem spill_eq_nil_of_pickSpill (h : s.pickSpill p = none) : s.spill = [] := by
  -- what is picked once is only replaced
  have key : ∀ (f : Option (Fin n) → Fin n → Option (Fin n)),
      (∀ i j, f (some j) i = some i ∨ f (some j) i = some j) → ∀ (l : List (Fin n)) (j : Fin n),
      l.foldl f (some j) ≠ none := by
    intro f hf l
    induction l with
    | nil => exact fun j => Option.some_ne_none j
    | cons i l ih =>
      intro j
      rw [List.foldl_cons]
      rcases hf i j with e | e
      · rw [e]; exact ih i
      · rw [e]; exact ih j
  cases hs : s.spill.reverse with
  | nil => exact List.reverse_eq_nil_iff.1 hs
  | cons i l =>
    rw [pickSpill, hs, List.foldl_cons] at h
    refine absurd h (key _ (fun i j => ?_) l i)
    by_cases hc : s.cheaper p i j = true
    · exact Or.inl (if_pos hc)
    · exact Or.inr (if_neg hc)

/-! ## Runs -/

/-- What a step does. -/
theorem step_cases (h : s.step p = some s') :
    (∃ i ∈ s.simplify, s' = s.simplifyNode p i) ∨
    (s.simplify = [] ∧ ∃ k, s.moveState.get k = .pending ∧ s' = s.tryMove p k) ∨
    (s.simplify = [] ∧ (∀ k, s.moveState.get k ≠ .pending) ∧ ∃ u ∈ s.freeze, s' = s.freezeNode p u) ∨
    (s.simplify = [] ∧ s.freeze = [] ∧ ∃ u ∈ s.spill, s' = s.spillNode p u) := by
  unfold State.step at h
  split at h
  · next i l hs =>
    exact Or.inl ⟨i, by simp [hs], (Option.some.inj h).symm⟩
  · next hs =>
    split at h
    · next k hk =>
      exact Or.inr (Or.inl ⟨hs, k, by simpa using List.find?_some hk, (Option.some.inj h).symm⟩)
    · next hnone =>
      split at h
      · next u l hf =>
        refine Or.inr (Or.inr (Or.inl ⟨hs, fun k hk => ?_, u, by simp [hf],
          (Option.some.inj h).symm⟩))
        simpa [hk] using List.find?_eq_none.1 hnone k (List.mem_finRange k)
      · next hf =>
        obtain ⟨u, hu, rfl⟩ := Option.map_eq_some_iff.1 h
        exact Or.inr (Or.inr (Or.inr ⟨hs, hf, u, mem_of_pickSpill hu, rfl⟩))

/-- **Every step keeps the invariant.** -/
theorem Inv.step (h : s.Inv p {}) (hs : s.step p = some s') : s'.Inv p {} := by
  rcases step_cases hs with ⟨i, hi, rfl⟩ | ⟨he, k, hk, rfl⟩ | ⟨-, -, u, hu, rfl⟩ | ⟨-, -, u, hu, rfl⟩
  · exact h.simplifyNode hi
  · exact h.tryMove he (by rw [hk]; rfl)
  · exact h.freezeNode hu
  · exact h.spillNode hu

/-- What a step does to the shape: nothing, or it stacks a simple node, or it
    merges the two nodes of a move. -/
inductive Shift (p : Problem n m) (s s' : State n m) : Prop
  | same (h : SameShape s s')
  | stack {i : Fin n} (hi : i ∈ s.simplify) (h : SameShape { s with stack := i :: s.stack } s')
  | merge {u v : Fin n} (hm : Mergeable p s u v) (hsafe : Safe p s u v)
      (hstack : s'.stack = s.stack) (halias : s'.aliasOf = s.aliasOf.set v (some u) v.isLt)
      (hlinked : ∀ a b, s'.Linked a b ↔
        s.Linked a b ∨ a = u ∧ b ∈ s.adjacent v ∨ b = u ∧ a ∈ s.adjacent v)
      (hends : ∃ k, s.ends p k = (u, v))

theorem Inv.shift_tryMove (h : s.Inv p x) (hk : (s.moveState.get k).isOpen = true) :
    Shift p s (s.tryMove p k) := by
  have hset : ∀ o, SameShape s (s.setMove k o) := fun _ => ⟨rfl, rfl, rfl⟩
  rcases tryMove_cases h hk with ⟨-, e⟩ | e | ⟨hm, hsafe, e⟩ | e <;> rw [e]
  · exact .same ((hset _).trans (sameShape_addWorklist _ _ _))
  · exact .same (((hset _).trans (sameShape_addWorklist _ _ _)).trans (sameShape_addWorklist _ _ _))
  · have hm' : Mergeable p (s.setMove k .coalesced) (s.ends p k).1 (s.ends p k).2 :=
      ⟨hm.present, hm.active, hm.ne, hm.apart, hm.own⟩
    obtain ⟨hstack, halias, hlinked⟩ :=
      combine_shape (s := s.setMove k .coalesced) h.linked hm' h.listed
    have hsame := sameShape_addWorklist p ((s.setMove k .coalesced).combine p (s.ends p k).1
      (s.ends p k).2) (s.ends p k).1
    refine .merge hm hsafe (hsame.stack.trans hstack) (hsame.aliasOf.trans halias) (fun a b => ?_)
      ⟨k, rfl⟩
    rw [Linked, hsame.linked]
    exact hlinked a b
  · exact .same (hset _)

theorem sameShape_freezeMoves (p : Problem n m) (s : State n m) (u : Fin n) :
    SameShape s (s.freezeMoves p u) :=
  SameShape.foldl (fun s k => by
    change SameShape s (State.freezeMove p u s k)
    rw [freezeMove_eq]; exact ⟨rfl, rfl, rfl⟩) _ _

/-- **Every step shifts the shape.** -/
theorem Inv.shift (h : s.Inv p {}) (hs : s.step p = some s') : Shift p s s' := by
  rcases step_cases hs with ⟨i, hi, rfl⟩ | ⟨-, k, hk, rfl⟩ | ⟨-, -, u, -, rfl⟩ | ⟨-, -, u, -, rfl⟩
  · exact .stack hi (sameShape_simplifyNode p s i)
  · exact h.shift_tryMove (by rw [hk]; rfl)
  · have hf := sameShape_freezeMoves p
      { s with freeze := s.freeze.erase u, simplify := push u s.simplify } u
    exact .same ⟨hf.stack, hf.aliasOf, hf.linked⟩
  · have hf := sameShape_freezeMoves p
      { s with spill := s.spill.erase u, simplify := push u s.simplify } u
    exact .same ⟨hf.stack, hf.aliasOf, hf.linked⟩

/-- What every step keeps, every run keeps. -/
theorem run_induction {P : State n m → Prop} (hstep : ∀ s s', P s → s.step p = some s' → P s')
    (limit : Nat) (hs : P s) : P (s.run p limit) := by
  induction limit generalizing s with
  | zero => exact hs
  | succ limit ih =>
    unfold State.run
    split
    · exact hs
    · next s' h => exact ih (hstep s s' hs h)

end Codegen.Coloring.State
