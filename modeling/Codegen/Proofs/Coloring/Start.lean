/-
  The state at the start of graph coloring.

  The edges make the neighbors and the degrees, the moves are told to both of
  their sides, and every virtual node is put on the worklist that fits its
  degree and its moves.  Thus the invariant holds at the start (`inv_start`) and
  after every run (`inv_run_start`).
-/
import Codegen.Coloring.Basic
import Codegen.Proofs.Coloring.Steps

namespace Codegen.Coloring.State

variable {n m : Nat} {p : Problem n m} {s : State n m} {i u v : Fin n}

/-! ## Edges -/

/-- The state with edges and nothing else. -/
def edged (p : Problem n m) (edges : List (Fin n × Fin n)) (s : State n m) : State n m :=
  edges.foldl (fun s (u, v) => s.addEdge p u v) s

variable {edges : List (Fin n × Fin n)}

theorem edged_eq (p : Problem n m) (edges : List (Fin n × Fin n)) (s : State n m) :
    edged p edges s = { s with adjacency := (edged p edges s).adjacency,
                               linked := (edged p edges s).linked,
                               degree := (edged p edges s).degree } := by
  induction edges generalizing s with
  | nil => rfl
  | cons e edges ih =>
    have hcons : edged p (e :: edges) s = edged p edges (s.addEdge p e.1 e.2) := rfl
    rw [hcons, addEdge_eq]
    exact ih _

theorem WellLinked.edged (h : WellLinked p s.adjacency s.linked) (edges : List (Fin n × Fin n)) :
    WellLinked p (State.edged p edges s).adjacency (State.edged p edges s).linked := by
  induction edges generalizing s with
  | nil => exact h
  | cons e edges ih => exact ih (h.addEdge e.1 e.2)

theorem WellLinked.linked_edged (h : WellLinked p s.adjacency s.linked)
    (edges : List (Fin n × Fin n)) {a b : Fin n} :
    (State.edged p edges s).Linked a b ↔
      s.Linked a b ∨ a ≠ b ∧ ((a, b) ∈ edges ∨ (b, a) ∈ edges) := by
  induction edges generalizing s with
  | nil => simp [State.edged]
  | cons e edges ih =>
    obtain ⟨u, v⟩ := e
    refine (ih (h.addEdge u v)).trans ?_
    rw [h.linked_addEdge]
    simp only [List.mem_cons, Prod.mk.injEq, and_comm (a := b = u)]
    constructor
    · rintro ((hab | ⟨hne, ⟨rfl, rfl⟩ | ⟨rfl, rfl⟩⟩) | ⟨hne, hab⟩)
      · exact Or.inl hab
      · exact Or.inr ⟨hne, Or.inl (Or.inl ⟨rfl, rfl⟩)⟩
      · exact Or.inr ⟨Ne.symm hne, Or.inr (Or.inl ⟨rfl, rfl⟩)⟩
      · exact Or.inr ⟨hne, hab.imp Or.inr Or.inr⟩
    · rintro (hab | ⟨hne, (⟨rfl, rfl⟩ | hab) | (⟨rfl, rfl⟩ | hab)⟩)
      · exact Or.inl (Or.inl hab)
      · exact Or.inl (Or.inr ⟨hne, Or.inl ⟨rfl, rfl⟩⟩)
      · exact Or.inr ⟨hne, Or.inl hab⟩
      · exact Or.inl (Or.inr ⟨Ne.symm hne, Or.inr ⟨rfl, rfl⟩⟩)
      · exact Or.inr ⟨hne, Or.inr hab⟩

/-- The degrees count the neighbors. -/
def Counted (p : Problem n m) (s : State n m) : Prop :=
  ∀ i, p.precolored i = false → s.degree.get i = (s.adjacency.get i).length

theorem Counted.addEdge (h : s.Counted p) (u v : Fin n) : (s.addEdge p u v).Counted p := by
  by_cases huv : u = v
  · have e : s.addEdge p u v = s := by simp [State.addEdge, huv]
    rw [e]; exact h
  by_cases hl : s.Linked u v
  · rw [addEdge_of_linked hl]; exact h
  intro i hi
  rw [degree_addEdge huv hl, adjacency_addEdge huv hl, h i hi, List.length_append, hi]
  by_cases hiu : i = u
  · simp [hiu]
  · by_cases hiv : i = v
    · simp [hiv, Ne.symm huv]
    · simp [hiu, hiv]

theorem Counted.edged (h : s.Counted p) (edges : List (Fin n × Fin n)) :
    (State.edged p edges s).Counted p := by
  induction edges generalizing s with
  | nil => exact h
  | cons e edges ih => exact ih (h.addEdge e.1 e.2)

/-! ## Moves -/

theorem mem_movesOf_addMove {k k' : Fin m} :
    k' ∈ (s.addMove p k).movesOf.get i ↔
      k' ∈ s.movesOf.get i ∨ k' = k ∧ ((p.moves.get k).1 = i ∨ (p.moves.get k).2 = i) := by
  unfold addMove
  generalize p.moves.get k = e
  obtain ⟨a, b⟩ := e
  dsimp only
  by_cases hb : i = b
  · subst hb
    rw [Indexed.get_set_self]
    by_cases ha : i = a
    · subst ha; simp
    · rw [Indexed.get_set_ne _ _ ha]; simp [Ne.symm ha]
  · rw [Indexed.get_set_ne _ _ hb]
    by_cases ha : i = a
    · subst ha; simp [Ne.symm hb]
    · rw [Indexed.get_set_ne _ _ ha]; simp [Ne.symm ha, Ne.symm hb]

theorem foldl_addMove_eq (p : Problem n m) (l : List (Fin m)) (s : State n m) :
    l.foldl (addMove p) s = { s with movesOf := (l.foldl (addMove p) s).movesOf } := by
  induction l generalizing s with
  | nil => rfl
  | cons k l ih => rw [List.foldl_cons, ih]; rfl

theorem mem_movesOf_foldl_addMove {l : List (Fin m)} {k : Fin m} :
    k ∈ (l.foldl (addMove p) s).movesOf.get i ↔
      k ∈ s.movesOf.get i ∨ k ∈ l ∧ ((p.moves.get k).1 = i ∨ (p.moves.get k).2 = i) := by
  induction l generalizing s with
  | nil => simp
  | cons j l ih =>
    rw [List.foldl_cons, ih, mem_movesOf_addMove, List.mem_cons]
    constructor
    · rintro ((h | ⟨rfl, h⟩) | ⟨h, h'⟩)
      · exact Or.inl h
      · exact Or.inr ⟨Or.inl rfl, h⟩
      · exact Or.inr ⟨Or.inr h, h'⟩
    · rintro (h | ⟨rfl | h, h'⟩)
      · exact Or.inl (Or.inl h)
      · exact Or.inl (Or.inr ⟨rfl, h'⟩)
      · exact Or.inr ⟨h, h'⟩

/-! ## Worklists -/

/-- The worklists hold the listed virtual nodes, each by its degree and moves. -/
structure Sorted (p : Problem n m) (l : List (Fin n)) (s : State n m) : Prop where
  simplify : ∀ {i}, i ∈ s.simplify ↔ i ∈ l ∧ p.precolored i = false ∧ s.degree.get i < p.colors ∧
    s.moveRelated i = false
  freeze : ∀ {i}, i ∈ s.freeze ↔ i ∈ l ∧ p.precolored i = false ∧ s.degree.get i < p.colors ∧
    s.moveRelated i = true
  spill : ∀ {i}, i ∈ s.spill ↔ i ∈ l ∧ p.precolored i = false ∧ p.colors ≤ s.degree.get i
  nodup_simplify : s.simplify.Nodup
  nodup_freeze : s.freeze.Nodup
  nodup_spill : s.spill.Nodup

theorem classify_eq (p : Problem n m) (s : State n m) (i : Fin n) :
    s.classify p i = { s with simplify := (s.classify p i).simplify,
                              freeze := (s.classify p i).freeze,
                              spill := (s.classify p i).spill } := by
  unfold classify
  split
  · rfl
  · split
    · rfl
    · split <;> rfl

theorem foldl_classify_eq (p : Problem n m) (l : List (Fin n)) (s : State n m) :
    l.foldl (classify p) s = { s with simplify := (l.foldl (classify p) s).simplify,
                                      freeze := (l.foldl (classify p) s).freeze,
                                      spill := (l.foldl (classify p) s).spill } := by
  induction l generalizing s with
  | nil => rfl
  | cons i l ih => rw [List.foldl_cons, classify_eq]; exact ih _

theorem Sorted.classify {l : List (Fin n)} (h : s.Sorted p l) (i : Fin n) :
    (s.classify p i).Sorted p (i :: l) := by
  unfold State.classify
  split
  · next hi =>
    have hne : ∀ {j}, p.precolored j = false → j ≠ i := by rintro j hj rfl; rw [hi] at hj; cases hj
    refine ⟨fun {j} => h.simplify.trans ?_, fun {j} => h.freeze.trans ?_,
      fun {j} => h.spill.trans ?_, h.nodup_simplify, h.nodup_freeze, h.nodup_spill⟩ <;>
    · rw [List.mem_cons]
      exact ⟨fun hj => ⟨Or.inr hj.1, hj.2⟩, fun hj => ⟨hj.1.resolve_left (hne hj.2.1), hj.2⟩⟩
  · next hi =>
    rw [Bool.not_eq_true] at hi
    split
    · next hd =>
      have hd' : ¬ s.degree.get i < p.colors := Nat.not_lt.2 hd
      refine ⟨fun {j} => h.simplify.trans ?_, fun {j} => h.freeze.trans ?_, fun {j} => ?_,
        h.nodup_simplify, h.nodup_freeze, nodup_push h.nodup_spill⟩
      · change _ ↔ _ ∧ _ ∧ _ ∧ s.moveRelated j = _
        by_cases hj : j = i
        · subst hj; simp [hd']
        · simp [hj]
      · change _ ↔ _ ∧ _ ∧ _ ∧ s.moveRelated j = _
        by_cases hj : j = i
        · subst hj; simp [hd']
        · simp [hj]
      · rw [mem_push, h.spill]
        by_cases hj : j = i
        · subst hj; simp [hi, hd]
        · simp [hj]
    · next hd =>
      rw [Nat.not_le] at hd
      split
      · next hm =>
        refine ⟨fun {j} => h.simplify.trans ?_, fun {j} => ?_, fun {j} => h.spill.trans ?_,
          h.nodup_simplify, nodup_push h.nodup_freeze, h.nodup_spill⟩
        · change _ ↔ _ ∧ _ ∧ _ ∧ s.moveRelated j = _
          by_cases hj : j = i
          · subst hj; simp [hm]
          · simp [hj]
        · change j ∈ push i s.freeze ↔ _ ∧ _ ∧ _ ∧ s.moveRelated j = _
          rw [mem_push, h.freeze]
          by_cases hj : j = i
          · subst hj; simp [hi, hd, hm]
          · simp [hj]
        · by_cases hj : j = i
          · subst hj; simp [hd]
          · simp [hj]
      · next hm =>
        rw [Bool.not_eq_true] at hm
        refine ⟨fun {j} => ?_, fun {j} => h.freeze.trans ?_, fun {j} => h.spill.trans ?_,
          nodup_push h.nodup_simplify, h.nodup_freeze, h.nodup_spill⟩
        · change j ∈ push i s.simplify ↔ _ ∧ _ ∧ _ ∧ s.moveRelated j = _
          rw [mem_push, h.simplify]
          by_cases hj : j = i
          · subst hj; simp [hi, hd, hm]
          · simp [hj]
        · change _ ↔ _ ∧ _ ∧ _ ∧ s.moveRelated j = _
          by_cases hj : j = i
          · subst hj; simp [hm]
          · simp [hj]
        · by_cases hj : j = i
          · subst hj; simp [hd]
          · simp [hj]

theorem Sorted.foldl_classify {l l' : List (Fin n)} (h : s.Sorted p l) :
    (l'.foldl (State.classify p) s).Sorted p (l'.reverse ++ l) := by
  induction l' generalizing s l with
  | nil => exact h
  | cons i l' ih => simpa using ih (h.classify i)

/-! ## The start -/

/-- The state with edges and moves, before the nodes are put on worklists. -/
def built (p : Problem n m) (edges : List (Fin n × Fin n)) : State n m :=
  (List.finRange m).foldl (addMove p) (edged p edges blank)

theorem built_eq (p : Problem n m) (edges : List (Fin n × Fin n)) :
    built p edges = { (blank : State n m) with adjacency := (edged p edges blank).adjacency,
                                               linked := (edged p edges blank).linked,
                                               degree := (edged p edges blank).degree,
                                               movesOf := (built p edges).movesOf } := by
  rw [built, foldl_addMove_eq, edged_eq]

theorem start_eq (p : Problem n m) (edges : List (Fin n × Fin n)) :
    start p edges = { built p edges with simplify := (start p edges).simplify,
                                         freeze := (start p edges).freeze,
                                         spill := (start p edges).spill } :=
  foldl_classify_eq p _ _

theorem stack_start (p : Problem n m) (edges : List (Fin n × Fin n)) :
    (start p edges).stack = [] := by
  rw [start_eq, built_eq]; rfl

theorem aliasOf_start (p : Problem n m) (edges : List (Fin n × Fin n)) :
    (start p edges).aliasOf = Vector.replicate n none := by
  rw [start_eq, built_eq]; rfl

theorem wellLinked_blank (p : Problem n m) :
    WellLinked p (blank : State n m).adjacency (blank : State n m).linked := by
  constructor <;> simp [blank, Vector.get]

theorem counted_blank (p : Problem n m) : Counted p blank := by
  intro i _
  simp [blank, Vector.get]

theorem linked_start {a b : Fin n} :
    (start p edges).Linked a b ↔ a ≠ b ∧ ((a, b) ∈ edges ∨ (b, a) ∈ edges) := by
  have e : (start p edges).linked = (edged p edges blank).linked := by rw [start_eq, built_eq]
  have hblank : ¬ (blank : State n m).Linked a b := by simp [Linked, blank, Vector.get]
  have := (wellLinked_blank p).linked_edged edges (a := a) (b := b)
  simp only [hblank, false_or] at this
  rw [← this, Linked, Linked, e]

theorem present_start (i : Fin n) : (start p edges).Present i := by
  constructor
  · simp [stack_start]
  · simp [aliasOf_start, Vector.get]

theorem sorted_start (p : Problem n m) (edges : List (Fin n × Fin n)) :
    (start p edges).Sorted p ((List.finRange n).reverse ++ []) := by
  refine Sorted.foldl_classify (l := []) ?_
  change (built p edges).Sorted p []
  rw [built_eq]
  constructor <;> simp [blank]

/-- **The invariant holds at the start.** -/
theorem inv_start (p : Problem n m) (edges : List (Fin n × Fin n)) : (start p edges).Inv p {} := by
  have hsorted := sorted_start p edges
  have hall : ∀ i, i ∈ (List.finRange n).reverse ++ [] := by simp
  have hactive : ∀ i, (start p edges).Active p i ↔ p.precolored i = false := fun i =>
    ⟨fun h => h.1, fun h => ⟨h, present_start i⟩⟩
  refine
    { linked := ?_, merging := ⟨?_, ?_, ?_, ?_⟩, listed := ?_, stack_nodup := ?_, stacked := ?_,
      stack_closed := ?_, degree := ?_,
      simplify_closed := fun hi _ => (hsorted.simplify.1 hi).2.2.2,
      freeze_low := fun hi _ => (hsorted.freeze.1 hi).2.2.1,
      freeze_open := fun hi _ => (hsorted.freeze.1 hi).2.2.2,
      spill_high := fun hi _ => (hsorted.spill.1 hi).2.2 }
  · rw [start_eq, built_eq]
    exact (wellLinked_blank p).edged edges
  · rw [aliasOf_start]; exact settled_replicate
  · intro i u hi; rw [aliasOf_start] at hi; simp [Vector.get] at hi
  · intro i u hi; rw [aliasOf_start] at hi; simp [Vector.get] at hi
  · intro i k _
    have hchase : ∀ j, chase (start p edges).aliasOf n j = j := fun j =>
      chase_of_none (by simp [aliasOf_start, Vector.get]) n
    have e : (start p edges).movesOf = (built p edges).movesOf := by rw [start_eq]
    have hblank : (edged p edges blank).movesOf = (blank : State n m).movesOf := by rw [edged_eq]
    rw [hchase, hchase, e, built, mem_movesOf_foldl_addMove, hblank]
    simp [blank, Vector.get]
  · refine ⟨fun {i} => ?_, hsorted.nodup_simplify, hsorted.nodup_freeze, hsorted.nodup_spill,
      fun {i} hi => ?_, fun {i} hi => ?_, fun {i} hi => ?_⟩
    · rw [hactive, hsorted.simplify, hsorted.freeze, hsorted.spill]
      simp only [hall i, true_and]
      by_cases hi : p.precolored i = false
      · by_cases hd : (start p edges).degree.get i < p.colors
        · cases (start p edges).moveRelated i <;> simp [hi, hd]
        · simp [hi, Nat.not_lt.1 hd]
      · simp [hi]
    · rw [hsorted.freeze, (hsorted.simplify.1 hi).2.2.2]; simp
    · have := (hsorted.simplify.1 hi).2.2.1
      rw [hsorted.spill]; omega
    · have := (hsorted.freeze.1 hi).2.2.1
      rw [hsorted.spill]; omega
  · rw [stack_start]; exact List.nodup_nil
  · intro i hi; rw [stack_start] at hi; cases hi
  · intro i hi; rw [stack_start] at hi; cases hi
  · intro i hi
    have hpres : ∀ j, (start p edges).Present j := present_start
    have hadj : (start p edges).adjacent i = (start p edges).adjacency.get i :=
      List.filter_eq_self.2 fun j _ => by
        simpa [Present] using hpres j
    have hcount := (counted_blank p).edged edges i hi.1
    rw [hadj, start_eq, built_eq]
    simpa using hcount

/-- The invariant holds after every run. -/
theorem inv_run_start (p : Problem n m) (edges : List (Fin n × Fin n)) (limit : Nat) :
    ((start p edges).run p limit).Inv p {} :=
  run_induction (fun _ _ h hs => h.step hs) limit (inv_start p edges)

end Codegen.Coloring.State
