/-
  The invariant of graph coloring.

  Between two steps, the worklists, the select stack and the coalesced nodes
  share out the virtual nodes; the degree of a node is the number of its
  neighbors that are still in the graph; and a node has the moves of all nodes
  that it stands for (`Inv`).

  In the middle of a step some of this does not hold yet for some nodes.  A
  `Debt` lists them, and the statements about the parts of a step say which
  debts they make and which they settle.
-/
import Codegen.Proofs.Coloring.Alias

namespace Codegen.Coloring

section
variable {α : Type} [DecidableEq α] {a b : α} {l : List α}

@[simp] theorem mem_push : b ∈ push a l ↔ b = a ∨ b ∈ l := by
  unfold push
  split
  · next h =>
    constructor
    · exact Or.inr
    · rintro (rfl | hb)
      · exact h
      · exact hb
  · exact List.mem_cons

theorem nodup_push (h : l.Nodup) : (push a l).Nodup := by
  unfold push
  split
  · exact h
  · next ha => exact List.nodup_cons.2 ⟨ha, h⟩

end

variable {n m : Nat} {p : Problem n m}

namespace State

variable {s : State n m} {i u v : Fin n}

/-! ## Views of a state -/

/-- Are the two nodes neighbors? -/
def Linked (s : State n m) (u v : Fin n) : Prop := (s.linked.get u).get v = true

/-- The node is still in the graph. -/
def Present (s : State n m) (i : Fin n) : Prop := i ∉ s.stack ∧ s.coalesced i = false

/-- The node is a virtual register that is still in the graph. -/
def Active (p : Problem n m) (s : State n m) (i : Fin n) : Prop :=
  p.precolored i = false ∧ s.Present i

theorem mem_adjacent : v ∈ s.adjacent u ↔ v ∈ s.adjacency.get u ∧ s.Present v := by
  simp [adjacent, Present]

theorem mem_openMoves {k : Fin m} :
    k ∈ s.openMoves i ↔ k ∈ s.movesOf.get i ∧ (s.moveState.get k).isOpen = true := by
  simp [openMoves]

theorem moveRelated_eq_false : s.moveRelated i = false ↔ ∀ k, k ∉ s.openMoves i := by
  rw [moveRelated, Bool.not_eq_false', List.isEmpty_iff, List.eq_nil_iff_forall_not_mem]

theorem moveRelated_iff : s.moveRelated i = true ↔ ∃ k, k ∈ s.openMoves i := by
  rw [← Bool.not_eq_false, moveRelated_eq_false, not_forall_not]

/-! ## The invariant -/

/-- Neighborhood is symmetric, no node is its own neighbor, and a virtual node
    lists each of its neighbors once. -/
structure WellLinked (p : Problem n m) (adjacency : Vector (List (Fin n)) n)
    (linked : Vector (Vector Bool n) n) : Prop where
  symm : ∀ {u v}, (linked.get u).get v = true → (linked.get v).get u = true
  irrefl : ∀ u, (linked.get u).get u = false
  mem_adjacency : ∀ {u v}, p.precolored u = false →
    (v ∈ adjacency.get u ↔ (linked.get u).get v = true)
  nodup : ∀ {u}, p.precolored u = false → (adjacency.get u).Nodup

/-- The nodes for which a part of the invariant is not restored yet. -/
structure Debt (n : Nat) where
  /-- A neighbor has left the graph and the degree still counts it. -/
  lagging : List (Fin n) := []
  /-- The node is to be frozen although its degree may have grown. -/
  heated : List (Fin n) := []
  /-- The node is to be frozen although its last move may be gone. -/
  loosened : List (Fin n) := []
  /-- The node is to be spilled although its degree may have dropped. -/
  cooled : List (Fin n) := []
  /-- The node is simple although it may have moves. -/
  kept : List (Fin n) := []

namespace Debt

variable (x : Debt n) (i : Fin n)

/-- The debt, and the degree of `i` is one too large. -/
def lag : Debt n := { x with lagging := i :: x.lagging }

/-- The debt, and the degree of `i` may be too large for its worklist. -/
def heat : Debt n := { x with heated := i :: x.heated }

/-- The debt, and `i` may have lost its last move. -/
def loosen : Debt n := { x with loosened := i :: x.loosened }

/-- The debt, and the degree of `i` may be too small for its worklist. -/
def cool : Debt n := { x with cooled := i :: x.cooled }

/-- The debt, and `i` may have moves. -/
def keep : Debt n := { x with kept := i :: x.kept }

end Debt

/-- Three worklists share out the active nodes. -/
structure Listed (active : Fin n → Prop) (simplify freeze spill : List (Fin n)) : Prop where
  active_iff : ∀ {i}, active i ↔ i ∈ simplify ∨ i ∈ freeze ∨ i ∈ spill
  nodup_simplify : simplify.Nodup
  nodup_freeze : freeze.Nodup
  nodup_spill : spill.Nodup
  simplify_freeze : ∀ {i}, i ∈ simplify → i ∉ freeze
  simplify_spill : ∀ {i}, i ∈ simplify → i ∉ spill
  freeze_spill : ∀ {i}, i ∈ freeze → i ∉ spill

/-- A node is merged into a node that it may share a color with, and stands for
    the moves of all nodes merged into it. -/
structure Merging (p : Problem n m) (aliasOf : Vector (Option (Fin n)) n)
    (movesOf : Vector (List (Fin m)) n) : Prop where
  settled : Settled aliasOf
  virtual : ∀ {i u}, aliasOf.get i = some u → p.precolored i = false
  own : ∀ {i u}, aliasOf.get i = some u → p.foreign u = false
  mem_movesOf : ∀ {i k}, aliasOf.get i = none →
    (k ∈ movesOf.get i ↔ chase aliasOf n (p.moves.get k).1 = i ∨ chase aliasOf n (p.moves.get k).2 = i)

/-- The invariant of a state, up to a debt. -/
structure Inv (p : Problem n m) (x : Debt n) (s : State n m) : Prop where
  linked : WellLinked p s.adjacency s.linked
  merging : Merging p s.aliasOf s.movesOf
  listed : Listed (s.Active p) s.simplify s.freeze s.spill
  stack_nodup : s.stack.Nodup
  stacked : ∀ {i}, i ∈ s.stack → p.precolored i = false ∧ s.coalesced i = false
  stack_closed : ∀ {i}, i ∈ s.stack → s.moveRelated i = false
  degree : ∀ {i}, s.Active p i →
    s.degree.get i = (s.adjacent i).length + if i ∈ x.lagging then 1 else 0
  simplify_closed : ∀ {i}, i ∈ s.simplify → i ∉ x.kept → s.moveRelated i = false
  freeze_low : ∀ {i}, i ∈ s.freeze → i ∉ x.heated → s.degree.get i < p.colors
  freeze_open : ∀ {i}, i ∈ s.freeze → i ∉ x.loosened → s.moveRelated i = true
  spill_high : ∀ {i}, i ∈ s.spill → i ∉ x.cooled → p.colors ≤ s.degree.get i

namespace Inv

variable {x : Debt n}

theorem present_of_precolored (h : s.Inv p x) (hi : p.precolored i = true) : s.Present i := by
  refine ⟨fun hs => ?_, ?_⟩
  · rw [(h.stacked hs).1] at hi; cases hi
  · cases hc : s.aliasOf.get i with
    | none => exact coalesced_eq_false.2 hc
    | some u => rw [h.merging.virtual hc] at hi; cases hi

theorem coalesced_representative (h : s.Inv p x) (i : Fin n) :
    s.coalesced (s.representative i) = false :=
  State.coalesced_representative h.merging.settled i

theorem mem_movesOf (h : s.Inv p x) {k : Fin m} (hi : s.coalesced i = false) :
    k ∈ s.movesOf.get i ↔
      s.representative (p.moves.get k).1 = i ∨ s.representative (p.moves.get k).2 = i :=
  h.merging.mem_movesOf (coalesced_eq_false.1 hi)

/-- The two nodes that an open move is about are still in the graph. -/
theorem present_representative (h : s.Inv p x) {k : Fin m} (hk : (s.moveState.get k).isOpen = true)
    {e : Fin n} (he : e = (p.moves.get k).1 ∨ e = (p.moves.get k).2) :
    s.Present (s.representative e) := by
  have hc := h.coalesced_representative e
  refine ⟨fun hs => ?_, hc⟩
  have hmem : k ∈ s.movesOf.get (s.representative e) := by
    rw [h.mem_movesOf hc]
    rcases he with rfl | rfl
    · exact Or.inl rfl
    · exact Or.inr rfl
  exact moveRelated_eq_false.1 (h.stack_closed hs) k (mem_openMoves.2 ⟨hmem, hk⟩)

theorem linked_symm (h : s.Inv p x) (huv : s.Linked u v) : s.Linked v u := h.linked.symm huv

theorem ne_of_linked (h : s.Inv p x) (huv : s.Linked u v) : u ≠ v := by
  rintro rfl
  rw [Linked, h.linked.irrefl] at huv; cases huv

theorem mem_adjacent (h : s.Inv p x) (hu : p.precolored u = false) :
    v ∈ s.adjacent u ↔ s.Linked u v ∧ s.Present v := by
  rw [State.mem_adjacent, h.linked.mem_adjacency hu]; rfl

/-! ### Promising less -/

/-- Fewer promises about more nodes. -/
theorem weaken (h : s.Inv p x) {y : Debt n} (hlag : y.lagging = x.lagging)
    (hheat : x.heated ⊆ y.heated) (hloose : x.loosened ⊆ y.loosened) (hcool : x.cooled ⊆ y.cooled)
    (hkeep : x.kept ⊆ y.kept) : s.Inv p y where
  __ := h
  degree hi := by rw [hlag]; exact h.degree hi
  simplify_closed hi hx := h.simplify_closed hi fun hx' => hx (hkeep hx')
  freeze_low hi hx := h.freeze_low hi fun hx' => hx (hheat hx')
  freeze_open hi hx := h.freeze_open hi fun hx' => hx (hloose hx')
  spill_high hi hx := h.spill_high hi fun hx' => hx (hcool hx')

theorem heat (h : s.Inv p x) (i : Fin n) : s.Inv p (x.heat i) :=
  h.weaken rfl (List.subset_cons_self _ _) (List.Subset.refl _) (List.Subset.refl _) (List.Subset.refl _)

theorem loosen (h : s.Inv p x) (i : Fin n) : s.Inv p (x.loosen i) :=
  h.weaken rfl (List.Subset.refl _) (List.subset_cons_self _ _) (List.Subset.refl _) (List.Subset.refl _)

theorem cool (h : s.Inv p x) (i : Fin n) : s.Inv p (x.cool i) :=
  h.weaken rfl (List.Subset.refl _) (List.Subset.refl _) (List.subset_cons_self _ _) (List.Subset.refl _)

end Inv

end State

end Codegen.Coloring
