/-
  A register without a color is stuck.

  Edges move with the nodes that are merged, but none is made up: each edge of the
  merged graph comes from an edge that the graph had at the start (`Traced`), between
  two nodes that its ends stand for, and a node and the one that stands for it are
  joined by moves (`Joined`).  When no color is left for a stacked node, each color of
  the palette was given to a neighbor, and the neighbor keeps it
  (`exists_taken_of_painted`).  So every register of the palette is blocked by an edge of
  the interference graph (`exists_blocking`), and of a clique as many registers are
  colored as there are colors (`unassigned_clique`).
-/
import Codegen.Proofs.Coloring.Allocate
import Codegen.Proofs.Coloring.Ending

namespace Codegen.Coloring

variable {n m : Nat} {p : Problem n m}

namespace State

variable {s s' : State n m} {E : Fin n → Fin n → Prop} {a b : Fin n}

/-! ## Where edges come from -/

/-- Each edge comes from one of the edges `E`, between two nodes that its ends stand
    for. -/
def Traced (E : Fin n → Fin n → Prop) (s : State n m) : Prop :=
  ∀ a b, s.Linked a b → ∃ x y, E x y ∧ s.representative x = s.representative a ∧
    s.representative y = s.representative b

theorem Traced.same (h : s.Traced E) (haliasOf : s'.aliasOf = s.aliasOf)
    (hlinked : s'.linked = s.linked) : s'.Traced E := by
  intro a b hab
  rw [Linked, hlinked] at hab
  simp only [representative, haliasOf]
  exact h a b hab

/-- **Every step keeps the edges traced.** -/
theorem Traced.shift (hinv : s.Inv p {}) (h : s.Traced E) (hs : Shift p s s') : s'.Traced E := by
  cases hs with
  | same hsame => exact h.same hsame.aliasOf hsame.linked
  | stack _ hsame => exact h.same hsame.aliasOf hsame.linked
  | @merge u v hm _ _ halias hlinked _ =>
    have hrep := representative_merge hinv hm halias
    have hmono : ∀ {x a}, s.representative x = s.representative a →
        s'.representative x = s'.representative a := fun e => by rw [hrep, hrep, e]
    -- both `u` and `v` are now represented by `u`
    have huv : s'.representative v = s'.representative u := by
      rw [hrep, hrep, representative_of_not_coalesced hm.active.2.2,
        representative_of_not_coalesced hm.present.2, if_pos rfl, if_neg hm.ne]
    have hold : ∀ a b, s.Linked a b → ∃ x y, E x y ∧ s'.representative x = s'.representative a ∧
        s'.representative y = s'.representative b := by
      intro a b hab
      obtain ⟨x, y, hxy, hx, hy⟩ := h a b hab
      exact ⟨x, y, hxy, hmono hx, hmono hy⟩
    intro a b hab
    rcases (hlinked a b).1 hab with hab | ⟨rfl, hb⟩ | ⟨rfl, ha⟩
    · exact hold a b hab
    · rw [← huv]
      exact hold v b ((hinv.mem_adjacent hm.active.1).1 hb).1
    · rw [← huv]
      exact hold a v (hinv.linked_symm ((hinv.mem_adjacent hm.active.1).1 ha).1)

/-! ## What joins the nodes that were merged -/

/-- Two nodes are joined by moves. -/
def Akin (p : Problem n m) : Fin n → Fin n → Prop :=
  Relation.EqvGen fun a b => ∃ k, p.moves.get k = (a, b)

/-- Each node is joined by moves to the node that stands for it. -/
def Joined (p : Problem n m) (s : State n m) : Prop := ∀ a, Akin p a (s.representative a)

theorem Joined.same (h : s.Joined p) (haliasOf : s'.aliasOf = s.aliasOf) : s'.Joined p := by
  intro a
  simp only [representative, haliasOf]
  exact h a

/-- The two nodes of a move are joined. -/
theorem Joined.ends (h : s.Joined p) (k : Fin m) : Akin p (s.ends p k).1 (s.ends p k).2 := by
  have hk : Akin p (p.moves.get k).1 (p.moves.get k).2 := .rel _ _ ⟨k, rfl⟩
  have hreps : Akin p (s.representative (p.moves.get k).1) (s.representative (p.moves.get k).2) :=
    .trans _ _ _ (.symm _ _ (h _)) (.trans _ _ _ hk (h _))
  rcases ends_cases p s k with e | e <;> rw [e]
  · exact hreps
  · exact .symm _ _ hreps

/-- **Every step keeps merged nodes joined.** -/
theorem Joined.shift (hinv : s.Inv p {}) (h : s.Joined p) (hs : Shift p s s') : s'.Joined p := by
  cases hs with
  | same hsame => exact h.same hsame.aliasOf
  | stack _ hsame => exact h.same hsame.aliasOf
  | @merge u v hm _ _ halias _ hends =>
    obtain ⟨k, hk⟩ := hends
    have huv := h.ends k
    rw [hk] at huv
    intro a
    rw [representative_merge hinv hm halias]
    split
    · next e => exact .trans _ _ _ (e ▸ h a) (.symm _ _ huv)
    · exact h a

/-- After every run edges are traced and merged nodes are joined. -/
theorem traced_run (p : Problem n m) (edges : List (Fin n × Fin n)) (limit : Nat) :
    ((start p edges).run p limit).Traced (start p edges).Linked ∧
      ((start p edges).run p limit).Joined p := by
  have hstart : (start p edges).Traced (start p edges).Linked ∧ (start p edges).Joined p := by
    refine ⟨fun a b hab => ⟨a, b, hab, rfl, rfl⟩, fun a => ?_⟩
    rw [representative_start]
    exact .refl a
  exact (run_induction
    (P := fun s => s.Inv p {} ∧ s.Traced (start p edges).Linked ∧ s.Joined p)
    (fun _ _ h hs => ⟨h.1.step hs, h.2.1.shift h.1 (h.1.shift hs), h.2.2.shift h.1 (h.1.shift hs)⟩)
    limit ⟨inv_start p edges, hstart⟩).2

end State

/-! ## Colors that are taken -/

section
variable {s : State n m} {colors : Colors n} {i j : Fin n} {q : Physical}

/-- If painting leaves a node without a color, its neighbors have all colors. -/
theorem exists_taken_of_paint (h : (paint p s colors i).get i = none) (hq : q ∈ p.palette) :
    ∃ z ∈ s.adjacency.get i, colors.get (s.representative z) = some q := by
  unfold paint at h
  dsimp only at h
  split at h
  · next hfind =>
    have := List.find?_eq_none.1 hfind q hq
    simpa using this
  · rw [Indexed.get_set_self] at h; cases h

/-- A color once given is kept. -/
theorem get_painted_of_foldl {l₁ l₂ : List (Fin n)} (h : s.Inv p {}) (hs : s.stack = l₁ ++ l₂)
    (hj : (l₁.foldl (paint p s) (ownColors p)).get j = some q) : (painted p s).get j = some q := by
  have hj₂ : j ∉ l₂ := fun hj₂ => by
    have hn := h.stack_nodup
    rw [hs, List.nodup_append] at hn
    rw [get_foldl_paint fun hj₁ => hn.2.2 j hj₁ j hj₂ rfl,
      get_ownColors_of_virtual (h.stacked (by simp [hs, hj₂])).1] at hj
    cases hj
  rw [painted, hs, List.foldl_append, get_foldl_paint hj₂, hj]

/-- For a stacked node without a color, each color was given to a neighbor. -/
theorem exists_taken_of_painted (h : s.Inv p {}) (hi : i ∈ s.stack)
    (hnone : (painted p s).get i = none) (hq : q ∈ p.palette) :
    ∃ z, s.Linked i z ∧ (painted p s).get (s.representative z) = some q := by
  obtain ⟨l₁, l₂, hs⟩ := List.append_of_mem hi
  have hn := h.stack_nodup
  rw [hs, List.nodup_append, List.nodup_cons] at hn
  rw [painted, hs, List.foldl_append, List.foldl_cons, get_foldl_paint hn.2.1.1] at hnone
  obtain ⟨z, hz, hcolor⟩ := exists_taken_of_paint hnone hq
  exact ⟨z, (h.linked.mem_adjacency (h.stacked hi).1).1 hz, get_painted_of_foldl h hs hcolor⟩

/-- A node without a color stands with others for a stacked one. -/
theorem representative_mem_stack (h : s.Inv p {}) (hdone : ∀ i, ¬ s.Active p i)
    (hnone : (painted p s).get (s.representative i) = none) : s.representative i ∈ s.stack := by
  by_contra hs
  have hpres : s.Present (s.representative i) := ⟨hs, h.coalesced_representative i⟩
  rw [get_painted_of_present hpres] at hnone
  refine hdone _ ⟨?_, hpres⟩
  unfold Problem.precolored
  cases hr : p.registers.get (s.representative i) with
  | virtual id => rfl
  | physical q => rw [hr] at hnone; cases hnone

/-- **A node is left without a color only if each color of the palette blocks one of the
    nodes that it was merged with**, by an edge of the start. -/
theorem exists_blocked {E : Fin n → Fin n → Prop} (h : s.Inv p {}) (hdone : ∀ i, ¬ s.Active p i)
    (ht : s.Traced E) (hnone : (assignColors p s).get i = none) (hq : q ∈ p.palette) :
    ∃ x y, E x y ∧ s.representative x = s.representative i ∧ (assignColors p s).get y = some q := by
  rw [get_assignColors] at hnone
  obtain ⟨z, hz, hcolor⟩ :=
    exists_taken_of_painted h (representative_mem_stack h hdone hnone) hnone hq
  obtain ⟨x, y, hxy, hx, hy⟩ := ht _ _ hz
  refine ⟨x, y, hxy, ?_, ?_⟩
  · rw [hx, State.representative_of_not_coalesced (h.coalesced_representative i)]
  · rw [get_assignColors, hy, hcolor]

/-- For a node that is left without a color, each color of the palette blocks it, or another
    node without a color that moves join it to. -/
theorem exists_blocked_solve (p : Problem n m) (edges : List (Fin n × Fin n))
    (hnone : (solve p edges).get i = none) (hq : q ∈ p.palette) :
    ∃ x y, (State.start p edges).Linked x y ∧ State.Akin p i x ∧ (solve p edges).get x = none ∧
      (solve p edges).get y = some q := by
  have hinv := State.inv_run_start p edges (stepLimit n m)
  have hdone := State.not_active_of_step hinv (State.step_run_start p edges)
  obtain ⟨htraced, hjoined⟩ := State.traced_run p edges (stepLimit n m)
  obtain ⟨x, y, hxy, hrep, hy⟩ := exists_blocked hinv hdone htraced hnone hq
  -- both `i` and `x` are joined to the node that stands for them
  refine ⟨x, y, hxy, .trans _ _ _ (hjoined i) (.symm _ _ (hrep ▸ hjoined x)), ?_, hy⟩
  rw [solve, get_assignColors, hrep, ← get_assignColors]
  exact hnone

end

end Codegen.Coloring

namespace Codegen

/-- The nodes of the graph are the listed virtual registers, and any two of them are
    neighbors. -/
structure Graph.IsClique (g : Graph) (ids : List Nat) : Prop where
  nodup : ids.Nodup
  mem_nodes : ∀ r, r ∈ g.nodes ↔ ∃ i ∈ ids, r = .virtual i
  linked : ∀ i ∈ ids, ∀ j ∈ ids, i ≠ j → g.linked (.virtual i) (.virtual j) = true

namespace Allocator

variable (a : Allocator) (conflicts copies : Graph)

/-- A move to be tried is a copy. -/
theorem linked_moves (k : Fin (moves conflicts copies).length) :
    copies.linked ((registers conflicts copies).get ((a.problem conflicts copies).moves.get k).1)
      ((registers conflicts copies).get ((a.problem conflicts copies).moves.get k).2) = true := by
  have hmem : (a.problem conflicts copies).moves.get k ∈ moves conflicts copies := List.get_mem _ k
  exact Graph.linked_of_mem_edgeList
    (List.mem_filter.1 ((mem_pairs (nodup_registers conflicts copies)).1 hmem)).1

/-- Nodes that are joined by moves are joined by copies. -/
theorem copies_of_akin {i j : Fin (registers conflicts copies).length}
    (h : Coloring.State.Akin (a.problem conflicts copies) i j) :
    Relation.ReflTransGen (fun x y => copies.linked x y = true)
      ((registers conflicts copies).get i) ((registers conflicts copies).get j) := by
  have : Std.Symm fun x y => copies.linked x y = true := ⟨fun _ _ => Graph.linked_symm⟩
  induction h with
  | rel i j h =>
    obtain ⟨k, hk⟩ := h
    have hlinked := linked_moves a conflicts copies k
    rw [hk] at hlinked
    exact .single hlinked
  | refl i => exact .refl
  | symm i j _ ih => exact Relation.ReflTransGen.stdSymm.symm _ _ ih
  | trans i j k _ _ ih₁ ih₂ => exact ih₁.trans ih₂

variable {conflicts copies}

theorem mem_unassigned_iff {r : Register} (hr : r ∈ registers conflicts copies) :
    r ∈ (a.allocate conflicts copies).unassigned ↔ (a.allocate conflicts copies).lookup r = none := by
  rw [unassigned_allocate, List.mem_filter, Option.isNone_iff_eq_none]
  exact and_iff_right hr

/-- **A register that is left over is blocked from every register of the palette**, by an
    edge of its own or of another register left over that copies join it to. -/
theorem exists_blocking {r : Register} {q : Physical}
    (hr : r ∈ (a.allocate conflicts copies).unassigned) (hq : q ∈ a.palette) :
    ∃ x y, Relation.ReflTransGen (fun x y => copies.linked x y = true) r x ∧
      x ∈ (a.allocate conflicts copies).unassigned ∧
      (a.allocate conflicts copies).lookup y = some q ∧ conflicts.linked x y = true := by
  have hmem : r ∈ registers conflicts copies := by
    rw [unassigned_allocate] at hr
    exact List.mem_of_mem_filter hr
  obtain ⟨i, rfl⟩ := exists_register_problem a conflicts copies (mem_registers.1 hmem)
  have hcolor : ∀ j, (a.allocate conflicts copies).lookup ((a.problem conflicts copies).registers.get j) =
      (Coloring.solve (a.problem conflicts copies) (edges conflicts copies)).get j :=
    Coloring.lookup_allocation (nodup_registers_problem a conflicts copies)
  have hnone := (mem_unassigned_iff a hmem).1 hr
  rw [hcolor] at hnone
  obtain ⟨x, y, hxy, hakin, hx, hy⟩ := Coloring.exists_blocked_solve _ _ hnone hq
  exact ⟨_, _, copies_of_akin a conflicts copies hakin,
    (mem_unassigned_iff a (List.get_mem _ x)).2 ((hcolor x).trans hx), (hcolor y).trans hy,
    (linked_start_iff a conflicts copies).1 hxy⟩

/-! ## Cliques -/

/-- Those of the registers that have a color. -/
def colored (conflicts copies : Graph) (ids : List Nat) : List Nat :=
  ids.filter fun i => ((a.allocate conflicts copies).lookup (.virtual i)).isSome

section
variable {ids : List Nat} (hclique : conflicts.IsClique ids)
include hclique

/-- The colored registers of a clique have different colors of the palette. -/
theorem length_colored_le : (a.colored conflicts copies ids).length ≤ a.palette.length := by
  have hlength : (a.palette.map some).length = a.palette.length := List.length_map some
  rw [← List.length_map (fun i => (a.allocate conflicts copies).lookup (.virtual i)), ← hlength]
  refine (List.subperm_of_subset (List.Nodup.map_on ?_ (hclique.nodup.filter _)) ?_).length_le
  · intro i hi j hj e
    obtain ⟨hi, hcolor⟩ := List.mem_filter.1 hi
    obtain ⟨q, hq⟩ := Option.isSome_iff_exists.1 hcolor
    by_contra hne
    exact lookup_allocate_ne_of_linked a conflicts copies
      (hclique.linked i hi j (List.mem_filter.1 hj).1 hne) hq (e ▸ hq)
  · intro c hc
    obtain ⟨i, hi, rfl⟩ := List.mem_map.1 hc
    obtain ⟨q, hq⟩ := Option.isSome_iff_exists.1 (List.mem_filter.1 hi).2
    rw [hq]
    exact List.mem_map_of_mem (mem_palette_of_lookup_allocate a conflicts copies hq)

/-- If a register of a clique is left over, the others have all colors. -/
theorem length_palette_le (hpal : a.palette.Nodup) {r : Register}
    (hr : r ∈ (a.allocate conflicts copies).unassigned) :
    a.palette.length ≤ (a.colored conflicts copies ids).length := by
  have hlength : (a.palette.map some).length = a.palette.length := List.length_map some
  rw [← List.length_map (fun i => (a.allocate conflicts copies).lookup (.virtual i)), ← hlength]
  refine (List.subperm_of_subset (hpal.map (Option.some_injective _)) ?_).length_le
  intro c hc
  obtain ⟨q, hq, rfl⟩ := List.mem_map.1 hc
  obtain ⟨x, y, -, -, hy, hxy⟩ := exists_blocking a hr hq
  obtain ⟨i, hi, rfl⟩ := (hclique.mem_nodes y).1 (Graph.mem_nodes_of_linked hxy).2
  exact List.mem_map.2 ⟨i, List.mem_filter.2 ⟨hi, by rw [hy]; rfl⟩, hy⟩

/-- **Of a clique as many registers are left over as there are more than colors.** -/
theorem unassigned_clique (hpal : a.palette.Nodup) :
    (ids.filter fun i => decide (.virtual i ∈ (a.allocate conflicts copies).unassigned)).length =
      ids.length - a.palette.length := by
  have hle : (a.colored conflicts copies ids).length ≤ a.palette.length := length_colored_le a hclique
  have hsum := List.length_eq_length_filter_add
    (l := ids) fun i => ((a.allocate conflicts copies).lookup (.virtual i)).isSome
  rw [← colored] at hsum
  have hleft : ids.filter (fun i => decide (.virtual i ∈ (a.allocate conflicts copies).unassigned)) =
      ids.filter fun i => !((a.allocate conflicts copies).lookup (.virtual i)).isSome :=
    List.filter_congr fun i hi => by
      have hmem : .virtual i ∈ registers conflicts copies :=
        mem_registers.2 (Or.inl ((hclique.mem_nodes _).2 ⟨i, hi, rfl⟩))
      rw [Bool.eq_iff_iff]
      simp [mem_unassigned_iff a hmem]
  rw [hleft]
  cases hl : ids.filter fun i => !((a.allocate conflicts copies).lookup (.virtual i)).isSome with
  | nil =>
    rw [hl] at hsum
    simp only [List.length_nil] at hsum ⊢
    omega
  | cons i l =>
    have hi : i ∈ ids.filter fun i => decide (.virtual i ∈ (a.allocate conflicts copies).unassigned) := by
      rw [hleft, hl]; exact List.mem_cons_self
    have hge := length_palette_le a hclique hpal (of_decide_eq_true (List.mem_filter.1 hi).2)
    rw [← hl]
    omega

end

/-- **A register that is left over is really stuck.**  Each register of the palette blocks
    it: the register itself, or another one left over that copies join it to, interferes
    with a register that lives there.  Without copies the register itself is blocked, and
    of a clique exactly the registers beyond the number of colors are left over. -/
theorem allocate_stuck (conflicts copies : Graph) :
    (∀ r ∈ (a.allocate conflicts copies).unassigned, ∀ q ∈ a.palette,
      ∃ x y, Relation.ReflTransGen (fun x y => copies.linked x y = true) r x ∧
        x ∈ (a.allocate conflicts copies).unassigned ∧
        (a.allocate conflicts copies).lookup y = some q ∧ conflicts.linked x y = true) ∧
    ((∀ x y, copies.linked x y = false) →
      ∀ r ∈ (a.allocate conflicts copies).unassigned, ∀ q ∈ a.palette,
        ∃ y, (a.allocate conflicts copies).lookup y = some q ∧ conflicts.linked r y = true) ∧
    ∀ ids, conflicts.IsClique ids → a.palette.Nodup →
      (ids.filter fun i => decide (.virtual i ∈ (a.allocate conflicts copies).unassigned)).length =
        ids.length - a.palette.length := by
  refine ⟨fun r hr q hq => exists_blocking a hr hq, fun hcopies r hr q hq => ?_,
    fun ids hclique hpal => unassigned_clique a hclique hpal⟩
  obtain ⟨x, y, hpath, -, hy, hxy⟩ := exists_blocking a hr hq
  rcases hpath.cases_head with rfl | ⟨z, hz, -⟩
  · exact ⟨y, hy, hxy⟩
  · rw [hcopies] at hz; cases hz

/-- Three registers, any two of which interfere. -/
def triangle : Graph :=
  .ofEdges [] [(.virtual 0, .virtual 1), (.virtual 1, .virtual 2), (.virtual 2, .virtual 0)]

theorem isClique_triangle : triangle.IsClique [0, 1, 2] where
  nodup := by decide
  mem_nodes r := by
    rw [show triangle.nodes = [0, 1, 2].map Register.virtual by decide, List.mem_map]
    simp only [eq_comm]
  linked := by decide

/-- Hands out two registers. -/
def couple : Allocator := { name := "couple", palette := [.rbx, .rcx] }

/-- A copy from a register of the triangle to a fourth one. -/
def aside : Graph := .ofEdges [] [(.virtual 2, .virtual 3)]

/-- One register of the triangle is left over, whatever the copies, and both registers of
    the palette block it. -/
theorem allocate_stuck_triangle : triangle.IsClique [0, 1, 2] ∧ couple.palette.Nodup ∧
    (∀ copies, ([0, 1, 2].filter fun i =>
      decide (.virtual i ∈ (couple.allocate triangle copies).unassigned)).length = 1) ∧
    (∃ r ∈ (couple.allocate triangle aside).unassigned, ∀ q ∈ couple.palette,
      ∃ x y, Relation.ReflTransGen (fun x y => aside.linked x y = true) r x ∧
        x ∈ (couple.allocate triangle aside).unassigned ∧
        (couple.allocate triangle aside).lookup y = some q ∧ triangle.linked x y = true) ∧
    ∃ r ∈ (couple.allocate triangle (.ofEdges [] [])).unassigned, ∀ q ∈ couple.palette,
      ∃ y, (couple.allocate triangle (.ofEdges [] [])).lookup y = some q ∧
        triangle.linked r y = true := by
  have hone : ∀ copies, ([0, 1, 2].filter fun i =>
      decide (.virtual i ∈ (couple.allocate triangle copies).unassigned)).length = 1 :=
    fun copies => (allocate_stuck couple triangle copies).2.2 _ isClique_triangle (by decide)
  have hex : ∀ copies, ∃ r, r ∈ (couple.allocate triangle copies).unassigned := by
    intro copies
    obtain ⟨i, hi⟩ := List.exists_mem_of_length_pos (by rw [hone copies]; exact Nat.one_pos)
    exact ⟨_, of_decide_eq_true (List.mem_filter.1 hi).2⟩
  obtain ⟨r, hr⟩ := hex aside
  obtain ⟨r', hr'⟩ := hex (.ofEdges [] [])
  exact ⟨isClique_triangle, by decide, hone, ⟨r, hr, (allocate_stuck couple triangle aside).1 r hr⟩,
    r', hr', (allocate_stuck couple triangle _).2.1 (fun _ _ => rfl) r' hr'⟩

end Allocator

end Codegen
