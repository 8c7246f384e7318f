/-
  Greedily colorable graphs are colored completely.

  A graph is greedily colorable with `k` colors if its virtual registers can be
  taken out one by one, each with fewer than `k` neighbors among those that are
  left and the physical registers.  Then the coloring never gives up on a
  register (`allocate_complete`): when a node is stacked it has fewer than `k`
  neighbors that are painted before it, and merging their neighbors afterwards
  can only lower that number (`Roomy`).
-/
import Codegen.Proofs.Coloring.Allocate
import Codegen.Proofs.Coloring.Low

namespace Codegen.Coloring

variable {n m : Nat} {p : Problem n m}

namespace State

variable {s s' : State n m} {i j u v z : Fin n} {l₁ l₂ : List (Fin n)}

/-- The nodes that stand for the neighbors of a node and are not older on the
    stack. -/
def rivals (s : State n m) (i : Fin n) (older : List (Fin n)) : Finset (Fin n) :=
  (Finset.univ.filter (s.Linked i)).image s.representative \ older.toFinset

theorem mem_rivals {older : List (Fin n)} :
    j ∈ s.rivals i older ↔ (∃ z, s.Linked i z ∧ s.representative z = j) ∧ j ∉ older := by
  simp [rivals]

/-- A node on the stack has fewer rivals than there are colors.  For the sake of
    nodes that are still to be stacked, a node in the graph is a neighbor of the
    nodes that stand for its neighbors. -/
structure Roomy (p : Problem n m) (s : State n m) : Prop where
  tracked : ∀ {i z}, s.Present i → s.Linked i z → s.Present (s.representative z) →
    s.Linked i (s.representative z)
  room : ∀ {l₁ i l₂}, s.stack = l₁ ++ i :: l₂ → (s.rivals i (i :: l₂)).card < p.colors

theorem Roomy.same (h : s.Roomy p) (hs : SameShape s s') : s'.Roomy p := by
  have hrep : s'.representative = s.representative := by
    funext a; rw [representative, hs.aliasOf]; rfl
  have hlink : s'.Linked = s.Linked := by
    funext a b; rw [Linked, hs.linked]; rfl
  refine ⟨fun hi hz hr => ?_, fun {l₁ i l₂} hl => ?_⟩
  · rw [hlink, hrep] at *
    exact h.tracked (hs.present_iff.1 hi) hz (hs.present_iff.1 hr)
  · have e : s'.rivals i (i :: l₂) = s.rivals i (i :: l₂) := by
      ext j; rw [mem_rivals, mem_rivals, hlink, hrep]
    rw [e]
    exact h.room (hs.stack.symm.trans hl)

/-- A node of low degree is stacked. -/
theorem Roomy.stack (hinv : s.Inv p {}) (h : s.Roomy p) (hi : s.Active p i)
    (hlow : s.degree.get i < p.colors) : Roomy p { s with stack := i :: s.stack } where
  tracked {a z} ha hz hr :=
    h.tracked ⟨fun hs => ha.1 (List.mem_cons_of_mem _ hs), ha.2⟩ hz
      ⟨fun hs => hr.1 (List.mem_cons_of_mem _ hs), hr.2⟩
  room {l₁ a l₂} hl := by
    cases l₁ with
    | nil =>
      obtain ⟨rfl, rfl⟩ := List.cons.inj hl
      rw [← hinv.card_adjacent hi] at hlow
      refine lt_of_le_of_lt (Finset.card_le_card fun j hj => ?_) hlow
      obtain ⟨⟨z, hz, hj⟩, hnot⟩ := mem_rivals.1 hj
      have hj' : s.representative z = j := hj
      have hpres : s.Present (s.representative z) :=
        ⟨fun hs => hnot (List.mem_cons_of_mem _ (hj' ▸ hs)), hinv.coalesced_representative z⟩
      rw [List.mem_toFinset, hinv.mem_adjacent hi.1, ← hj']
      exact ⟨h.tracked hi.2 hz hpres, hpres⟩
    | cons b l₁ => exact h.room (List.cons.inj hl).2

theorem Roomy.merge (hinv : s.Inv p {}) (h : s.Roomy p) (hm : Mergeable p s u v)
    (hstack : s'.stack = s.stack) (halias : s'.aliasOf = s.aliasOf.set v (some u) v.isLt)
    (hlinked : ∀ a b, s'.Linked a b ↔
      s.Linked a b ∨ a = u ∧ b ∈ s.adjacent v ∨ b = u ∧ a ∈ s.adjacent v) : s'.Roomy p := by
  have hrep := representative_merge hinv hm halias
  have hself : ∀ {a}, s.Present a → s.representative a = a := fun ha =>
    representative_of_not_coalesced ha.2
  refine ⟨fun {a z} ha hz hr => ?_, fun {l₁ a l₂} hl => ?_⟩
  · have ha' := (present_merge hm hstack halias).1 ha
    have hr' := present_of_merge hinv hm halias hstack hr
    rw [hlinked, hrep]
    rcases (hlinked a z).1 hz with hz | ⟨rfl, hz⟩ | ⟨rfl, hz⟩
    · have hlink := h.tracked ha'.1 hz hr'
      by_cases hv : s.representative z = v
      · rw [if_pos hv]
        rw [hv] at hlink
        exact Or.inr (Or.inr ⟨rfl, (hinv.mem_adjacent hm.active.1).2
          ⟨hinv.linked_symm hlink, ha'.1⟩⟩)
      · rw [if_neg hv]; exact Or.inl hlink
    · have hzv : z ≠ v := by
        rintro rfl
        exact hinv.ne_of_linked ((hinv.mem_adjacent hm.active.1).1 hz).1 rfl
      rw [hself (mem_adjacent.1 hz).2, if_neg hzv]
      exact Or.inr (Or.inl ⟨rfl, hz⟩)
    · rw [hself hm.present, if_neg hm.ne]
      exact Or.inr (Or.inr ⟨rfl, hz⟩)
  · rw [hstack] at hl
    have hast : a ∈ s.stack := by simp [hl]
    have hmem : ∀ {b}, b ∈ a :: l₂ → b ∈ s.stack := fun hb => by
      rw [hl]; exact List.mem_append_right _ hb
    -- the rivals are those from before, with `u` in the place of `v`
    have hsub : s'.rivals a (a :: l₂) ⊆
        (s.rivals a (a :: l₂)).image fun b => if b = v then u else b := by
      intro b hb
      obtain ⟨⟨z, hz, rfl⟩, hnot⟩ := mem_rivals.1 hb
      have hz' : s.Linked a z := by
        rcases (hlinked a z).1 hz with hz | ⟨rfl, -⟩ | ⟨-, ha⟩
        · exact hz
        · exact absurd hast hm.present.1
        · exact absurd hast (mem_adjacent.1 ha).2.1
      refine Finset.mem_image.2 ⟨s.representative z, mem_rivals.2 ⟨⟨z, hz', rfl⟩, fun hold => ?_⟩,
        (hrep z).symm⟩
      have hv : s.representative z ≠ v := fun e => hm.active.2.1 (e ▸ hmem hold)
      rw [hrep, if_neg hv] at hnot
      exact hnot hold
    exact lt_of_le_of_lt ((Finset.card_le_card hsub).trans Finset.card_image_le) (h.room hl)

theorem Roomy.shift (hinv : s.Inv p {}) (hlow : s.Low p) (h : s.Roomy p) (hs : Shift p s s') :
    s'.Roomy p := by
  cases hs with
  | same hsame => exact h.same hsame
  | @stack i hi hsame =>
    exact (h.stack hinv (hinv.listed.active_iff.2 (Or.inl hi)) (hlow i hi)).same hsame
  | merge hm _ hstack halias hlinked => exact h.merge hinv hm hstack halias hlinked

theorem roomy_start (p : Problem n m) (edges : List (Fin n × Fin n)) : (start p edges).Roomy p := by
  refine ⟨fun _ hz _ => ?_, fun hl => ?_⟩
  · rw [representative_start]; exact hz
  · rw [stack_start] at hl; simp at hl

theorem low_start (p : Problem n m) (edges : List (Fin n × Fin n)) : (start p edges).Low p :=
  fun _ hi => ((sorted_start p edges).simplify.1 hi).2.2.1

/-- From a thin start, every run leaves room for each stacked node. -/
theorem roomy_run {edges : List (Fin n × Fin n)} (h : (start p edges).Thin p) (limit : Nat) :
    ((start p edges).run p limit).Roomy p :=
  (run_induction (P := fun s => s.Inv p {} ∧ s.Thin p ∧ s.Low p ∧ s.Roomy p)
    (fun _ _ ⟨hinv, ht, hl, hr⟩ hs =>
      ⟨hinv.step hs, ht.shift hinv (hinv.shift hs), hl.step hinv ht hs, hr.shift hinv hl (hinv.shift hs)⟩)
    limit ⟨inv_start p edges, h, low_start p edges, roomy_start p edges⟩).2.2.2

end State

/-! ## Painting -/

section
variable {s : State n m} {i : Fin n} {l₁ l₂ : List (Fin n)}

/-- A node with few rivals finds a color. -/
theorem paint_ne_none (hpal : p.palette.Nodup) (h : s.Inv p {}) (hs : s.stack = l₁ ++ i :: l₂)
    (hroom : (s.rivals i (i :: l₂)).card < p.colors) :
    (paint p s (l₁.foldl (paint p s) (ownColors p)) i).get i ≠ none := by
  have hi := (h.stacked (by simp [hs] : i ∈ s.stack)).1
  generalize hc : l₁.foldl (paint p s) (ownColors p) = c
  unfold paint
  dsimp only
  split
  · next hfind =>
    -- all colors are taken, by different rivals
    have hsub : p.palette.toFinset.image some ⊆ (s.rivals i (i :: l₂)).image c.get := by
      intro o ho
      obtain ⟨q, hq, rfl⟩ := Finset.mem_image.1 ho
      have htaken := List.find?_eq_none.1 hfind q (List.mem_toFinset.1 hq)
      simp only [Bool.not_eq_true', List.contains_eq_mem, decide_eq_false_iff_not, not_not,
        List.mem_filterMap] at htaken
      obtain ⟨z, hz, hcz⟩ := htaken
      refine Finset.mem_image.2 ⟨s.representative z, State.mem_rivals.2
        ⟨⟨z, (h.linked.mem_adjacency hi).1 hz, rfl⟩, fun hold => ?_⟩, hcz⟩
      have hn := h.stack_nodup
      rw [hs, List.nodup_append] at hn
      have hnew : s.representative z ∉ l₁ := fun hnew => hn.2.2 _ hnew _ hold rfl
      have hvirt := (h.stacked (by rw [hs]; exact List.mem_append_right _ hold)).1
      rw [← hc, get_foldl_paint hnew, get_ownColors_of_virtual hvirt] at hcz
      cases hcz
    have hcard := (Finset.card_le_card hsub).trans Finset.card_image_le
    rw [Finset.card_image_of_injective _ (Option.some_injective _),
      List.toFinset_card_of_nodup hpal] at hcard
    exact absurd hroom (Nat.not_lt.2 hcard)
  · rw [Indexed.get_set_self]; simp

/-- **If there is room for every stacked node and no node is left in the graph,
    every node gets a color.** -/
theorem assignColors_ne_none (hpal : p.palette.Nodup) (h : s.Inv p {}) (hr : s.Roomy p)
    (hdone : ∀ i, ¬ s.Active p i) (i : Fin n) : (assignColors p s).get i ≠ none := by
  rw [get_assignColors]
  have hrep := h.coalesced_representative i
  generalize s.representative i = j at hrep ⊢
  by_cases hj : j ∈ s.stack
  · obtain ⟨l₁, l₂, hs⟩ := List.append_of_mem hj
    have hn := h.stack_nodup
    rw [hs, List.nodup_append, List.nodup_cons] at hn
    rw [painted, hs, List.foldl_append, List.foldl_cons, get_foldl_paint hn.2.1.1]
    exact paint_ne_none hpal h hs (hr.room hs)
  · rw [get_painted_of_present ⟨hj, hrep⟩]
    cases hreg : p.registers.get j with
    | virtual id =>
      refine absurd ⟨?_, hj, hrep⟩ (hdone j)
      rw [Problem.precolored, hreg]; rfl
    | physical q => simp [Register.physical?]

end

end Codegen.Coloring

namespace Codegen

/-! ## Greedily colorable graphs -/

/-- The listed registers can be taken out of the graph in this order: each has
    fewer than `k` neighbors among the later ones and the physical registers. -/
def Graph.Greedy (k : Nat) (g : Graph) : List Register → Prop
  | [] => True
  | r :: later =>
    ((g.neighbors r).filter fun x => x.isPhysical || later.contains x).length < k ∧
      Graph.Greedy k g later

instance Graph.decidableGreedy (k : Nat) (g : Graph) :
    (order : List Register) → Decidable (g.Greedy k order)
  | [] => inferInstanceAs (Decidable True)
  | _ :: later =>
    have := decidableGreedy k g later
    inferInstanceAs (Decidable (_ < k ∧ g.Greedy k later))

namespace Allocator

open Coloring.State in
/-- The coloring of a greedily colorable graph starts in a thin state. -/
theorem thin_start (a : Allocator) (conflicts copies : Graph) {order : List Register}
    (h : conflicts.Greedy a.palette.length order)
    (hall : ∀ r ∈ registers conflicts copies, r.isPhysical = false → r ∈ order) :
    (start (a.problem conflicts copies) (edges conflicts copies)).Thin (a.problem conflicts copies) := by
  intro S hne hS
  replace hS : ∀ i ∈ S, (a.problem conflicts copies).registers.get i ∈ order := fun i hi =>
    hall _ (List.get_mem _ i) (hS i hi).1
  clear hall
  -- the first register of the order that is in the set
  induction order with
  | nil =>
    obtain ⟨i, hi⟩ := hne
    cases hS i hi
  | cons r later ih =>
    by_cases hr : ∃ i ∈ S, (a.problem conflicts copies).registers.get i = r
    · obtain ⟨i, hi, rfl⟩ := hr
      refine ⟨i, hi, lt_of_le_of_lt ?_ h.1⟩
      have hinj : Function.Injective (a.problem conflicts copies).registers.get := fun _ _ =>
        Coloring.registers_injective (nodup_registers_problem a conflicts copies)
      rw [← Finset.card_image_of_injective _ hinj]
      refine le_trans (Finset.card_le_card fun x hx => ?_) (List.toFinset_card_le _)
      obtain ⟨j, hj, rfl⟩ := Finset.mem_image.1 hx
      obtain ⟨hlink, hj⟩ := mem_around.1 hj
      have hedge := (linked_start_iff a conflicts copies).1 hlink
      rw [List.mem_toFinset, List.mem_filter, Graph.mem_neighbors, Bool.or_eq_true,
        List.contains_iff_mem]
      refine ⟨hedge, ?_⟩
      rcases hj with hj | hj
      · refine Or.inr ((List.mem_cons.1 (hS j hj)).resolve_left fun e => ?_)
        rw [e, Graph.linked_self] at hedge; cases hedge
      · exact Or.inl hj
    · refine ih h.2 fun i hi => (List.mem_cons.1 (hS i hi)).resolve_left fun e => hr ⟨i, hi, e⟩

/-- **A greedily colorable graph is colored completely**, whatever the copies and
    the costs: if the virtual registers of the two graphs can be ordered so that
    each interferes with fewer registers among the later ones and the physical
    registers than there are in the palette, none is left over. -/
theorem allocate_complete (a : Allocator) (conflicts copies : Graph) (order : List Register)
    (hpal : a.palette.Nodup)
    (horder : order.Perm ((registers conflicts copies).filter fun r => !r.isPhysical))
    (h : conflicts.Greedy a.palette.length order) :
    (a.allocate conflicts copies).complete = true := by
  have hthin := thin_start a conflicts copies h fun r hr hv =>
    horder.mem_iff.2 (List.mem_filter.2 ⟨hr, by simp [hv]⟩)
  have hinv := Coloring.State.inv_run_start (a.problem conflicts copies) (edges conflicts copies)
    (Coloring.stepLimit (registers conflicts copies).length (moves conflicts copies).length)
  have hdone := Coloring.State.not_active_of_step hinv
    (Coloring.State.step_run_start (a.problem conflicts copies) (edges conflicts copies))
  have hcolors := Coloring.assignColors_ne_none hpal hinv (Coloring.State.roomy_run hthin _) hdone
  simp only [allocate, Coloring.allocation, Coloring.solve, Allocation.complete, List.isEmpty_iff,
    List.map_eq_nil_iff, List.filter_eq_nil_iff, Option.isNone_iff_eq_none]
  exact fun i _ => hcolors i

/-- A star of four registers, two of them with a copy between them, is colored
    with two registers. -/
theorem allocate_complete_star :
    ({ name := "star", palette := [.rbx, .rcx] } : Allocator).allocate
      (.ofEdges [] [(.virtual 0, .virtual 1), (.virtual 0, .virtual 2), (.virtual 0, .virtual 3)])
      (.ofEdges [] [(.virtual 1, .virtual 2), (.virtual 3, .physical .rbx)]) |>.complete :=
  allocate_complete _ _ _ [.virtual 1, .virtual 2, .virtual 3, .virtual 0] (by decide) (by decide)
    (by decide)

end Allocator

end Codegen
