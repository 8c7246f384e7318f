/-
  Neighbors get different colors.

  An edge of the graph at the start is not always an edge later on: its ends may
  have been merged into other nodes, or stacked.  `Guarded` says what is left of
  it.  The ends never come to be one node; as long as they are in the graph they
  are neighbors; and a node on the select stack still knows of every node that
  gets its color earlier.  So a color that is free when a node is painted was
  not given to any of its neighbors (`assignColors_ne`).
-/
import Codegen.Proofs.Coloring.Start

namespace Codegen.Coloring

variable {n m : Nat} {p : Problem n m}

namespace State

variable {s s' : State n m} {E : Fin n → Fin n → Prop} {a b u v : Fin n}

/-- The node `a` has a neighbor that `b` stands for. -/
def Covers (s : State n m) (a b : Fin n) : Prop :=
  ∃ z, s.Linked a z ∧ s.representative z = b

/-- What is left of the edges `E` that the graph had at the start. -/
structure Guarded (E : Fin n → Fin n → Prop) (s : State n m) : Prop where
  apart : ∀ {a b}, E a b → s.representative a ≠ s.representative b
  present : ∀ {a b}, E a b → s.Present (s.representative a) → s.Present (s.representative b) →
    s.Linked (s.representative a) (s.representative b)
  stacked : ∀ {a b}, E a b → s.representative a ∈ s.stack → s.Present (s.representative b) →
    s.Covers (s.representative a) (s.representative b)
  later : ∀ {a b}, E a b → [s.representative b, s.representative a].Sublist s.stack →
    s.Covers (s.representative a) (s.representative b)

/-! ## Every step keeps the guard -/

theorem Guarded.same (h : s.Guarded E) (hs : SameShape s s') : s'.Guarded E := by
  have hrep : ∀ a, s'.representative a = s.representative a := fun a => by
    rw [representative, hs.aliasOf]; rfl
  have hcov : ∀ {a b}, s.Covers a b → s'.Covers a b := by
    rintro a b ⟨z, hz, rfl⟩
    exact ⟨z, by rw [Linked, hs.linked]; exact hz, hrep z⟩
  refine ⟨fun hab => ?_, fun hab ha hb => ?_, fun hab ha hb => ?_, fun hab hsub => ?_⟩ <;>
    simp only [hrep, hs.present_iff, hs.stack] at *
  · exact h.apart hab
  · rw [Linked, hs.linked]; exact h.present hab ha hb
  · exact hcov (h.stacked hab ha hb)
  · exact hcov (h.later hab hsub)

theorem Guarded.stack {i : Fin n} (hinv : s.Inv p {}) (h : s.Guarded E) (hi : s.Present i) :
    State.Guarded E { s with stack := i :: s.stack } where
  apart := h.apart
  present hab ha hb := h.present hab ⟨fun hs => ha.1 (List.mem_cons_of_mem _ hs), ha.2⟩
    ⟨fun hs => hb.1 (List.mem_cons_of_mem _ hs), hb.2⟩
  stacked {a b} hab ha hb := by
    have hb' : s.Present (s.representative b) := ⟨fun hs => hb.1 (List.mem_cons_of_mem _ hs), hb.2⟩
    rcases List.mem_cons.1 ha with e | ha
    · have ha' : s.Present (s.representative a) := by
        rw [show s.representative a = i from e]; exact hi
      exact ⟨_, h.present hab ha' hb',
        representative_of_not_coalesced (hinv.coalesced_representative b)⟩
    · exact h.stacked hab ha hb'
  later {a b} hab hsub := by
    rcases List.sublist_cons_iff.1 hsub with hsub | ⟨r, e, hr⟩
    · exact h.later hab hsub
    · obtain ⟨e₁, rfl⟩ := List.cons.inj e
      have hb : s.Present (s.representative b) := by
        rw [show s.representative b = i from e₁]; exact hi
      exact h.stacked hab (List.singleton_sublist.1 hr) hb

section
variable (hinv : s.Inv p {}) (hm : Mergeable p s u v)
  (halias : s'.aliasOf = s.aliasOf.set v (some u) v.isLt)
include hinv hm halias

theorem representative_merge (a : Fin n) :
    s'.representative a = if s.representative a = v then u else s.representative a := by
  rw [representative, halias]
  exact hinv.merging.settled.chase_set (coalesced_eq_false.1 hm.present.2)
    (coalesced_eq_false.1 hm.active.2.2) hm.ne a

theorem present_of_merge (hstack : s'.stack = s.stack) (ha : s'.Present (s'.representative a)) :
    s.Present (s.representative a) := by
  rw [present_merge hm hstack halias, representative_merge hinv hm halias] at ha
  by_cases hv : s.representative a = v
  · rw [hv]; exact hm.active.2
  · rw [if_neg hv] at ha; exact ha.1

theorem representative_stack_merge (ha : s'.representative a ∈ s.stack) :
    s'.representative a = s.representative a := by
  rw [representative_merge hinv hm halias] at ha ⊢
  by_cases hv : s.representative a = v
  · rw [if_pos hv] at ha; exact absurd ha hm.present.1
  · rw [if_neg hv]

theorem Guarded.merge (hsymm : ∀ {a b}, E a b → E b a) (h : s.Guarded E)
    (hstack : s'.stack = s.stack)
    (hlinked : ∀ a b, s'.Linked a b ↔
      s.Linked a b ∨ a = u ∧ b ∈ s.adjacent v ∨ b = u ∧ a ∈ s.adjacent v) : s'.Guarded E := by
  have hrep := representative_merge hinv hm halias
  have hcov : ∀ {a b}, s.Covers a (s.representative b) → s'.Covers a (s'.representative b) := by
    rintro a b ⟨z, hz, e⟩
    exact ⟨z, (hlinked a z).2 (Or.inl hz), by rw [hrep, hrep, e]⟩
  -- the neighbors of `v` become neighbors of `u`
  have hover : ∀ {a b}, E a b → s.representative a = v → s.Present (s.representative b) →
      s.representative b ∈ s.adjacent v := by
    intro a b hab ha hb
    have := h.present hab (by rw [ha]; exact hm.active.2) hb
    rw [ha] at this
    exact (hinv.mem_adjacent hm.active.1).2 ⟨this, hb⟩
  have hnot : ∀ {a b}, E a b → s.representative a = v → s.representative b ≠ u := by
    intro a b hab ha hb
    have := (hinv.mem_adjacent hm.active.1).1 (hover hab ha (by rw [hb]; exact hm.present))
    rw [hb] at this
    exact hm.apart (hinv.linked_symm this.1)
  refine ⟨fun {a b} hab => ?_, fun {a b} hab ha hb => ?_, fun {a b} hab ha hb => ?_,
    fun {a b} hab hsub => ?_⟩
  · rw [hrep, hrep]
    have hne := h.apart hab
    by_cases ha : s.representative a = v
    · rw [if_pos ha, if_neg fun hb => hne (ha.trans hb.symm)]
      exact (hnot hab ha).symm
    · rw [if_neg ha]
      by_cases hb : s.representative b = v
      · rw [if_pos hb]; exact hnot (hsymm hab) hb
      · rw [if_neg hb]; exact hne
  · have ha' := present_of_merge hinv hm halias hstack ha
    have hb' := present_of_merge hinv hm halias hstack hb
    have hne := h.apart hab
    rw [hlinked, hrep, hrep]
    by_cases ha : s.representative a = v
    · rw [if_pos ha, if_neg fun hb => hne (ha.trans hb.symm)]
      exact Or.inr (Or.inl ⟨rfl, hover hab ha hb'⟩)
    · rw [if_neg ha]
      by_cases hb : s.representative b = v
      · rw [if_pos hb]; exact Or.inr (Or.inr ⟨rfl, hover (hsymm hab) hb ha'⟩)
      · rw [if_neg hb]; exact Or.inl (h.present hab ha' hb')
  · rw [hstack] at ha
    have e := representative_stack_merge hinv hm halias ha
    rw [e] at ha ⊢
    exact hcov (h.stacked hab ha (present_of_merge hinv hm halias hstack hb))
  · rw [hstack] at hsub
    have ea := representative_stack_merge hinv hm halias
      (hsub.subset (by simp) : s'.representative a ∈ s.stack)
    have eb := representative_stack_merge hinv hm halias
      (hsub.subset (by simp) : s'.representative b ∈ s.stack)
    rw [ea, eb] at hsub
    rw [ea]
    exact hcov (h.later hab hsub)

end

/-- **Every step keeps the guard.** -/
theorem Guarded.shift (hsymm : ∀ {a b}, E a b → E b a) (hinv : s.Inv p {}) (h : s.Guarded E)
    (hs : Shift p s s') : s'.Guarded E := by
  cases hs with
  | same hsame => exact h.same hsame
  | stack hi hsame =>
    exact (h.stack hinv (hinv.listed.active_iff.2 (Or.inl hi)).2).same hsame
  | merge hm _ hstack halias hlinked => exact h.merge hinv hm halias hsymm hstack hlinked

theorem representative_start (p : Problem n m) (edges : List (Fin n × Fin n)) (a : Fin n) :
    (start p edges).representative a = a :=
  representative_of_not_coalesced (present_start a).2

theorem guarded_start (p : Problem n m) (edges : List (Fin n × Fin n)) :
    (start p edges).Guarded (start p edges).Linked := by
  refine ⟨fun hab => ?_, fun hab _ _ => ?_, fun _ ha => ?_, fun _ hsub => ?_⟩
  · rw [representative_start, representative_start]
    exact (inv_start p edges).ne_of_linked hab
  · rw [representative_start, representative_start]; exact hab
  · rw [stack_start] at ha; cases ha
  · rw [stack_start] at hsub; cases hsub

/-- After every run, the invariant and the guard hold. -/
theorem guarded_run (p : Problem n m) (edges : List (Fin n × Fin n)) (limit : Nat) :
    ((start p edges).run p limit).Inv p {} ∧
      ((start p edges).run p limit).Guarded (start p edges).Linked :=
  run_induction (P := fun s => s.Inv p {} ∧ s.Guarded (start p edges).Linked)
    (fun _ _ h hs => ⟨h.1.step hs, h.2.shift (inv_start p edges).linked_symm h.1 (h.1.shift hs)⟩)
    limit ⟨inv_start p edges, guarded_start p edges⟩

end State

/-! ## Painting -/

section
variable {s : State n m} {colors : Colors n} {i j : Fin n} {l : List (Fin n)}

theorem get_paint_ne (h : j ≠ i) : (paint p s colors i).get j = colors.get j := by
  unfold paint
  dsimp only
  split
  · rfl
  · exact Indexed.get_set_ne _ _ h

/-- The color that a node is painted with is free. -/
theorem get_paint_self {q : Physical} (hi : colors.get i = none)
    (h : (paint p s colors i).get i = some q) :
    q ∈ p.palette ∧ ∀ z ∈ s.adjacency.get i, colors.get (s.representative z) ≠ some q := by
  unfold paint at h
  dsimp only at h
  split at h
  · rw [hi] at h; cases h
  · next q' hfind =>
    rw [Indexed.get_set_self, Option.some.injEq] at h
    subst h
    refine ⟨List.mem_of_find?_eq_some hfind, fun z hz hq => ?_⟩
    have := List.find?_some hfind
    simp only [Bool.not_eq_true', List.contains_eq_mem, decide_eq_false_iff_not,
      List.mem_filterMap, not_exists, not_and] at this
    exact this z hz hq

theorem get_foldl_paint (h : j ∉ l) : (l.foldl (paint p s) colors).get j = colors.get j := by
  induction l generalizing colors with
  | nil => rfl
  | cons i l ih =>
    simp only [List.mem_cons, not_or] at h
    rw [List.foldl_cons, ih h.2, get_paint_ne h.1]

/-- A stacked node that gets a color gets one that none of its neighbors was
    given before. -/
theorem get_foldl_paint_append {l₁ l₂ : List (Fin n)} {q : Physical} (hl : (l₁ ++ i :: l₂).Nodup)
    (hi : colors.get i = none) (h : ((l₁ ++ i :: l₂).foldl (paint p s) colors).get i = some q) :
    q ∈ p.palette ∧ ∀ z ∈ s.adjacency.get i, s.representative z ∉ i :: l₂ →
      ((l₁ ++ i :: l₂).foldl (paint p s) colors).get (s.representative z) ≠ some q := by
  obtain ⟨-, hl₂, hdisj⟩ := List.nodup_append.1 hl
  have hi₁ : i ∉ l₁ := fun hi => hdisj i hi i (by simp) rfl
  rw [List.foldl_append, List.foldl_cons, get_foldl_paint (List.nodup_cons.1 hl₂).1] at h
  obtain ⟨hpal, hfree⟩ := get_paint_self (by rw [get_foldl_paint hi₁, hi]) h
  refine ⟨hpal, fun z hz hlater => ?_⟩
  rw [List.foldl_append, get_foldl_paint hlater]
  exact hfree z hz

end

section
variable {s : State n m} {i a b : Fin n} {q : Physical}

/-- The colors after all stacked nodes were painted. -/
def painted (p : Problem n m) (s : State n m) : Colors n := s.stack.foldl (paint p s) (ownColors p)

theorem registers_injective (hinj : p.registers.toList.Nodup)
    (h : p.registers.get a = p.registers.get b) : a = b := by
  have hlen : ∀ i : Fin n, i.val < p.registers.toList.length := fun i => by simp
  have key : (⟨a, hlen a⟩ : Fin p.registers.toList.length) = ⟨b, hlen b⟩ :=
    List.nodup_iff_injective_get.1 hinj (by simpa [Vector.get] using h)
  exact Fin.ext (Fin.mk.inj key)

/-- Of two members of a list, one comes first. -/
theorem sublist_pair {α : Type} {a b : α} {l : List α} (ha : a ∈ l) (hb : b ∈ l)
    (hab : a ≠ b) : [a, b].Sublist l ∨ [b, a].Sublist l := by
  obtain ⟨l₁, l₂, rfl⟩ := List.append_of_mem ha
  rcases List.mem_append.1 hb with hb | hb
  · exact Or.inr ((List.singleton_sublist.2 hb).append (List.singleton_sublist.2 (by simp)))
  · have hb := (List.mem_cons.1 hb).resolve_left (Ne.symm hab)
    exact Or.inl (((List.singleton_sublist.2 hb).cons_cons a).trans (List.sublist_append_right _ _))

theorem get_assignColors (p : Problem n m) (s : State n m) (i : Fin n) :
    (assignColors p s).get i = (painted p s).get (s.representative i) := by
  have e : (assignColors p s).get i =
      (painted p s).get (if s.coalesced i then s.representative i else i) :=
    Vector.getElem_ofFn i.isLt
  rw [e]
  split
  · rfl
  · next h => rw [State.representative_of_not_coalesced (Bool.eq_false_iff.2 h)]

theorem get_ownColors (p : Problem n m) (i : Fin n) :
    (ownColors p).get i = (p.registers.get i).physical? :=
  Vector.getElem_map _ i.isLt

theorem get_ownColors_of_virtual (hi : p.precolored i = false) : (ownColors p).get i = none := by
  rw [get_ownColors]
  unfold Problem.precolored at hi
  cases h : p.registers.get i with
  | virtual id => rfl
  | physical h' => rw [h] at hi; cases hi

theorem get_painted_of_present (hi : s.Present i) :
    (painted p s).get i = (p.registers.get i).physical? := by
  rw [painted, get_foldl_paint hi.1, get_ownColors]

/-- A node with a color is a physical register or was stacked. -/
theorem painted_cases (hi : s.coalesced i = false)
    (hq : (painted p s).get i = some q) :
    (p.registers.get i = .physical q ∧ s.Present i) ∨ i ∈ s.stack := by
  by_cases hs : i ∈ s.stack
  · exact Or.inr hs
  · rw [get_painted_of_present ⟨hs, hi⟩] at hq
    cases hr : p.registers.get i with
    | virtual id => rw [hr] at hq; cases hq
    | physical q' =>
      rw [hr] at hq
      cases hq
      exact Or.inl ⟨rfl, hs, hi⟩

theorem get_painted_of_stacked (h : s.Inv p {}) {l₁ l₂ : List (Fin n)}
    (hs : s.stack = l₁ ++ i :: l₂) (hq : (painted p s).get i = some q) :
    q ∈ p.palette ∧ ∀ z, s.Linked i z → s.representative z ∉ i :: l₂ →
      (painted p s).get (s.representative z) ≠ some q := by
  have hi := (h.stacked (by simp [hs] : i ∈ s.stack)).1
  have hn := h.stack_nodup
  unfold painted at hq ⊢
  rw [hs] at hq hn ⊢
  obtain ⟨hpal, hfree⟩ := get_foldl_paint_append hn (get_ownColors_of_virtual hi) hq
  exact ⟨hpal, fun z hz => hfree z ((h.linked.mem_adjacency hi).2 hz)⟩

/-- A physical register keeps its color. -/
theorem get_assignColors_of_precolored (h : s.Inv p {}) (hi : p.precolored i = true) :
    (assignColors p s).get i = (p.registers.get i).physical? := by
  have hpres := h.present_of_precolored hi
  rw [get_assignColors, State.representative_of_not_coalesced hpres.2, get_painted_of_present hpres]

/-- A virtual register gets a color of the palette. -/
theorem mem_palette_of_assignColors (h : s.Inv p {}) (hi : p.precolored i = false)
    (hq : (assignColors p s).get i = some q) : q ∈ p.palette := by
  rw [get_assignColors] at hq
  rcases painted_cases (h.coalesced_representative i) hq with ⟨hr, -⟩ | hs
  · -- the node was merged into a physical register, which is one of the palette
    rcases chase_eq_or s.aliasOf n i with e | ⟨j, hj⟩
    · rw [show s.representative i = i from e] at hr
      rw [Problem.precolored, hr] at hi; cases hi
    · have hown := h.merging.own hj
      rw [show chase s.aliasOf n i = s.representative i from rfl, Problem.foreign, hr] at hown
      simpa using hown
  · obtain ⟨l₁, l₂, hl⟩ := List.append_of_mem hs
    exact (get_painted_of_stacked h hl hq).1

/-- Of two stacked neighbors, the one that is painted later avoids the color of
    the other one. -/
theorem painted_ne_of_sublist {E : Fin n → Fin n → Prop} (h : s.Inv p {}) (hg : s.Guarded E)
    (hab : E a b) (hsub : [s.representative b, s.representative a].Sublist s.stack)
    (hq : (painted p s).get (s.representative a) = some q) :
    (painted p s).get (s.representative b) ≠ some q := by
  obtain ⟨r₁, r₂, hs, hb, hr⟩ := List.cons_sublist_iff.1 hsub
  obtain ⟨m₁, m₂, rfl⟩ := List.append_of_mem (List.singleton_sublist.1 hr)
  obtain ⟨z, hz, e⟩ := hg.later hab hsub
  rw [← List.append_assoc] at hs
  rw [← e]
  refine (get_painted_of_stacked h hs hq).2 z hz fun hmem => ?_
  have hn := h.stack_nodup
  rw [hs, List.nodup_append] at hn
  exact hn.2.2 _ (by simp [hb]) _ hmem e.symm

/-- A stacked node avoids the color of a physical register. -/
theorem painted_ne_of_present {E : Fin n → Fin n → Prop} (h : s.Inv p {}) (hg : s.Guarded E)
    (hab : E a b) (ha : s.representative a ∈ s.stack) (hb : s.Present (s.representative b))
    (hq : (painted p s).get (s.representative a) = some q) :
    (painted p s).get (s.representative b) ≠ some q := by
  obtain ⟨l₁, l₂, hs⟩ := List.append_of_mem ha
  obtain ⟨z, hz, e⟩ := hg.stacked hab ha hb
  rw [← e]
  refine (get_painted_of_stacked h hs hq).2 z hz fun hmem => hb.1 ?_
  rw [hs, ← e]
  exact List.mem_append_right _ hmem

/-- **Two nodes that were neighbors at the start never get one color.** -/
theorem assignColors_ne {E : Fin n → Fin n → Prop} (hinj : p.registers.toList.Nodup)
    (hsymm : ∀ {a b}, E a b → E b a) (h : s.Inv p {}) (hg : s.Guarded E) (hab : E a b)
    (ha : (assignColors p s).get a = some q) : (assignColors p s).get b ≠ some q := by
  rw [get_assignColors] at ha ⊢
  intro hb
  have hne := hg.apart hab
  rcases painted_cases (h.coalesced_representative a) ha with ⟨hra, hpa⟩ | hsa
  · rcases painted_cases (h.coalesced_representative b) hb with ⟨hrb, -⟩ | hsb
    · exact hne (registers_injective hinj (hra.trans hrb.symm))
    · exact painted_ne_of_present h hg (hsymm hab) hsb hpa hb ha
  · rcases painted_cases (h.coalesced_representative b) hb with ⟨-, hpb⟩ | hsb
    · exact painted_ne_of_present h hg hab hsa hpb ha hb
    · rcases sublist_pair hsa hsb hne with hsub | hsub
      · exact painted_ne_of_sublist h hg (hsymm hab) hsub hb ha
      · exact painted_ne_of_sublist h hg hab hsub ha hb

end

end Codegen.Coloring
