/-
  The liveness equations are solved.

  The sets of live registers grow at their ends only, and hold no register twice.
  There are only so many registers, so the passes that the analysis allows are
  enough to reach sets that no further pass changes (`sweep_solve`).  Such sets
  satisfy the equations at every point (`before_subset`).
-/
import Codegen.Liveness
import Codegen.Proofs.Outcomes

namespace Codegen

namespace Liveness

variable {s t out : LiveSet} {live live' live'' : Array LiveSet} {r : Register} {i : Instr}
  {item : Item} {rs : List Register} {k : Nat} {next : List Nat} {p : Point} {ps : List Point}

/-! ## The sets -/

@[simp] theorem mem_union : r ∈ s.union t ↔ r ∈ s ∨ r ∈ t := by
  simp only [LiveSet.union, List.mem_append, List.mem_filter, Bool.not_eq_true', List.contains_eq_mem,
    decide_eq_false_iff_not]
  tauto

theorem prefix_union (s t : LiveSet) : s <+: s.union t := List.prefix_append _ _

theorem nodup_union (hs : s.Nodup) (ht : t.Nodup) : (s.union t).Nodup := by
  refine List.nodup_append.2 ⟨hs, ht.filter _, fun x hx y hy e => ?_⟩
  simp only [List.mem_filter, Bool.not_eq_true', List.contains_eq_mem, decide_eq_false_iff_not] at hy
  exact hy.2 (e ▸ hx)

theorem before_of_none (h : item.instr? = none) : before item out = out := by
  rw [before, h]

theorem mem_before_instr : r ∈ before (.instr i) out ↔ r ∈ out ∧ r ∉ i.defines ∨ r ∈ i.uses := by
  simp [before, Item.instr?]

theorem nodup_before (h : out.Nodup) : (before item out).Nodup := by
  unfold before
  split
  · exact h
  · exact nodup_union (h.filter _) (nodup_eraseDups _)

theorem mem_after : r ∈ after live next ↔ ∃ k ∈ next, r ∈ live.getD k [] := by
  have key : ∀ acc : LiveSet, r ∈ next.foldl (fun out k => out.union (live.getD k [])) acc ↔
      r ∈ acc ∨ ∃ k ∈ next, r ∈ live.getD k [] := by
    induction next with
    | nil => simp
    | cons k next ih =>
      intro acc
      rw [List.foldl_cons, ih, mem_union]
      simp [or_assoc]
  exact (key []).trans (by simp)

theorem nodup_after (h : ∀ k, (live.getD k []).Nodup) : (after live next).Nodup := by
  have key : ∀ acc : LiveSet, acc.Nodup →
      (next.foldl (fun out k => out.union (live.getD k [])) acc).Nodup := by
    induction next with
    | nil => exact fun _ h => h
    | cons k next ih => exact fun acc hacc => ih _ (nodup_union hacc (h k))
  exact key [] List.nodup_nil

@[simp] theorem size_refine (live : Array LiveSet) (p : Point) : (refine live p).size = live.size := by
  simp [refine]

theorem getD_refine (live : Array LiveSet) (p : Point) (k : Nat) :
    (refine live p).getD k [] =
      if k = p.index ∧ k < live.size then
        (live.getD k []).union (before p.item (after live p.next))
      else live.getD k [] := by
  simp only [refine, Array.getD_eq_getD_getElem?, Array.getElem?_modify]
  by_cases hk : p.index = k
  · subst hk
    by_cases hlt : p.index < live.size
    · simp [hlt]
    · simp [hlt]
  · rw [if_neg hk, if_neg fun h => hk h.1.symm]

theorem solve_succ (ps : List Point) (limit : Nat) (live : Array LiveSet) :
    solve ps (limit + 1) live =
      if sweep ps live = live then live else solve ps limit (sweep ps live) := rfl

/-! ## Growth -/

/-- The sets have grown at their ends. -/
structure Grows (live live' : Array LiveSet) : Prop where
  size : live'.size = live.size
  sets : ∀ k : Nat, live.getD k [] <+: live'.getD k []

theorem Grows.refl (live : Array LiveSet) : Grows live live := ⟨rfl, fun _ => List.prefix_refl _⟩

theorem Grows.trans (h : Grows live live') (h' : Grows live' live'') : Grows live live'' :=
  ⟨h'.size.trans h.size, fun k => (h.sets k).trans (h'.sets k)⟩

theorem eq_of_getD (hs : live'.size = live.size) (h : ∀ k : Nat, live.getD k [] = live'.getD k []) :
    live = live' := by
  refine Array.ext hs.symm fun k hk hk' => ?_
  have := h k
  rwa [Array.getD_eq_getD_getElem?, Array.getD_eq_getD_getElem?, Array.getElem?_eq_getElem hk,
    Array.getElem?_eq_getElem hk'] at this

theorem Grows.antisymm (h : Grows live live') (h' : Grows live' live) : live = live' :=
  eq_of_getD h.size fun k => (h.sets k).eq_of_length (Nat.le_antisymm (h.sets k).length_le (h'.sets k).length_le)

theorem grows_refine (live : Array LiveSet) (p : Point) : Grows live (refine live p) := by
  refine ⟨size_refine live p, fun k => ?_⟩
  rw [getD_refine]
  split
  · exact prefix_union _ _
  · exact List.prefix_refl _

theorem grows_sweep (ps : List Point) (live : Array LiveSet) : Grows live (sweep ps live) := by
  induction ps with
  | nil => exact .refl live
  | cons p ps ih => exact ih.trans (grows_refine _ p)

theorem grows_solve (ps : List Point) (limit : Nat) (live : Array LiveSet) :
    Grows live (solve ps limit live) := by
  induction limit generalizing live with
  | zero => exact .refl live
  | succ limit ih =>
    rw [solve_succ]
    split
    · exact .refl live
    · exact (grows_sweep ps live).trans (ih _)

/-- If a pass changes nothing, then no point does. -/
theorem refine_eq_of_sweep_eq (h : sweep ps live = live) (hp : p ∈ ps) : refine live p = live := by
  induction ps with
  | nil => cases hp
  | cons q ps ih =>
    have hlast : Grows (sweep ps live) live := by
      have := grows_refine (sweep ps live) q
      rwa [show refine (sweep ps live) q = live from h] at this
    have hrest : sweep ps live = live := hlast.antisymm (grows_sweep ps live)
    rcases List.mem_cons.1 hp with rfl | hp
    · have : refine (sweep ps live) p = live := h
      rwa [hrest] at this
    · exact ih hrest hp

/-- **Sets that no pass changes satisfy the equations.** -/
theorem before_subset (h : sweep ps live = live) (hp : p ∈ ps) (hk : p.index < live.size) :
    before p.item (after live p.next) ⊆ live.getD p.index [] := by
  intro r hr
  have e := congrArg (fun l : Array LiveSet => l.getD p.index []) (refine_eq_of_sweep_eq h hp)
  simp only [getD_refine, hk, and_self, if_true] at e
  rw [← e, mem_union]
  exact Or.inr hr

/-! ## The passes are enough -/

/-- The sets hold only listed registers, each once. -/
structure Within (rs : List Register) (live : Array LiveSet) : Prop where
  nodup : ∀ k : Nat, (live.getD k []).Nodup
  subset : ∀ k : Nat, live.getD k [] ⊆ rs

/-- The registers that the points read are listed. -/
def Reads (rs : List Register) (ps : List Point) : Prop :=
  ∀ p ∈ ps, ∀ i, p.item = .instr i → i.uses ⊆ rs

theorem Within.after (h : Within rs live) (next : List Nat) : after live next ⊆ rs := by
  intro r hr
  obtain ⟨k, -, hk⟩ := mem_after.1 hr
  exact h.subset k hk

theorem Within.refine (h : Within rs live) (hp : ∀ i, p.item = .instr i → i.uses ⊆ rs) :
    Within rs (refine live p) := by
  have hbefore : before p.item (Liveness.after live p.next) ⊆ rs := by
    intro r hr
    cases hi : p.item with
    | label l => rw [hi, before_of_none rfl] at hr; exact h.after _ hr
    | stray q => rw [hi, before_of_none rfl] at hr; exact h.after _ hr
    | instr i =>
      rw [hi, mem_before_instr] at hr
      rcases hr with ⟨hr, -⟩ | hr
      · exact h.after _ hr
      · exact hp i hi hr
  constructor
  · intro k
    rw [getD_refine]
    split
    · exact nodup_union (h.nodup k) (nodup_before (nodup_after h.nodup))
    · exact h.nodup k
  · intro k
    rw [getD_refine]
    split
    · intro r hr
      rcases mem_union.1 hr with hr | hr
      · exact h.subset k hr
      · exact hbefore hr
    · exact h.subset k

theorem Within.sweep (h : Within rs live) (hps : Reads rs ps) : Within rs (sweep ps live) := by
  induction ps with
  | nil => exact h
  | cons p ps ih =>
    exact (ih fun q hq => hps q (List.mem_cons_of_mem _ hq)).refine (hps p List.mem_cons_self)

theorem Within.solve (h : Within rs live) (hps : Reads rs ps) (limit : Nat) :
    Within rs (solve ps limit live) := by
  induction limit generalizing live with
  | zero => exact h
  | succ limit ih =>
    rw [solve_succ]
    split
    · exact h
    · exact ih (h.sweep hps)

/-- The number of registers in all sets. -/
def total (live : Array LiveSet) : Nat := ∑ k ∈ Finset.range live.size, (live.getD k []).length

theorem Within.total_le (h : Within rs live) : total live ≤ live.size * rs.length := by
  have := Finset.sum_le_card_nsmul (Finset.range live.size) (fun k => (live.getD k []).length)
    rs.length fun k _ => (h.nodup k).length_le_of_subset (h.subset k)
  simpa [total] using this

/-- Sets that have grown hold more registers. -/
theorem Grows.total_lt (h : Grows live live') (hne : live' ≠ live) : total live < total live' := by
  unfold total
  rw [h.size]
  have hle : ∀ k ∈ Finset.range live.size, (live.getD k []).length ≤ (live'.getD k []).length :=
    fun k _ => (h.sets k).length_le
  refine lt_of_le_of_ne (Finset.sum_le_sum hle) fun e => hne ?_
  have hlen := (Finset.sum_eq_sum_iff_of_le hle).1 e
  refine (eq_of_getD h.size fun k => ?_).symm
  by_cases hk : k < live.size
  · exact (h.sets k).eq_of_length (hlen k (Finset.mem_range.2 hk))
  · have hk' : ¬ k < live'.size := by rw [h.size]; exact hk
    simp [Array.getD_eq_getD_getElem?, hk, hk']

/-- **The passes allowed are enough**: no further pass changes the sets. -/
theorem sweep_solve {limit : Nat} (h : Within rs live) (hps : Reads rs ps)
    (hlimit : live.size * rs.length < total live + limit) :
    sweep ps (solve ps limit live) = solve ps limit live := by
  induction limit generalizing live with
  | zero => have := h.total_le; omega
  | succ limit ih =>
    rw [solve_succ]
    split
    · next e => exact e
    · next e =>
      have hgrow := grows_sweep ps live
      refine ih (h.sweep hps) ?_
      have := hgrow.total_lt e
      rw [hgrow.size]
      omega

end Liveness

end Codegen
