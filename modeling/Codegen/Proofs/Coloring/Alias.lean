/-
  Chains of aliases.

  A node that was merged into another one is followed to the node that stands
  for it.  Each merge makes one more node an alias, so a chain has at most as
  many links as there are merged nodes (`Settled`), and merging `v` into `u`
  replaces `v` by `u` among the representatives (`chase_set`).
-/
import Codegen.Coloring.Step
import Codegen.Indexed
import Mathlib

namespace Codegen.Coloring

variable {n : Nat} {aliasOf : Vector (Option (Fin n)) n} {i u v : Fin n}

theorem chase_of_none (h : aliasOf.get i = none) (l : Nat) : chase aliasOf l i = i := by
  cases l with
  | zero => rfl
  | succ l => simp only [chase, h]

theorem chase_of_some {j : Fin n} (h : aliasOf.get i = some j) (l : Nat) :
    chase aliasOf (l + 1) i = chase aliasOf l j := by
  simp only [chase, h]

/-- Once a chain has ended, following it further changes nothing. -/
theorem chase_of_le {l l' : Nat} (hl : l ≤ l') (h : aliasOf.get (chase aliasOf l i) = none) :
    chase aliasOf l' i = chase aliasOf l i := by
  induction l generalizing i l' with
  | zero => exact chase_of_none h l'
  | succ l ih =>
    obtain ⟨l', rfl⟩ : ∃ k, l' = k + 1 := ⟨l' - 1, by omega⟩
    cases hi : aliasOf.get i with
    | none => rw [chase_of_none hi, chase_of_none hi]
    | some j =>
      rw [chase_of_some hi] at h
      rw [chase_of_some hi, chase_of_some hi]
      exact ih (by omega) h

/-- The end of a chain is its start or the alias of some node. -/
theorem chase_eq_or (aliasOf : Vector (Option (Fin n)) n) (l : Nat) (i : Fin n) :
    chase aliasOf l i = i ∨ ∃ j, aliasOf.get j = some (chase aliasOf l i) := by
  induction l generalizing i with
  | zero => exact Or.inl rfl
  | succ l ih =>
    cases hi : aliasOf.get i with
    | none => exact Or.inl (chase_of_none hi _)
    | some j =>
      rw [chase_of_some hi]
      rcases ih j with h | h
      · exact Or.inr ⟨i, by rw [h, hi]⟩
      · exact Or.inr h

/-! ## The length of chains -/

/-- The number of nodes that were merged into another one. -/
def merged (aliasOf : Vector (Option (Fin n)) n) : Nat :=
  (List.finRange n).countP fun i => (aliasOf.get i).isSome

/-- No chain is longer than the number of merged nodes. -/
def Settled (aliasOf : Vector (Option (Fin n)) n) : Prop :=
  ∀ i, aliasOf.get (chase aliasOf (merged aliasOf) i) = none

theorem merged_le (aliasOf : Vector (Option (Fin n)) n) : merged aliasOf ≤ n := by
  have := List.countP_le_length (p := fun i => (aliasOf.get i).isSome) (l := List.finRange n)
  rwa [List.length_finRange] at this

theorem merged_set (hv : aliasOf.get v = none) :
    merged (aliasOf.set v (some u) v.isLt) = merged aliasOf + 1 := by
  have key : ∀ l : List (Fin n), l.Nodup →
      l.countP (fun i => ((aliasOf.set v (some u) v.isLt).get i).isSome) =
        l.countP (fun i => (aliasOf.get i).isSome) + if v ∈ l then 1 else 0 := by
    intro l hl
    induction l with
    | nil => simp
    | cons a l ih =>
      obtain ⟨hal, hl⟩ := List.nodup_cons.1 hl
      by_cases ha : a = v
      · subst ha
        simp [ih hl, hal, hv]
      · rw [List.countP_cons, List.countP_cons, ih hl, Indexed.get_set_ne aliasOf _ ha]
        simp only [List.mem_cons, Ne.symm ha, false_or]
        omega
  have := key (List.finRange n) (List.nodup_finRange n)
  rwa [if_pos (List.mem_finRange v)] at this

theorem settled_replicate : Settled (Vector.replicate n (none : Option (Fin n))) := fun i => by
  simp [Vector.get]

/-- The end of a chain was not merged into another node. -/
theorem Settled.get_chase (h : Settled aliasOf) (i : Fin n) :
    aliasOf.get (chase aliasOf n i) = none := by
  rw [chase_of_le (merged_le aliasOf) (h i)]
  exact h i

/-- A chain after `v` was merged into `u`. -/
theorem chase_set_succ (hu : aliasOf.get u = none) (hv : aliasOf.get v = none) (huv : u ≠ v)
    {l : Nat} (h : aliasOf.get (chase aliasOf l i) = none) :
    chase (aliasOf.set v (some u) v.isLt) (l + 1) i =
      if chase aliasOf l i = v then u else chase aliasOf l i := by
  have hu' : (aliasOf.set v (some u) v.isLt).get u = none := by
    rw [Indexed.get_set_ne aliasOf _ huv]; exact hu
  induction l generalizing i with
  | zero =>
    by_cases hi : i = v
    · subst hi
      rw [chase_of_some (Indexed.get_set_self aliasOf i _)]
      simp [chase]
    · have hi' : (aliasOf.set v (some u) v.isLt).get i = none := by
        rw [Indexed.get_set_ne aliasOf _ hi]; exact h
      rw [chase_of_none hi']
      simp [chase, hi]
  | succ l ih =>
    cases hi : aliasOf.get i with
    | none =>
      rw [chase_of_none hi]
      by_cases hiv : i = v
      · subst hiv
        rw [chase_of_some (Indexed.get_set_self aliasOf i _), chase_of_none hu', if_pos rfl]
      · have hi' : (aliasOf.set v (some u) v.isLt).get i = none := by
          rw [Indexed.get_set_ne aliasOf _ hiv]; exact hi
        rw [chase_of_none hi', if_neg hiv]
    | some j =>
      have hiv : i ≠ v := by rintro rfl; rw [hv] at hi; cases hi
      have hi' : (aliasOf.set v (some u) v.isLt).get i = some j := by
        rw [Indexed.get_set_ne aliasOf _ hiv]; exact hi
      rw [chase_of_some hi] at h
      rw [chase_of_some hi', chase_of_some hi]
      exact ih h

theorem Settled.set (h : Settled aliasOf) (hu : aliasOf.get u = none) (hv : aliasOf.get v = none)
    (huv : u ≠ v) : Settled (aliasOf.set v (some u) v.isLt) := fun i => by
  rw [merged_set hv, chase_set_succ hu hv huv (h i)]
  split
  · rw [Indexed.get_set_ne aliasOf _ huv]; exact hu
  · next hne => rw [Indexed.get_set_ne aliasOf _ hne]; exact h i

/-- **Merging `v` into `u` replaces `v` by `u` among the representatives.** -/
theorem Settled.chase_set (h : Settled aliasOf) (hu : aliasOf.get u = none)
    (hv : aliasOf.get v = none) (huv : u ≠ v) (i : Fin n) :
    chase (aliasOf.set v (some u) v.isLt) n i =
      if chase aliasOf n i = v then u else chase aliasOf n i := by
  rw [chase_of_le (merged_le _) (h.set hu hv huv i), merged_set hv, chase_set_succ hu hv huv (h i),
    chase_of_le (merged_le aliasOf) (h i)]

namespace State

variable {m : Nat} {s : State n m}

@[simp] theorem coalesced_eq_false : s.coalesced i = false ↔ s.aliasOf.get i = none := by
  simp [coalesced]

theorem representative_of_not_coalesced (h : s.coalesced i = false) : s.representative i = i :=
  chase_of_none (coalesced_eq_false.1 h) n

theorem coalesced_representative (h : Settled s.aliasOf) (i : Fin n) :
    s.coalesced (s.representative i) = false :=
  coalesced_eq_false.2 (h.get_chase i)

end State

end Codegen.Coloring
