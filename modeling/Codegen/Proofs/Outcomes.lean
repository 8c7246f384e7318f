/-
  Computations that may fail, taken apart, and lists that correspond.
-/
import Mathlib

namespace Codegen

namespace Except

variable {ε α β : Type}

theorem bind_eq_ok {x : Except ε α} {f : α → Except ε β} {b : β} :
    (x >>= f) = .ok b ↔ ∃ a, x = .ok a ∧ f a = .ok b := by
  cases x with
  | ok a => exact ⟨fun h => ⟨a, rfl, h⟩, fun ⟨_, e, h⟩ => by cases e; exact h⟩
  | error e =>
    constructor
    · intro h; cases h
    · rintro ⟨_, h, _⟩; cases h

theorem mapM_eq_ok {f : α → Except ε β} {xs : List α} {ys : List β} (h : xs.mapM f = .ok ys) :
    List.Forall₂ (fun x y => f x = .ok y) xs ys := by
  induction xs generalizing ys with
  | nil => cases h; exact .nil
  | cons x xs ih =>
    rw [List.mapM_cons] at h
    obtain ⟨y, hy, h⟩ := bind_eq_ok.1 h
    obtain ⟨ys', hys, h⟩ := bind_eq_ok.1 h
    cases h
    exact .cons hy (ih hys)

theorem mapM_eq_ok_iff {f : α → Except ε β} {xs : List α} {ys : List β} :
    xs.mapM f = .ok ys ↔ List.Forall₂ (fun x y => f x = .ok y) xs ys := by
  refine ⟨mapM_eq_ok, fun h => ?_⟩
  induction h with
  | nil => rfl
  | cons hx _ ih =>
    rw [List.mapM_cons]
    exact bind_eq_ok.2 ⟨_, hx, bind_eq_ok.2 ⟨_, ih, rfl⟩⟩

end Except

theorem Option.mapM_eq_some {α β : Type} {f : α → Option β} {xs : List α} {ys : List β}
    (h : xs.mapM f = some ys) : List.Forall₂ (fun x y => f x = some y) xs ys := by
  induction xs generalizing ys with
  | nil => cases h; exact .nil
  | cons x xs ih =>
    rw [List.mapM_cons] at h
    obtain ⟨y, hy, h⟩ := Option.bind_eq_some_iff.1 h
    obtain ⟨ys', hys, h⟩ := Option.bind_eq_some_iff.1 h
    cases h
    exact .cons hy (ih hys)

theorem Option.exists_mapM {α β : Type} {f : α → Option β} {xs : List α}
    (h : ∀ x ∈ xs, ∃ y, f x = some y) : ∃ ys, xs.mapM f = some ys := by
  induction xs with
  | nil => exact ⟨[], rfl⟩
  | cons x xs ih =>
    obtain ⟨y, hy⟩ := h x List.mem_cons_self
    obtain ⟨ys, hys⟩ := ih fun z hz => h z (List.mem_cons_of_mem _ hz)
    exact ⟨y :: ys, by rw [List.mapM_cons, hy, hys]; rfl⟩

namespace EStateM

variable {ε σ α β : Type} {x : EStateM ε σ α} {k : α → EStateM ε σ β} {s s' : σ} {a : α} {b : β}

theorem bind_eq_ok : (x >>= k) s = .ok b s' ↔ ∃ a s₁, x s = .ok a s₁ ∧ k a s₁ = .ok b s' := by
  change EStateM.bind x k s = _ ↔ _
  unfold EStateM.bind
  constructor
  · intro h
    split at h
    · next a s₁ e => exact ⟨a, s₁, e, h⟩
    · cases h
  · rintro ⟨a, s₁, e, h⟩
    rw [e]; exact h

theorem pure_eq_ok {a' : α} : (pure a' : EStateM ε σ α) s = .ok a s' ↔ a' = a ∧ s = s' := by
  change EStateM.Result.ok a' s = _ ↔ _
  constructor
  · intro h; cases h; exact ⟨rfl, rfl⟩
  · rintro ⟨rfl, rfl⟩; rfl

/-- A traversal that succeeds has a result for each element, computed from some state. -/
theorem mapM_eq_ok {f : α → EStateM ε σ β} {xs : List α} {ys : List β} (h : xs.mapM f s = .ok ys s') :
    List.Forall₂ (fun x y => ∃ t t', f x t = .ok y t') xs ys := by
  induction xs generalizing ys s with
  | nil => cases h; exact .nil
  | cons x xs ih =>
    rw [List.mapM_cons] at h
    obtain ⟨y, s₁, hy, h⟩ := bind_eq_ok.1 h
    obtain ⟨ys', s₂, hys, h⟩ := bind_eq_ok.1 h
    cases h
    exact .cons ⟨s, s₁, hy⟩ (ih hys)

theorem map_eq_ok {f : α → β} : (f <$> x) s = .ok b s' ↔ ∃ a, x s = .ok a s' ∧ f a = b := by
  change EStateM.map f x s = _ ↔ _
  unfold EStateM.map
  split
  · next a s₁ e =>
    constructor
    · intro h; cases h; exact ⟨a, e, rfl⟩
    · rintro ⟨a', h, rfl⟩; rw [e] at h; cases h; rfl
  · next e =>
    constructor
    · intro h; cases h
    · rintro ⟨a, h, -⟩; rw [e] at h; cases h

end EStateM

/-- Every element of a list has its counterpart in the other one. -/
theorem forall₂_exists_right {α β : Type} {R : α → β → Prop} {xs : List α} {ys : List β}
    (h : List.Forall₂ R xs ys) {x : α} (hx : x ∈ xs) : ∃ y ∈ ys, R x y := by
  induction h with
  | nil => cases hx
  | cons hr _ ih =>
    rcases List.mem_cons.1 hx with rfl | hx
    · exact ⟨_, List.mem_cons_self, hr⟩
    · obtain ⟨y, hy, hr⟩ := ih hx
      exact ⟨y, List.mem_cons_of_mem _ hy, hr⟩

theorem forall₂_exists_left {α β : Type} {R : α → β → Prop} {xs : List α} {ys : List β}
    (h : List.Forall₂ R xs ys) {y : β} (hy : y ∈ ys) : ∃ x ∈ xs, R x y :=
  forall₂_exists_right h.flip hy

theorem nodup_eraseDups {α : Type} [BEq α] [LawfulBEq α] (xs : List α) : xs.eraseDups.Nodup := by
  -- the recursion of `eraseDups` is on the rest without the head
  induction hn : xs.length using Nat.strongRecOn generalizing xs with
  | ind n ih =>
    cases xs with
    | nil => exact List.nodup_nil
    | cons x xs =>
      subst hn
      rw [List.eraseDups_cons, List.nodup_cons]
      refine ⟨by simp, ih _ ?_ _ rfl⟩
      exact Nat.lt_succ_of_le (List.length_filter_le _ _)

end Codegen
