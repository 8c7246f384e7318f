/-
  Finite maps as association lists.

  A later binding replaces an earlier one, so every key is bound at most once.
  `Bindings.get?` is the view of the map: what an update does to it is said by
  `get?_set_self` and `get?_set_ne`.
-/

namespace Codegen

/-- A finite map, the latest binding first. -/
abbrev Bindings (α β : Type) := List (α × β)

namespace Bindings

variable {α β : Type} [DecidableEq α]

/-- The value bound to a key. -/
def get? (m : Bindings α β) (k : α) : Option β := List.lookup k m

/-- The map with a key (re)bound. -/
def set (m : Bindings α β) (k : α) (v : β) : Bindings α β :=
  (k, v) :: List.filter (fun entry => !decide (entry.1 = k)) m

/-- The map of listed bindings, of which a later one replaces an earlier one. -/
def ofList (entries : List (α × β)) : Bindings α β :=
  entries.foldl (fun m entry => set m entry.1 entry.2) []

@[simp] theorem get?_nil (k : α) : get? ([] : Bindings α β) k = none := rfl

@[simp] theorem get?_set_self (m : Bindings α β) (k : α) (v : β) :
    get? (set m k v) k = some v := by
  simp [get?, set]

@[simp] theorem get?_set_ne (m : Bindings α β) {k j : α} (v : β) (h : j ≠ k) :
    get? (set m k v) j = get? m j := by
  have hjk : (j == k) = false := by simpa using h
  simp only [get?, set, List.lookup_cons, hjk]
  induction m with
  | nil => rfl
  | cons entry m ih =>
    obtain ⟨a, b⟩ := entry
    by_cases ha : a = k
    · subst ha
      simp [List.lookup_cons, hjk, ih]
    · simp only [List.filter_cons, ha, decide_false, Bool.not_false, if_true, List.lookup_cons, ih]

end Bindings

end Codegen
