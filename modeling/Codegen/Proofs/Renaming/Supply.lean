/-
  Supplies up to names.

  What is drawn from a supply has numbers, and two supplies differ in where the numbers
  start.  `Supply.onto` renames what is drawn from the one to what is drawn from the other,
  in the order of drawing, and leaves alone what was drawn before.
-/
import Codegen.Frame
import Codegen.Proofs.Renaming.Layout

namespace Codegen

/-! ## Numbered names -/

namespace Label

/-- The label was made by then, if it was made at all. -/
def Known (known : Nat) (l : Label) : Prop := ∀ k, l = generated k → k ≤ known

end Label

namespace Renaming

/-- The numbers after `lo` become those after `hi`, in order. -/
def shift (lo hi k : Nat) : Nat := if k ≤ lo then k else k - lo + hi

theorem shift_of_le {lo hi k : Nat} (h : k ≤ lo) : shift lo hi k = k := if_pos h

theorem shift_of_lt {lo hi k : Nat} (h : lo < k) : shift lo hi k = k - lo + hi := if_neg (Nat.not_le.2 h)

theorem shift_injective {lo hi : Nat} (h : lo ≤ hi) : Function.Injective (shift lo hi) := by
  intro j k e
  unfold shift at e
  split at e <;> split at e <;> omega

theorem shift_shift {lo mid : Nat} (h : lo ≤ mid) (hi k : Nat) :
    shift mid hi (shift lo mid k) = shift lo hi k := by
  unfold shift
  by_cases hk : k ≤ lo
  · rw [if_pos hk, if_pos hk, if_pos (Nat.le_trans hk h)]
  · rw [if_neg hk, if_neg hk, if_neg (by omega)]
    omega

theorem shift_self (lo k : Nat) : shift lo lo k = k := by
  unfold shift
  split <;> omega

/-- The label with its number shifted, if it is generated. -/
def shiftLabel (lo hi : Nat) (l : Label) : Label := (l.number?.map fun k => .generated (shift lo hi k)).getD l

theorem shiftLabel_generated (lo hi k : Nat) :
    shiftLabel lo hi (.generated k) = .generated (shift lo hi k) := by
  rw [shiftLabel, Label.number?_generated]
  rfl

theorem shiftLabel_of_none {lo hi : Nat} {l : Label} (h : l.number? = none) : shiftLabel lo hi l = l := by
  rw [shiftLabel, h]
  rfl

theorem number?_shiftLabel (lo hi : Nat) (l : Label) :
    (shiftLabel lo hi l).number? = l.number?.map (shift lo hi) := by
  cases h : l.number? with
  | none => rw [shiftLabel_of_none h, h]; rfl
  | some k =>
    rw [Label.eq_generated_of_number? h, shiftLabel_generated, Label.number?_generated]
    rfl

theorem shiftLabel_injective {lo hi : Nat} (h : lo ≤ hi) : Function.Injective (shiftLabel lo hi) := by
  intro l l' e
  have hnumber := congrArg Label.number? e
  rw [number?_shiftLabel, number?_shiftLabel] at hnumber
  have hnumber := Option.map_injective (shift_injective h) hnumber
  cases hl : l.number? with
  | none => rwa [shiftLabel_of_none hl, shiftLabel_of_none (hnumber ▸ hl)] at e
  | some k =>
    rw [Label.eq_generated_of_number? hl, Label.eq_generated_of_number? (hnumber ▸ hl : l'.number? = some k)]

theorem shiftLabel_shiftLabel {lo mid : Nat} (h : lo ≤ mid) (hi : Nat) (l : Label) :
    shiftLabel mid hi (shiftLabel lo mid l) = shiftLabel lo hi l := by
  cases hl : l.number? with
  | none => rw [shiftLabel_of_none hl, shiftLabel_of_none hl, shiftLabel_of_none hl]
  | some k =>
    rw [Label.eq_generated_of_number? hl, shiftLabel_generated, shiftLabel_generated, shift_shift h,
      shiftLabel_generated]

theorem shiftLabel_self (lo : Nat) (l : Label) : shiftLabel lo lo l = l := by
  cases hl : l.number? with
  | none => exact shiftLabel_of_none hl
  | some k => rw [Label.eq_generated_of_number? hl, shiftLabel_generated, shift_self]

end Renaming

/-- All names stay. -/
def Renaming.same : Renaming := ⟨fun k => k, fun l => l⟩

namespace Supply

open Renaming

variable {u v w : Supply}

/-- What is drawn after `u` is named as what is drawn after `v`, in the order of drawing. -/
def onto (u v : Supply) : Renaming := ⟨shift u.registers v.registers, shiftLabel u.labels v.labels⟩

/-- The counters are above all registers and labels that the body and the frame mention. -/
structure Above (u : Supply) (body : Flow) (f : Frame) : Prop where
  body : body.Within (Register.Known u.registers) (Label.Known u.labels)
  frame : Label.Known u.labels f.label

/-- The counters of the supply that is ahead, each for itself. -/
def ahead (u v : Supply) : Supply := ⟨max u.registers v.registers, max u.labels v.labels⟩

theorem later_ahead_left (u v : Supply) : u.Later (u.ahead v) := ⟨Nat.le_max_left _ _, Nat.le_max_left _ _⟩

theorem later_ahead_right (u v : Supply) : v.Later (u.ahead v) := ⟨Nat.le_max_right _ _, Nat.le_max_right _ _⟩

theorem carries_onto (u v : Supply) : (u.onto v).Carries u v where
  registers _ hk := shift_of_lt hk
  labels k hk := (shiftLabel_generated _ _ k).trans (congrArg _ (shift_of_lt hk))

theorem faithful_onto (h : u.Later v) : (u.onto v).Faithful where
  id := shift_injective h.registers
  label := shiftLabel_injective h.labels
  none := by
    change shiftLabel u.labels v.labels Label.none = Label.none
    refine shiftLabel_of_none ?_
    cases hl : Label.number? Label.none with
    | none => rfl
    | some k => exact absurd (Label.eq_generated_of_number? hl).symm (Label.generated_ne_none k)

theorem comp_onto (h : u.Later v) (w : Supply) : (v.onto w).comp (u.onto v) = u.onto w := by
  simp only [onto, comp, Renaming.mk.injEq]
  exact ⟨funext (shift_shift h.registers _), funext (shiftLabel_shiftLabel h.labels _)⟩

theorem onto_self (u : Supply) : u.onto u = .same := by
  simp only [onto, same, Renaming.mk.injEq]
  exact ⟨funext (shift_self _), funext (shiftLabel_self _)⟩

theorem keepsRegister_onto {r : Register} (h : r.Known u.registers) :
    (u.onto v).KeepsRegister r := by
  cases r with
  | virtual k => exact congrArg _ (shift_of_le (h k rfl))
  | physical p => rfl

theorem keepsLabel_onto {l : Label} (h : l.Known u.labels) : (u.onto v).KeepsLabel l := by
  change shiftLabel u.labels v.labels l = l
  cases hl : l.number? with
  | none => exact shiftLabel_of_none hl
  | some k =>
    have e := Label.eq_generated_of_number? hl
    rw [e, shiftLabel_generated, shift_of_le (h k e)]

end Supply

end Codegen
