/-
  Labels.

  A label names a place in a stream.  The empty name stands for "no label":
  no transfer, no entry label, no base of an address.

  Labels are generated one after the other.  How their names are written is used
  here only: generated labels have different names (`generated_injective`, and
  `number?` which finds the label), none of them is the absence of one, and a name
  that starts in another way is not generated.
-/

namespace Codegen

/-- The name of a place in a stream. -/
abbrev Label := String

namespace Label

/-- The absence of a label. -/
def none : Label := ""

/-- The name of the `n`-th generated label. -/
def generated (n : Nat) : Label := ".L" ++ toString n

/-- The number of a generated label. -/
def number? (l : Label) : Option Nat :=
  let n := Nat.ofDigitChars 10 (l.toList.drop 2) 0
  if l = generated n then some n else Option.none

variable {l : Label} {j k : Nat}

theorem number?_generated (k : Nat) : number? (generated k) = some k := by
  have hdigits : Nat.ofDigitChars 10 ((generated k).toList.drop 2) 0 = k := by
    have hlist : (generated k).toList.drop 2 = Nat.toDigits 10 k := by
      rw [generated, Nat.toString_eq_ofList_toDigits]
      simp
    rw [hlist, Nat.ofDigitChars_ten_toDigits]
  unfold number?
  simp only [hdigits, if_true]

theorem eq_generated_of_number? (h : l.number? = some k) : l = generated k := by
  unfold number? at h
  simp only at h
  split at h
  · next e => cases h; exact e
  · cases h

/-- **Generated labels have different names.** -/
theorem generated_injective (h : generated j = generated k) : j = k := by
  have hnumber := number?_generated j
  rw [h, number?_generated] at hnumber
  exact (Option.some.inj hnumber).symm

/-- A name that does not start with a dot is not generated. -/
theorem ne_generated (h : l.toList.head? ≠ some '.') (k : Nat) : l ≠ generated k := by
  rintro rfl
  exact h (by simp [generated])

theorem generated_ne_none (k : Nat) : generated k ≠ none :=
  (ne_generated (by decide) k).symm

end Label

end Codegen
