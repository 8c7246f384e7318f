/-
  The slots of spilled registers.

  Registers get the next slots of the frame in order (`allocateSlots_eq`).  Slots do
  not overlap (`slot_injective`): addresses wrap, but only a row of slots of enormous
  length comes round again, and that is never within reach (`le_of_reach`).
-/
import Codegen.Proofs.Spill.Access
import Codegen.Spill

namespace Codegen

namespace Spiller

variable {regs : List Register} {f : Frame} {r r' : Register} {slot : Slot} {k : Nat}

theorem allocateSlots_eq (regs : List Register) (f : Frame) :
    allocateSlots regs f =
      ((regs.zipIdx (f.slots + 1)).reverse.map fun x => (x.1, f.slot x.2), f.reserve regs.length) := by
  have key : ∀ (step : Slots × Frame → Register → Slots × Frame),
      (∀ slots f r, step (slots, f) r = ((r, f.allocate.1) :: slots, f.allocate.2)) →
      ∀ (regs : List Register) (slots : Slots) (f : Frame), regs.foldl step (slots, f) =
        ((regs.zipIdx (f.slots + 1)).reverse.map (fun x => (x.1, f.slot x.2)) ++ slots,
          f.reserve regs.length) := by
    intro step hstep regs
    induction regs with
    | nil => exact fun slots f => rfl
    | cons r regs ih =>
      intro slots f
      rw [List.foldl_cons, hstep]
      refine (ih _ _).trans ?_
      simp [List.zipIdx_cons, Frame.reserve, Frame.slot, Frame.allocate]
      omega
  rw [allocateSlots, key _ fun _ _ _ => rfl]
  simp

/-- The slot of a register has the number of the register. -/
theorem slot?_eq_some (h : (allocateSlots regs f).1.slot? r = some slot) :
    ∃ k, regs[k]? = some r ∧ slot = f.slot (f.slots + 1 + k) := by
  rw [allocateSlots_eq] at h
  obtain ⟨l₁, l₂, e, -⟩ := List.lookup_eq_some_iff.1 h
  have hmem : (r, slot) ∈ (regs.zipIdx (f.slots + 1)).reverse.map fun x => (x.1, f.slot x.2) := by
    simp only at e
    rw [e]
    simp
  obtain ⟨⟨r', k⟩, hk, e⟩ := List.mem_map.1 hmem
  cases e
  obtain ⟨hle, hget⟩ := List.mk_mem_zipIdx_iff_le_and_getElem?_sub.1 (List.mem_reverse.1 hk)
  exact ⟨k - (f.slots + 1), hget, by rw [Nat.add_sub_cancel' hle]⟩

theorem exists_slot? (h : r ∈ regs) : ∃ slot, (allocateSlots regs f).1.slot? r = some slot := by
  rw [allocateSlots_eq]
  cases hslot : Slots.slot? _ r with
  | some slot => exact ⟨slot, rfl⟩
  | none =>
    obtain ⟨k, hk⟩ := List.mem_iff_getElem?.1 h
    have := List.lookup_eq_none_iff.1 hslot (r, f.slot (f.slots + 1 + k)) (List.mem_map.2
      ⟨(r, f.slots + 1 + k), List.mem_reverse.2 (List.mk_mem_zipIdx_iff_le_and_getElem?_sub.2
        ⟨by omega, by simpa using hk⟩), rfl⟩)
    simp at this

theorem slot?_eq_none_iff :
    (allocateSlots regs f).1.slot? r = none ↔ r ∉ regs := by
  constructor
  · intro h hr
    obtain ⟨slot, hslot⟩ := exists_slot? (f := f) hr
    rw [h] at hslot
    cases hslot
  · intro h
    refine Option.eq_none_iff_forall_ne_some.2 fun slot hslot => h ?_
    obtain ⟨k, hk, -⟩ := slot?_eq_some hslot
    exact List.mem_of_getElem? hk

end Spiller

/-! ## Addresses -/

theorem Word.fits32_iff {w : Word} : w.fits32 = true ↔ -2147483648 ≤ w.toInt ∧ w.toInt ≤ 2147483647 := by
  simp [Word.fits32, Int64.le_iff_toInt_le]

/-- A slot within reach is near the frame pointer. -/
theorem Slot.offset_of_fits {slot : Slot} (h : slot.reach.fits32 = true) :
    -2147483648 < slot.offset.toInt ∧ slot.offset.toInt < 2147483648 := by
  rw [Word.fits32_iff] at h
  unfold Slot.reach at h
  have hlo := slot.offset.le_toInt
  have hhi := slot.offset.toInt_lt
  split at h
  · next hneg =>
    have hneg : slot.offset.toInt < 0 := Int64.lt_iff_toInt_lt.1 hneg
    rw [Int64.toInt_neg, Int.bmod_def] at h
    split at h <;> omega
  · next hpos =>
    have hpos : 0 ≤ slot.offset.toInt := Int64.le_iff_toInt_le.1 (Int64.not_lt.1 hpos)
    omega

theorem Frame.offset_slot (f : Frame) (k : Nat) :
    ∃ q : Int, (f.slot k).offset.toInt = 18446744073709551616 * q - 8 * k := by
  have e : (f.slot k).offset = Int64.ofInt (-(8 * k)) := by
    simp only [Frame.slot, wordSize, Int64.ofInt_neg, Int64.neg_mul]
    rw [show (8 * (k : Int)) = ((k * 8 : Nat) : Int) by omega, Int64.ofInt_eq_ofNat, Int64.ofNat_mul]
    rfl
  have h := Int.bmod_add_bdiv (-(8 * (k : Int))) Int64.size
  rw [show ((Int64.size : Nat) : Int) = 18446744073709551616 from rfl] at h
  rw [e, Int64.toInt_ofInt]
  exact ⟨-Int.bdiv (-(8 * (k : Int))) Int64.size, by omega⟩

/-- **Slots do not overlap**, unless there are so many that they come round. -/
theorem Frame.slot_injective {f : Frame} {k k' : Nat} (hlt : k < k' + 2305843009213693952)
    (hlt' : k' < k + 2305843009213693952) (h : (f.slot k).offset = (f.slot k').offset) : k = k' := by
  obtain ⟨q, hq⟩ := f.offset_slot k
  obtain ⟨q', hq'⟩ := f.offset_slot k'
  rw [h, hq'] at hq
  omega

/-- The slots of a frame that is not too large are within reach. -/
theorem Frame.fits32_reach {f : Frame} {k : Nat} (h : k < 268435456) :
    (f.slot k).reach.fits32 = true := by
  obtain ⟨q, hq⟩ := f.offset_slot k
  have hlo := (f.slot k).offset.le_toInt
  have hhi := (f.slot k).offset.toInt_lt
  rw [Word.fits32_iff, Slot.reach]
  split
  · rw [Int64.toInt_neg, Int.bmod_def]
    split <;> omega
  · omega

/-- Slots that are all within reach are few. -/
theorem Frame.le_of_reach {f : Frame} {n : Nat}
    (hreach : ∀ k, f.slots < k → k ≤ f.slots + n → (f.slot k).reach.fits32 = true) :
    n ≤ 536870912 := by
  refine Nat.le_of_not_lt fun hlt => ?_
  obtain ⟨q, hq⟩ := f.offset_slot (f.slots + 1)
  obtain ⟨q', hq'⟩ := f.offset_slot (f.slots + 1 + 536870912)
  have hfits := Slot.offset_of_fits (hreach (f.slots + 1) (by omega) (by omega))
  have hfits' := Slot.offset_of_fits (hreach (f.slots + 1 + 536870912) (by omega) (by omega))
  rw [hq] at hfits
  rw [hq'] at hfits'
  omega

end Codegen
