/-
  Spill code creates no new conflicts.

  In the code of an instruction one instruction stands for it, and the loads and
  stores around it touch only the scratch registers and the frame pointer
  (`kept_of_expanded`).  So registers that stay interfere only if they did before.
-/
import Codegen.Proofs.Liveness.Expand
import Codegen.Proofs.Spill.Follow

namespace Codegen.Spiller

variable {slots : Slots} {scratch : List Physical} {i : Instr} {code : List Instr} {slot : Slot}
  {r : Register} {items : Stream} {pieces : List Stream}

/-- The register occurs in spill code only where the instruction itself mentions it. -/
def Untouched (slots : Slots) (scratch : List Physical) (r : Register) : Prop :=
  Stays slots scratch r ∧ r ≠ .physical .rbp

/-- An access touches the frame pointer and its own register. -/
theorem passes_access {a : Access} (hframe : slot.framePointer = .rbp)
    (ha : ∀ r ∈ a.registers, ∃ p ∈ scratch, r = .physical p) :
    (a.instr slot).Passes (Untouched slots scratch) := by
  have htouch : ∀ r, Untouched slots scratch r → r ∉ (a.instr slot).mentions := by
    intro r hr hmem
    rcases Access.mem_mentions_instr hmem with rfl | hmem
    · exact hr.2 (by rw [hframe])
    · obtain ⟨p, hp, rfl⟩ := ha r hmem
      exact hr.1.2 p hp rfl
  refine ⟨?_, ?_, fun r hr h => htouch r hr (List.mem_append_left _ h),
    fun r hr h => htouch r hr (List.mem_append_right _ h)⟩
  · cases a <;> rfl
  · cases a <;> rfl

theorem passes_transfers {rs : List Register} {access : Register → Access}
    (hframe : ∀ {r slot}, slots.slot? r = some slot → slot.framePointer = .rbp)
    (haccess : ∀ r, (access r).registers = [r]) :
    ∀ i' ∈ transfers slots (places slots scratch i) access rs, i'.Passes (Untouched slots scratch) := by
  intro i' hi'
  obtain ⟨r, -, slot, p, hslot, hp, rfl⟩ := mem_transfers hi'
  refine passes_access (hframe hslot) fun r' hr' => ⟨p, (spilled_of_place hp).2.2, ?_⟩
  rw [haccess] at hr'
  exact List.mem_singleton.1 hr'

/-- The access that replaces a move stands for it. -/
theorem stands_direct {a : Access} (h : Direct slots i slot a) (hframe : slot.framePointer = .rbp) :
    i.Stands (Untouched slots scratch) [] (a.instr slot) [] := by
  have hne : ∀ r, Untouched slots scratch r → r ≠ .physical slot.framePointer := fun r hr => by
    rw [hframe]; exact hr.2
  have hspilled : ∀ {r}, slots.slot? r = some slot → ¬ Untouched slots scratch r := fun hslot hr => by
    rw [hr.1.1] at hslot; cases hslot
  -- the register that a store writes is not one of those that stay
  have hgone : ∀ {d}, slots.slot? d = some slot → ∀ r, Untouched slots scratch r →
      (r ∈ ([] : List Register) ↔ r ∈ [d]) := fun hd r hr =>
    ⟨fun h => (by cases h), fun h => absurd (List.mem_singleton.1 h ▸ hr) (hspilled hd)⟩
  cases h with
  | @load d s _ hd hs =>
    refine .alone rfl rfl (fun r hr hmem => ?_) (fun r hr => Iff.rfl) fun d' s' hd' hs' e => ?_
    · exact absurd (List.mem_singleton.1 hmem) (hne r hr)
    · cases e
      exact absurd hs' (hspilled hs)
  | @store d s _ hd hs =>
    refine .alone rfl rfl (fun r hr hmem => ?_) (fun r hr => hgone hd r hr) fun d' s' hd' hs' e => ?_
    · rcases List.mem_append.1 hmem with hmem | hmem
      · exact List.mem_append_left _ hmem
      · exact absurd (List.mem_singleton.1 hmem) (hne r hr)
    · cases e
      exact absurd hd' (hspilled hd)
  | @set d _ w hd =>
    refine .alone rfl rfl (fun r hr hmem => ?_) (fun r hr => hgone hd r hr) fun _ _ _ _ e => (by cases e)
    exact absurd (List.mem_singleton.1 hmem) (hne r hr)

/-- The instruction on scratch registers stands for the instruction. -/
theorem stands_through (hi : i.ListsPhysical)
    (hvirtual : ∀ r slot, slots.slot? r = some slot → r.isPhysical = false)
    (hframe : ∀ {r slot}, slots.slot? r = some slot → slot.framePointer = .rbp)
    (hspilled : ∃ r ∈ i.mentions, ∃ slot, slots.slot? r = some slot)
    (hlen : (spilledIn slots i.registers).length ≤ scratch.length) :
    i.Stands (Untouched slots scratch) (transfers slots (places slots scratch i) .load i.uses)
      (i.mapRegisters (placed (places slots scratch i)))
      (transfers slots (places slots scratch i) .store i.defines) := by
  have hfixed := placed_eq_of_physical hlen hvirtual
  -- only a register that stays is found again
  have hback : ∀ r, Untouched slots scratch r → ∀ r₀ ∈ i.mentions,
      placed (places slots scratch i) r₀ = r → r₀ = r := by
    intro r hr r₀ hr₀ e
    rcases placed_cases hlen hr₀ with ⟨-, e'⟩ | ⟨slot, p, -, hp, -, e'⟩
    · exact e'.symm.trans e
    · exact absurd (e.symm.trans e') (hr.1.2 p hp)
  obtain ⟨q, hq, slot, hslot⟩ := hspilled
  have hfalls : i.fallsThrough = true := by
    cases i with
    | jmp l => cases hq
    | ret results =>
      have := (List.mem_append.1 hq).elim (hi q) nofun
      rw [hvirtual q slot hslot] at this
      cases this
    | _ => rfl
  refine ⟨passes_transfers hframe fun _ => rfl, passes_transfers hframe fun _ => rfl, ?_, ?_, ?_, ?_, ?_,
    fun _ => hfalls⟩
  · cases i <;> rfl
  · cases i <;> rfl
  · intro r hr hmem
    rw [Instr.uses_mapRegisters hi hfixed] at hmem
    obtain ⟨r₀, hr₀, e⟩ := List.mem_map.1 hmem
    exact hback r hr r₀ (List.mem_append_left _ hr₀) e ▸ hr₀
  · intro r hr
    rw [Instr.defines_mapRegisters hi hfixed]
    constructor
    · intro hmem
      obtain ⟨r₀, hr₀, e⟩ := List.mem_map.1 hmem
      exact hback r hr r₀ (List.mem_append_right _ hr₀) e ▸ hr₀
    · intro hmem
      refine List.mem_map.2 ⟨r, hmem, ?_⟩
      rcases placed_cases hlen (List.mem_append_right _ hmem) with ⟨-, e⟩ | ⟨slot, p, hslot, -⟩
      · exact e
      · rw [hr.1.1] at hslot
        cases hslot
  · -- a copy between registers that stay mentions no other register
    intro d s hd hs e
    have hmentions : q = s ∨ q = d := by
      unfold Instr.copy? at e
      split at e
      · cases e
        simpa [Instr.mentions, Instr.uses, Instr.defines, Operand.registers, Operand.addressUses,
          Operand.defined, Operand.register?] using hq
      · cases e
    rcases hmentions with rfl | rfl
    · rw [hs.1.1] at hslot; cases hslot
    · rw [hd.1.1] at hslot; cases hslot

/-- **Spill code keeps the registers that it does not touch.** -/
theorem kept_of_expanded (hclean : ∀ r, .stray r ∉ items)
    (hlists : ∀ i ∈ items.instructions, i.ListsPhysical)
    (hvirtual : ∀ r slot, slots.slot? r = some slot → r.isPhysical = false)
    (hframe : ∀ {r slot}, slots.slot? r = some slot → slot.framePointer = .rbp)
    (h : List.Forall₂ (ExpandedItem slots scratch) items pieces) :
    List.Forall₂ (Stream.Kept (Untouched slots scratch)) items pieces := by
  induction h with
  | nil => exact .nil
  | @cons item piece items pieces hitem _ ih =>
    rw [forall_instructions_cons] at hlists
    refine .cons ?_ (ih (fun r hr => hclean r (List.mem_cons_of_mem _ hr)) hlists.2)
    cases hitem with
    | other hnone =>
      cases item with
      | instr i => cases hnone
      | label l => exact .label l
      | stray r => exact absurd List.mem_cons_self (hclean r)
    | @instr i code h =>
      have hi := hlists.1 i rfl
      cases h with
      | same hnone =>
        exact .single (.alone rfl rfl (fun _ _ h => h) (fun _ _ => Iff.rfl) fun _ _ _ _ e => e)
      | direct h =>
        obtain ⟨r, -, hr⟩ := h.spilled
        exact .single (stands_direct h (hframe hr))
      | through hspilled hlen =>
        rw [List.append_assoc, List.singleton_append]
        exact .instr (stands_through hi hvirtual hframe hspilled hlen)

end Codegen.Spiller
