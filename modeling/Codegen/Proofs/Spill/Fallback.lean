/-
  When spilling succeeds.

  Two scratch registers are enough for every instruction of a graph.  What can fail
  is a store of a constant: one of more than 32 bits is first moved into a register
  that is drawn for it, and that register has no place (`spill_returns_iff`).
-/
import Codegen.Proofs.Layout.Assembled
import Codegen.Proofs.Spill.Complete

namespace Codegen.Spiller

variable {g : Flow} {entry : Label} {s : Spiller} {u u' v v' : Supply} {items items' : Stream}
  {a b : Allocation} {f f' : Frame}

/-- In a frame that is not too large, only constants may not fit. -/
theorem fits_allocateSlots_iff {i : Instr} (hframe : f.slots + a.unassigned.length < 268435456) :
    Fits (allocateSlots a.unassigned f).1 i ↔
      ∀ d w, i = .mov (.reg d) (.imm w) → d ∈ a.unassigned → w.fits32 = true := by
  constructor
  · intro h d w e hd
    exact h.2 d w e fun hnone => slot?_eq_none_iff.1 hnone hd
  · refine fun h => ⟨fun r _ slot hslot => ?_, fun d w e hd => h d w e ?_⟩
    · obtain ⟨k, hk, rfl⟩ := slot?_eq_some hslot
      obtain ⟨hlt, -⟩ := List.getElem?_eq_some_iff.1 hk
      exact Frame.fits32_reach (by omega)
    · exact Decidable.not_not.1 fun hd' => hd (slot?_eq_none_iff.2 hd')

/-- Spilling succeeds unless a register without a place is set to a wide constant. -/
theorem exists_spill_iff (hs : s.cover = Amd64.catalogue.coverStmts)
    (hknown : ∀ r ∈ items.registers, r.Known v.registers)
    (hlists : ∀ i ∈ items.instructions, i.ListsPhysical)
    (htotal : ∀ r ∈ items.registers, (∃ p, a.lookup r = some p) ∨ r ∈ a.unassigned)
    (hassigned : ∀ r p, a.lookup r = some p → r.Known v.registers)
    (hleft : ∀ r ∈ a.unassigned, r.isPhysical = false) (hscratch : 2 ≤ s.scratch.length)
    (hframe : f.slots + a.unassigned.length < 268435456) :
    (∃ result v', s.spill items a f v = .ok result v') ↔
      ∀ d w, .mov (.reg d) (.imm w) ∈ items.instructions → d ∈ a.unassigned → w.fits32 = true := by
  constructor
  · rintro ⟨⟨items', b, f'⟩, v', h⟩ d w hi hd
    have hfits := (spill_eq_ok hs hknown hassigned h).1 _ hi
    exact (fits_allocateSlots_iff hframe).1 hfits d w rfl hd
  · intro h
    refine exists_spill hs hknown hlists hleft hscratch htotal fun i hi => ?_
    exact (fits_allocateSlots_iff hframe).2 fun d w e hd => h d w (e ▸ hi) hd

/-- **Spilling the registers of a graph succeeds unless a register without a place is
    set to a wide constant.**  Afterwards no such register is left, and every register
    has a place. -/
theorem spill_returns_iff (hs : s.cover = Amd64.catalogue.coverStmts) (hg : g.Known u.registers)
    (hlayout : g.layout Amd64.catalogue.coverer entry u = .ok items u')
    (hv : u'.registers ≤ v.registers)
    (htotal : ∀ r ∈ items.registers, (∃ p, a.lookup r = some p) ∨ r ∈ a.unassigned)
    (hassigned : ∀ r p, a.lookup r = some p → r.Known v.registers)
    (hleft : ∀ r ∈ a.unassigned, r.isPhysical = false) (hscratch : 2 ≤ s.scratch.length)
    (hframe : f.slots + a.unassigned.length < 268435456) :
    ((∃ result v', s.spill items a f v = .ok result v') ↔
        ∀ d w, .mov (.reg d) (.imm w) ∈ items.instructions → d ∈ a.unassigned → w.fits32 = true) ∧
      ∀ items' b f' v', s.spill items a f v = .ok (items', b, f') v' →
        (∀ r ∈ a.unassigned, r ∉ items'.registers) ∧ b.complete = true ∧
          (∀ r ∈ items'.registers, ∃ p, b.lookup r = some p) ∧
          ∀ r p, a.lookup r = some p → b.lookup r = some p := by
  have hselected := Layout.conventional_layout hg (Nat.le_refl _) hlayout
  have hknown : ∀ r ∈ items.registers, r.Known v.registers := by
    intro r hr
    obtain ⟨i, hi, hr⟩ := Stream.mem_registers.1 hr
    exact ((hselected i hi).2 r hr).mono hv
  have hlists : ∀ i ∈ items.instructions, i.ListsPhysical := fun i hi => (hselected i hi).1.listsPhysical
  refine ⟨exists_spill_iff hs hknown hlists htotal hassigned hleft hscratch hframe, fun items' b f' v' h => ?_⟩
  obtain ⟨-, hcompletes, hplaces, -, pieces, rfl, hpieces⟩ := spill_eq_ok hs hknown hassigned h
  refine ⟨fun r hr => not_mem_registers_of_expanded hlists hleft hpieces hr, ?_, fun r hr => ?_,
    fun r p hp => hcompletes.keeps hp⟩
  · rw [Allocation.complete, hcompletes.left]
    rfl
  · obtain ⟨i, hi, hr⟩ := Stream.mem_registers.1 hr
    exact hplaces i hi r hr

/-- A body that returns a constant through a register. -/
def constantBody (w : Word) : Flow where
  size := 1
  blocks := #v[.straight [.write (.virtual 1) (.const w),
    .write (.physical .rax) (.read (.virtual 1)), .ret true] none]
  root := some ⟨0, Nat.one_pos⟩

theorem known_constantBody (w : Word) : (constantBody w).Known 1 := by
  constructor
  · intro (i : Fin 1) body next hi op hop
    obtain rfl : i = 0 := Subsingleton.elim _ _
    cases hi
    simp only [List.mem_cons, List.not_mem_nil, or_false] at hop
    rcases hop with rfl | rfl | rfl
    · exact ⟨by simp [Stmt.values, Value.reads], fun r v e => by cases e; decide⟩
    · exact ⟨by simp [Stmt.values, Value.reads, Register.Known], fun r v e => by cases e; decide⟩
    · exact ⟨by simp [Stmt.values], fun r v e => (by cases e)⟩
  · intro (i : Fin 1) cond t f hi
    obtain rfl : i = 0 := Subsingleton.elim _ _
    cases hi

/-- The stream of that body. -/
def constantStream (w : Word) : Stream :=
  [.instr (.mov (.reg (.virtual 1)) (.imm w)),
    .instr (.mov (.reg (.physical .rax)) (.reg (.virtual 1))), .instr (.ret [.physical .rax])]

theorem spill_returns_iff_constant :
    let spill (w : Word) := spill ⟨Amd64.catalogue.coverStmts, [.r10, .r11]⟩ (constantStream w)
      ⟨[(.physical .rax, .rax)], [.virtual 1]⟩ ⟨"f", Amd64.convention, 0⟩ ⟨1, 0⟩
    (∃ result v', spill 7 = .ok result v') ∧ ¬ ∃ result v', spill 4294967296 = .ok result v' := by
  have hlookup : ∀ r p, Allocation.lookup ⟨[(.physical .rax, .rax)], [.virtual 1]⟩ r = some p →
      r.Known 1 := by
    intro r p h
    have := Allocation.mem_assigned_of_lookup h
    rw [(Prod.mk.inj (List.mem_singleton.1 this)).1]
    exact Register.known_physical _ _
  have htotal : ∀ w, ∀ r ∈ (constantStream w).registers,
      (∃ p, Allocation.lookup ⟨[(.physical .rax, .rax)], [.virtual 1]⟩ r = some p) ∨ r ∈ [.virtual 1] := by
    intro w r hr
    rw [show (constantStream w).registers = [.virtual 1, .physical .rax] from rfl] at hr
    simp only [List.mem_cons, List.not_mem_nil, or_false] at hr
    rcases hr with rfl | rfl
    · exact Or.inr List.mem_cons_self
    · exact Or.inl ⟨.rax, rfl⟩
  have key : ∀ w, (constantBody w).layout Amd64.catalogue.coverer Label.none ⟨1, 0⟩ =
      .ok (constantStream w) ⟨1, 0⟩ → _ := fun w h =>
    (spill_returns_iff (s := ⟨Amd64.catalogue.coverStmts, [.r10, .r11]⟩) (v := ⟨1, 0⟩)
      (a := ⟨[(.physical .rax, .rax)], [.virtual 1]⟩) (f := ⟨"f", Amd64.convention, 0⟩) rfl (known_constantBody w)
      h (Nat.le_refl _) (htotal w) hlookup (by decide) (by decide)
      (by decide)).1
  refine ⟨(key 7 (by cbv)).2 ?_, fun h => ?_⟩
  · simp [constantStream, Stream.instructions, Item.instr?]
    decide
  · have := (key 4294967296 (by cbv)).1 h (.virtual 1) 4294967296 (by decide) (by decide)
    revert this
    decide

end Codegen.Spiller
