/-
  Spilling up to names.

  Spill code looks registers up in the table of slots and hands out scratch registers in the
  order in which they are mentioned.  So the spill code of a renamed stream is the spill
  code renamed, and it exists if and only if that of the stream does (`Spiller.spill_rename`,
  `Spiller.exists_spill_of_rename`).
-/
import Codegen.Proofs.Renaming.Liveness
import Codegen.Proofs.Spill.Complete

namespace Codegen

namespace Renaming

variable {ρ : Renaming}

theorem instr_mapRegisters {f f' : Register → Register} (hf : ∀ r, f' (ρ.register r) = ρ.register (f r))
    (i : Instr) : (ρ.instr i).mapRegisters f' = ρ.instr (i.mapRegisters f) := by
  have hmem : ∀ m : Mem, (ρ.mem m).mapRegisters f' = ρ.mem (m.mapRegisters f) := fun m => by
    simp only [mem, Mem.mapRegisters, Option.map_map, Mem.mk.injEq, true_and, and_true]
    exact congrArg (Option.map · m.base) (funext hf)
  have hoperand : ∀ o : Operand, (ρ.operand o).mapRegisters f' = ρ.operand (o.mapRegisters f) := fun o => by
    cases o with
    | reg r => exact congrArg _ (hf r)
    | imm w => rfl
    | mem m => exact congrArg _ (hmem m)
  cases i <;> simp [instr, Instr.mapRegisters, hoperand, hmem, hf]

section
variable (h : ρ.Faithful)
include h

theorem lookup_place (places : List (Register × Physical)) (r : Register) :
    (places.map ρ.place).lookup (ρ.register r) = places.lookup r := h.lookup_map_keys places r

theorem lookup_allocation (a : Allocation) (r : Register) :
    (ρ.allocation a).lookup (ρ.register r) = a.lookup r := lookup_place h a.assigned r

theorem assign_allocation (a : Allocation) (r : Register) (p : Physical) :
    (ρ.allocation a).assign (ρ.register r) p = ρ.allocation (a.assign r p) := by
  simp only [Allocation.assign, allocation, List.map_append, List.filter_map]
  congr 2
  refine congrArg _ (List.filter_congr fun e _ => ?_)
  simp [place, h.register.eq_iff]

/-- Slots are addressed by the frame pointer, which is physical. -/
theorem instr_access (slot : Slot) (p : Physical) :
    ρ.instr ((Access.load p).instr slot) = (Access.load p).instr slot ∧
      ρ.instr ((Access.store p).instr slot) = (Access.store p).instr slot := by
  simp [Access.instr, instr, operand, mem, Slot.operand, h.none]

end

end Renaming

namespace Spiller

open Renaming

variable {ρ : Renaming} {slots slots' : Slots} {scratch : List Physical} {i : Instr} {code code' : List Instr}

/-! ## One instruction -/

theorem Direct.direct? {slot : Slot} {a : Access} (h : Direct slots i slot a) :
    Spiller.direct? slots i = some (a.op slot) := by
  cases h with
  | load hd hr => simp [Spiller.direct?, Instr.move, Operand.register?, hd, hr, Access.op]
  | store hd hr => simp [Spiller.direct?, Instr.move, Operand.register?, hd, hr, Access.op]
  | set w hd => simp [Spiller.direct?, Operand.register?, hd, Access.op]

/-- An instruction has one expansion. -/
theorem Expanded.unique (h : Expanded slots scratch i code) (h' : Expanded slots scratch i code') :
    code' = code := by
  have hsame : (∀ r ∈ i.mentions, slots.slot? r = none) → (∃ r ∈ i.mentions, ∃ slot, slots.slot? r = some slot) →
      False := by
    rintro hnone ⟨r, hr, slot, hslot⟩
    rw [hnone r hr] at hslot
    cases hslot
  have hspilled : ∀ {slot a}, Direct slots i slot a → ∃ r ∈ i.mentions, ∃ slot, slots.slot? r = some slot :=
    fun {slot a} h => by
      obtain ⟨r, hr, hslot⟩ := h.spilled
      exact ⟨r, hr, slot, hslot⟩
  cases h with
  | same hnone =>
    cases h' with
    | same => rfl
    | direct h' => exact (hsame hnone (hspilled h')).elim
    | through hsp => exact (hsame hnone hsp).elim
  | direct h =>
    cases h' with
    | same hnone => exact (hsame hnone (hspilled h)).elim
    | direct h' =>
      cases h with
      | load hd hr =>
        cases h' with
        | load hd' hr' => rw [hr] at hr'; cases hr'; rfl
        | store hd' hr' => rw [hd] at hd'; cases hd'
      | store hd hr =>
        cases h' with
        | load hd' hr' => rw [hd] at hd'; cases hd'
        | store hd' hr' => rw [hd] at hd'; cases hd'; rfl
      | set w hd =>
        cases h' with
        | set w hd' => rw [hd] at hd'; cases hd'; rfl
    | through _ _ hdirect => rw [h.direct?] at hdirect; cases hdirect
  | through hsp _ hdirect =>
    cases h' with
    | same hnone => exact (hsame hnone hsp).elim
    | direct h' => rw [h'.direct?] at hdirect; cases hdirect
    | through => rfl

theorem pieces_unique {items : Stream} {pieces pieces' : List Stream}
    (h : List.Forall₂ (ExpandedItem slots scratch) items pieces)
    (h' : List.Forall₂ (ExpandedItem slots scratch) items pieces') : pieces' = pieces := by
  induction h generalizing pieces' with
  | nil => cases h'; rfl
  | cons hitem _ ih =>
    cases h' with
    | cons hitem' hrest =>
      rw [ih hrest]
      congr 1
      cases hitem with
      | instr hcode =>
        cases hitem' with
        | instr hcode' => rw [hcode.unique hcode']
        | other hnone => cases hnone
      | other hnone =>
        cases hitem' with
        | instr => cases hnone
        | other => rfl

section
variable (hρ : ρ.Faithful) (hslots : ∀ r, slots'.slot? (ρ.register r) = slots.slot? r)
include hslots

theorem direct?_eq_none_rename (i : Instr) :
    direct? slots' (ρ.instr i) = none ↔ direct? slots i = none := by
  have hbind : ∀ o : Operand, (ρ.operand o).register?.bind slots'.slot? = o.register?.bind slots.slot? := by
    intro o
    cases o with
    | reg r => exact hslots r
    | imm w => rfl
    | mem m => rfl
  cases i with
  | mov dst src =>
    simp only [instr, direct?, hbind]
    cases dst.register?.bind slots.slot? <;> cases src.register?.bind slots.slot? <;>
      cases dst <;> cases src <;> simp [operand, Operand.register?]
  | _ => simp [instr, direct?]

theorem fits_rename (i : Instr) : Fits slots' (ρ.instr i) ↔ Fits slots i := by
  unfold Fits
  rw [mentions_instr, List.forall_mem_map]
  simp only [hslots]
  refine and_congr_right fun _ => ⟨fun h d w e hd => ?_, fun h d w e hd => ?_⟩
  · subst e
    exact h (ρ.register d) w rfl (by rwa [hslots])
  · cases i with
    | mov dst src =>
      cases dst with
      | reg d₀ =>
        cases src with
        | imm w₀ =>
          cases e
          exact h d₀ w rfl (by rwa [hslots] at hd)
        | _ => cases e
      | _ => cases e
    | _ => cases e

include hρ

theorem spilledIn_rename (rs : List Register) :
    spilledIn slots' (rs.map ρ.register) = (spilledIn slots rs).map ρ.register := by
  unfold spilledIn
  rw [← eraseDups_map hρ.register, filter_map_of_eq rs fun r => by rw [hslots]]

theorem places_rename (i : Instr) : places slots' scratch (ρ.instr i) = (places slots scratch i).map ρ.place := by
  unfold places
  rw [registers_instr hρ, spilledIn_rename hρ hslots, List.zip_map_left]
  rfl

theorem transfers_rename (places : List (Register × Physical)) (rs : List Register) {access : Register → Access}
    (haccess : ∀ slot (p : Physical), ρ.instr ((access p).instr slot) = (access p).instr slot) :
    transfers slots' (places.map ρ.place) access (rs.map ρ.register) =
      (transfers slots places access rs).map ρ.instr := by
  unfold transfers
  rw [spilledIn_rename hρ hslots, List.flatMap_map, List.map_flatMap]
  refine congrArg (List.flatMap · _) (funext fun r => ?_)
  unfold transferOf
  rw [hslots, lookup_place hρ]
  cases slots.slot? r with
  | none => rfl
  | some slot =>
    cases places.lookup r with
    | none => rfl
    | some p => simp [haccess]

/-- The spill code of a renamed instruction. -/
theorem Expanded.rename (h : Expanded slots scratch i code) :
    Expanded slots' scratch (ρ.instr i) (code.map ρ.instr) := by
  cases h with
  | same hnone =>
    refine .same fun r hr => ?_
    rw [mentions_instr] at hr
    obtain ⟨r₀, hr₀, rfl⟩ := List.mem_map.1 hr
    rw [hslots]
    exact hnone r₀ hr₀
  | @direct slot a h =>
    have haccess : ∃ a', Direct slots' (ρ.instr i) slot a' ∧ a'.instr slot = ρ.instr (a.instr slot) := by
      cases h with
      | @load d r _ hd hr =>
        exact ⟨.load (ρ.register d), .load (by rwa [hslots]) (by rwa [hslots]),
          by simp [Access.instr, instr, operand, mem, Slot.operand, hρ.none]⟩
      | @store d r _ hd hr =>
        exact ⟨.store (ρ.register r), .store (by rwa [hslots]) (by rwa [hslots]),
          by simp [Access.instr, instr, operand, mem, Slot.operand, hρ.none]⟩
      | @set d _ w hd =>
        exact ⟨.set w, .set w (by rwa [hslots]),
          by simp [Access.instr, instr, operand, mem, Slot.operand, hρ.none]⟩
    obtain ⟨a', ha', e⟩ := haccess
    rw [List.map_singleton, ← e]
    exact .direct ha'
  | through hsp hlen hdirect =>
    have hplaced : ∀ r, placed ((places slots scratch i).map ρ.place) (ρ.register r) =
        ρ.register (placed (places slots scratch i) r) := by
      intro r
      unfold placed
      rw [lookup_place hρ]
      cases (places slots scratch i).lookup r <;> rfl
    obtain ⟨r, hr, slot, hslot⟩ := hsp
    have hthrough : Expanded slots' scratch (ρ.instr i) _ := .through
      ⟨ρ.register r, by rw [mentions_instr]; exact List.mem_map_of_mem hr, slot, by rwa [hslots]⟩
      (by rwa [registers_instr hρ, spilledIn_rename hρ hslots, List.length_map])
      ((direct?_eq_none_rename hslots i).2 hdirect)
    rw [places_rename hρ hslots, uses_instr, defines_instr,
      transfers_rename hρ hslots _ _ fun slot p => (instr_access hρ slot p).1,
      transfers_rename hρ hslots _ _ fun slot p => (instr_access hρ slot p).2,
      instr_mapRegisters hplaced] at hthrough
    simpa using hthrough

theorem ExpandedItem.rename {item : Item} {piece : Stream} (h : ExpandedItem slots scratch item piece) :
    ExpandedItem slots' scratch (ρ.item item) (ρ.stream piece) := by
  cases h with
  | instr h =>
    rw [stream_instr]
    exact .instr (h.rename hρ hslots)
  | other hnone =>
    refine .other ?_
    rw [instr?_item, hnone]
    rfl

theorem pieces_rename {items : Stream} {pieces : List Stream}
    (h : List.Forall₂ (ExpandedItem slots scratch) items pieces) :
    List.Forall₂ (ExpandedItem slots' scratch) (ρ.stream items) (pieces.map ρ.stream) := by
  unfold stream
  rw [List.forall₂_map_left_iff, List.forall₂_map_right_iff]
  exact h.imp fun item piece h => h.rename hρ hslots

end

/-! ## Completion -/

theorem alike_complete (hρ : ρ.Faithful) (items : Stream) (a : Allocation) :
    Except.Alike (fun b b' => b' = ρ.allocation b) (complete items a)
      (complete (ρ.stream items) (ρ.allocation a)) := by
  have hwith : ∀ (i : Instr) (a b : Allocation) (r : Register), b = ρ.allocation a →
      Except.Alike (fun b b' => b' = ρ.allocation b) (completeWith i a r)
        (completeWith (ρ.instr i) b (ρ.register r)) := by
    rintro i a b r rfl
    unfold completeWith
    rw [lookup_allocation hρ]
    cases hr : a.lookup r with
    | some p => exact .ok rfl
    | none =>
      cases r with
      | virtual k => exact .error
      | physical p => exact .ok (assign_allocation hρ a (.physical p) p)
  unfold complete
  rw [instructions_stream]
  refine Except.Alike.foldlM (fun a b i hab => ?_) rfl
  rw [registers_instr hρ]
  exact Except.Alike.foldlM (fun a b r hab => hwith i a b r hab) hab

/-! ## Streams -/

theorem slot?_allocateSlots_rename (hρ : ρ.Faithful) (rs : List Register) (f : Frame) (r : Register) :
    (allocateSlots (rs.map ρ.register) f).1.slot? (ρ.register r) = (allocateSlots rs f).1.slot? r := by
  rw [allocateSlots_eq, allocateSlots_eq]
  refine Eq.trans ?_ (hρ.lookup_map_keys _ r)
  simp only [List.zipIdx_map, ← List.map_reverse, List.map_map]
  rfl

section
variable {s : Spiller} {items items' : Stream} {a b : Allocation} {f f' : Frame} {u u' : Supply}

/-- What a stream is like if it can be spilled, and what it becomes. -/
structure Spills (s : Spiller) (items : Stream) (a : Allocation) (f : Frame) (pieces : List Stream)
    (b : Allocation) : Prop where
  fits : ∀ i ∈ items.instructions, Fits (allocateSlots a.unassigned f).1 i
  expanded : List.Forall₂ (ExpandedItem (allocateSlots a.unassigned f).1 s.scratch) items pieces
  complete : complete pieces.flatten a = .ok b

section
variable (hs : s.cover = Amd64.catalogue.coverStmts) (hknown : ∀ r ∈ items.registers, r.Known u.registers)
include hs hknown

theorem spills_of_spill (hassigned : ∀ r p, a.lookup r = some p → r.Known u.registers)
    (h : s.spill items a f u = .ok (items', b, f') u') :
    ∃ pieces, items' = pieces.flatten ∧ f' = f.reserve a.unassigned.length ∧ Spills s items a f pieces b := by
  obtain ⟨hfits, -, -, hf, pieces, hitems, hpieces⟩ := spill_eq_ok hs hknown hassigned h
  refine ⟨pieces, hitems, hf, hfits, hpieces, ?_⟩
  obtain ⟨pieces', u₁, -, h⟩ := EStateM.bind_eq_ok.1 h
  change (Fresh.ofExcept (Spiller.complete pieces'.flatten a) >>= fun done =>
    pure (pieces'.flatten, done, (allocateSlots a.unassigned f).2)) u₁ = _ at h
  obtain ⟨b', u₂, hb, hresult⟩ := EStateM.bind_eq_ok.1 h
  cases hresult
  rw [← hitems]
  exact (Fresh.ofExcept_eq_ok.1 hb).1

theorem exists_spill_of_spills {pieces : List Stream} (hscratch : 2 ≤ s.scratch.length)
    (hlists : ∀ i ∈ items.instructions, i.ListsPhysical) (hleft : ∀ r ∈ a.unassigned, r.isPhysical = false)
    (h : Spills s items a f pieces b) :
    ∃ v, s.spill items a f u = .ok (pieces.flatten, b, f.reserve a.unassigned.length) v := by
  obtain ⟨pieces', u₁, hpieces', hcases⟩ := exists_pieces hs
    (fun i hi => room_of_two_le hscratch (hlists i hi) hleft)
    fun i hi r hr => hknown r (Stream.mem_registers.2 ⟨i, hi, hr⟩)
  obtain ⟨-, hexpanded⟩ := hcases.resolve_right fun hcase => hcase.1 h.fits
  obtain rfl := pieces_unique h.expanded hexpanded
  have hframe : f.reserve a.unassigned.length = (allocateSlots a.unassigned f).2 := by rw [allocateSlots_eq]
  rw [hframe]
  exact ⟨u₁, EStateM.bind_eq_ok.2 ⟨pieces', u₁, hpieces',
    EStateM.bind_eq_ok.2 ⟨b, u₁, Fresh.ofExcept_eq_ok.2 ⟨h.complete, rfl⟩, rfl⟩⟩⟩

/-- The stream has spill code if the constants fit. -/
theorem exists_expanded (hscratch : 2 ≤ s.scratch.length)
    (hlists : ∀ i ∈ items.instructions, i.ListsPhysical) (hleft : ∀ r ∈ a.unassigned, r.isPhysical = false)
    (hfits : ∀ i ∈ items.instructions, Fits (allocateSlots a.unassigned f).1 i) :
    ∃ pieces, List.Forall₂ (ExpandedItem (allocateSlots a.unassigned f).1 s.scratch) items pieces := by
  obtain ⟨pieces, u₁, -, hcases⟩ := exists_pieces hs
    (fun i hi => room_of_two_le hscratch (hlists i hi) hleft)
    fun i hi r hr => hknown r (Stream.mem_registers.2 ⟨i, hi, hr⟩)
  exact ⟨pieces, (hcases.resolve_right fun hcase => hcase.1 hfits).2⟩

end

section
variable (hρ : ρ.Faithful)
include hρ

theorem forall_fits_rename :
    (∀ i ∈ (ρ.stream items).instructions, Fits (allocateSlots (ρ.allocation a).unassigned f).1 i) ↔
      ∀ i ∈ items.instructions, Fits (allocateSlots a.unassigned f).1 i := by
  rw [instructions_stream, List.forall_mem_map]
  exact forall₂_congr fun i _ => fits_rename (slot?_allocateSlots_rename hρ a.unassigned f) i

theorem Spills.rename {pieces : List Stream} (h : Spills s items a f pieces b) :
    Spills s (ρ.stream items) (ρ.allocation a) f (pieces.map ρ.stream) (ρ.allocation b) := by
  refine ⟨(forall_fits_rename hρ).2 h.fits,
    pieces_rename hρ (slot?_allocateSlots_rename hρ a.unassigned f) h.expanded, ?_⟩
  have halike := alike_complete hρ pieces.flatten a
  rw [h.complete, stream_flatten] at halike
  generalize Spiller.complete (pieces.map ρ.stream).flatten (ρ.allocation a) = done at halike ⊢
  cases halike with
  | ok e => rw [e]

/-- A stream can be spilled if it can be after renaming. -/
theorem exists_spills_of_rename {pieces pieces' : List Stream} {b' : Allocation}
    (h : Spills s (ρ.stream items) (ρ.allocation a) f pieces' b')
    (hpieces : List.Forall₂ (ExpandedItem (allocateSlots a.unassigned f).1 s.scratch) items pieces) :
    ∃ b, Spills s items a f pieces b := by
  have hexpanded := pieces_rename hρ (slot?_allocateSlots_rename hρ a.unassigned f) hpieces
  have hcomplete := h.complete
  rw [pieces_unique hexpanded h.expanded, ← stream_flatten] at hcomplete
  have halike := alike_complete hρ pieces.flatten a
  rw [hcomplete] at halike
  generalize hdone : Spiller.complete pieces.flatten a = done at halike
  cases halike with
  | @ok b _ _ => exact ⟨b, (forall_fits_rename hρ).1 h.fits, hpieces, hdone⟩

end

end

end Spiller

end Codegen
