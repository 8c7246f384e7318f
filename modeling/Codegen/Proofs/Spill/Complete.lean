/-
  Streams without spilled registers.

  * Completing an allocation keeps what is assigned, adds physical registers, and
    succeeds if and only if the virtual registers of the stream are assigned
    (`exists_complete`, `complete_eq_ok`).
  * So spilling succeeds if and only if all constants in the spill code fit
    (`exists_spill`, `fits_of_spill`).
-/
import Codegen.Proofs.Spill.Expand
import Codegen.Proofs.Spill.Slots

namespace Codegen

theorem Allocation.lookup_assign (a : Allocation) (r r' : Register) (p : Physical) :
    (a.assign r p).lookup r' = if r' = r then some p else a.lookup r' := by
  unfold assign lookup
  rw [List.lookup_append]
  by_cases h : r' = r
  · subst h
    have hnone : (a.assigned.filter (·.1 ≠ r')).lookup r' = none :=
      List.lookup_eq_none_iff.2 fun x hx => by
        have hx : x.1 ≠ r' := of_decide_eq_true (List.mem_filter.1 hx).2
        exact bne_iff_ne.2 (Ne.symm hx)
    rw [hnone, if_pos rfl, Option.none_or, List.lookup_cons, beq_self_eq_true]
  · rw [if_neg h]
    have hsame : (a.assigned.filter (·.1 ≠ r)).lookup r' = a.assigned.lookup r' := by
      induction a.assigned with
      | nil => rfl
      | cons x xs ih =>
        obtain ⟨x, q⟩ := x
        by_cases hx : x = r
        · have hne : (r' == x) = false := by simpa [hx] using h
          rw [List.filter_cons_of_neg (by simpa using hx), ih, List.lookup_cons, hne]
        · rw [List.filter_cons_of_pos (by simpa using hx), List.lookup_cons, List.lookup_cons, ih]
    have hne : (r' == r) = false := by simpa using h
    rw [hsame, List.lookup_cons, hne]
    cases a.assigned.lookup r' <;> rfl

namespace Spiller

variable {a b c : Allocation} {i : Instr} {is : List Instr} {r : Register} {rs : List Register}
  {items : Stream}

/-! ## Completion -/

/-- The second allocation adds physical registers, assigned to themselves. -/
structure Completes (a b : Allocation) : Prop where
  keeps : ∀ {r p}, a.lookup r = some p → b.lookup r = some p
  adds : ∀ {r p}, b.lookup r = some p → a.lookup r = some p ∨ r = .physical p
  left : b.unassigned = a.unassigned

theorem Completes.refl (a : Allocation) : Completes a a := ⟨id, Or.inl, rfl⟩

theorem Completes.trans (h : Completes a b) (h' : Completes b c) : Completes a c :=
  ⟨fun hr => h'.keeps (h.keeps hr), fun hr => (h'.adds hr).elim h.adds Or.inr, h'.left.trans h.left⟩

theorem completeWith_eq_ok (h : completeWith i a r = .ok b) : Completes a b ∧ ∃ p, b.lookup r = some p := by
  unfold completeWith at h
  split at h
  · next p hp => cases h; exact ⟨.refl a, p, hp⟩
  · next p hr =>
    cases h
    refine ⟨⟨fun {r' q} hr' => ?_, fun {r' q} hr' => ?_, rfl⟩, p, by rw [Allocation.lookup_assign, if_pos rfl]⟩
    · rw [Allocation.lookup_assign, if_neg]
      · exact hr'
      · rintro rfl; rw [hr] at hr'; cases hr'
    · rw [Allocation.lookup_assign] at hr'
      split at hr'
      · next e => cases hr'; exact Or.inr e
      · exact Or.inl hr'
  · cases h

theorem foldlM_completeWith (h : rs.foldlM (completeWith i) a = .ok b) :
    Completes a b ∧ ∀ r ∈ rs, ∃ p, b.lookup r = some p := by
  induction rs generalizing a with
  | nil => cases h; exact ⟨.refl _, by simp⟩
  | cons r rs ih =>
    rw [List.foldlM_cons] at h
    obtain ⟨a₁, h₁, h⟩ := Except.bind_eq_ok.1 h
    obtain ⟨hc₁, p, hp⟩ := completeWith_eq_ok h₁
    obtain ⟨hc, hrs⟩ := ih h
    exact ⟨hc₁.trans hc, List.forall_mem_cons.2 ⟨⟨p, hc.keeps hp⟩, hrs⟩⟩

theorem foldlM_complete (h : is.foldlM (fun a i => i.registers.foldlM (completeWith i) a) a = .ok b) :
    Completes a b ∧ ∀ i ∈ is, ∀ r ∈ i.mentions, ∃ p, b.lookup r = some p := by
  induction is generalizing a with
  | nil => cases h; exact ⟨.refl _, by simp⟩
  | cons i is ih =>
    rw [List.foldlM_cons] at h
    obtain ⟨a₁, h₁, h⟩ := Except.bind_eq_ok.1 h
    obtain ⟨hc₁, hi⟩ := foldlM_completeWith h₁
    obtain ⟨hc, his⟩ := ih h
    refine ⟨hc₁.trans hc, List.forall_mem_cons.2 ⟨fun r hr => ?_, his⟩⟩
    obtain ⟨p, hp⟩ := hi r (mem_registers.2 hr)
    exact ⟨p, hc.keeps hp⟩

/-- A completed allocation assigns all registers of the stream. -/
theorem complete_eq_ok (h : complete items a = .ok b) :
    Completes { a with unassigned := [] } b ∧
      ∀ i ∈ items.instructions, ∀ r ∈ i.mentions, ∃ p, b.lookup r = some p := foldlM_complete h

theorem exists_completeWith (h : r.isPhysical = false → ∃ p, a.lookup r = some p) :
    ∃ b, completeWith i a r = .ok b := by
  unfold completeWith
  split
  · exact ⟨_, rfl⟩
  · exact ⟨_, rfl⟩
  · next hr => obtain ⟨p, hp⟩ := h rfl; rw [hr] at hp; cases hp

theorem exists_complete
    (h : ∀ i ∈ items.instructions, ∀ r ∈ i.mentions, r.isPhysical = false → ∃ p, a.lookup r = some p) :
    ∃ b, complete items a = .ok b := by
  have hregisters : ∀ (i : Instr) (rs : List Register) (a : Allocation),
      (∀ r ∈ rs, r.isPhysical = false → ∃ p, a.lookup r = some p) →
        ∃ b, rs.foldlM (completeWith i) a = .ok b := by
    intro i rs
    induction rs with
    | nil => exact fun a _ => ⟨a, rfl⟩
    | cons r rs ih =>
      intro a h
      obtain ⟨b, hb⟩ := exists_completeWith (i := i) (h r List.mem_cons_self)
      obtain ⟨c, hc⟩ := ih b fun r' hr' hv => by
        obtain ⟨p, hp⟩ := h r' (List.mem_cons_of_mem _ hr') hv
        exact ⟨p, (completeWith_eq_ok hb).1.keeps hp⟩
      exact ⟨c, by rw [List.foldlM_cons, hb]; exact hc⟩
  have hinstructions : ∀ (is : List Instr) (a : Allocation),
      (∀ i ∈ is, ∀ r ∈ i.mentions, r.isPhysical = false → ∃ p, a.lookup r = some p) →
        ∃ b, is.foldlM (fun a i => i.registers.foldlM (completeWith i) a) a = .ok b := by
    intro is
    induction is with
    | nil => exact fun a _ => ⟨a, rfl⟩
    | cons i is ih =>
      intro a h
      obtain ⟨b, hb⟩ := hregisters i i.registers a fun r hr => h i List.mem_cons_self r (mem_registers.1 hr)
      obtain ⟨c, hc⟩ := ih b fun i' hi' r hr hv => by
        obtain ⟨p, hp⟩ := h i' (List.mem_cons_of_mem _ hi') r hr hv
        exact ⟨p, (foldlM_completeWith hb).1.keeps hp⟩
      exact ⟨c, by rw [List.foldlM_cons, hb]; exact hc⟩
  exact hinstructions _ _ h

/-! ## Spilling -/

variable {slots : Slots} {scratch : List Physical} {code : List Instr} {pieces : List Stream}

/-- What an item becomes. -/
inductive ExpandedItem (slots : Slots) (scratch : List Physical) : Item → Stream → Prop
  | instr {i : Instr} {code : List Instr} (h : Expanded slots scratch i code) :
    ExpandedItem slots scratch (.instr i) (code.map Item.instr)
  | other {item : Item} (h : item.instr? = none) : ExpandedItem slots scratch item [item]

theorem instructions_append (xs ys : Stream) :
    Stream.instructions (xs ++ ys) = xs.instructions ++ ys.instructions := List.filterMap_append

theorem forall_instructions_cons {P : Instr → Prop} {item : Item} :
    (∀ i ∈ Stream.instructions (item :: items), P i) ↔
      (∀ i, item.instr? = some i → P i) ∧ ∀ i ∈ items.instructions, P i := by
  cases h : item.instr? with
  | none => simp [Stream.instructions, h]
  | some i => simp [Stream.instructions, h]

theorem instructions_map (code : List Instr) : Stream.instructions (code.map Item.instr) = code := by
  simp [Stream.instructions, List.filterMap_map, Function.comp_def, Item.instr?]

/-- What is true of the registers that stay, and of physical ones, is true of all
    registers of the code of an instruction. -/
theorem Expanded.mentions {P : Register → Prop} (h : Expanded slots scratch i code)
    (hi : i.ListsPhysical) (hvirtual : ∀ r slot, slots.slot? r = some slot → r.isPhysical = false)
    (hstay : ∀ r ∈ i.mentions, slots.slot? r = none → P r) (hphysical : ∀ p : Physical, P p) :
    ∀ i' ∈ code, ∀ r ∈ i'.mentions, P r := by
  have haccess : ∀ (a : Access) (slot : Slot), (∀ r ∈ a.registers, P r) →
      ∀ r ∈ (a.instr slot).mentions, P r := fun a slot ha r hr =>
    (Access.mem_mentions_instr hr).elim (fun e => e ▸ hphysical _) (ha r)
  have htransfers : ∀ (places : List (Register × Physical)) (access : Register → Access) rs,
      (∀ p : Physical, ∀ r ∈ (access p).registers, P r) →
        ∀ i' ∈ transfers slots places access rs, ∀ r ∈ i'.mentions, P r := by
    intro places access rs hP i' hi'
    obtain ⟨-, -, slot, p, -, -, rfl⟩ := mem_transfers hi'
    exact haccess _ slot (hP p)
  cases h with
  | same hnone =>
    intro i' hi' r hr
    rw [List.mem_singleton.1 hi'] at hr
    exact hstay r hr (hnone r hr)
  | direct h =>
    intro i' hi'
    rw [List.mem_singleton.1 hi']
    refine haccess _ _ fun r hr => ?_
    cases h with
    | load hd _ =>
      rw [List.mem_singleton.1 hr]
      exact hstay _ (by simp [Instr.mentions, Instr.move, Instr.defines, Operand.defined, Operand.register?]) hd
    | store _ hr' =>
      rw [List.mem_singleton.1 hr]
      exact hstay _ (by simp [Instr.mentions, Instr.move, Instr.uses, Operand.registers]) hr'
    | set w hd => cases hr
  | through _ hlen =>
    have hfixed := placed_eq_of_physical hlen hvirtual
    have hphysical' : ∀ p : Physical, ∀ r ∈ [Register.physical p], P r := fun p r hr => by
      rw [List.mem_singleton.1 hr]; exact hphysical p
    intro i' hi' r hr
    rcases List.mem_append.1 hi' with hi' | hi'
    · rcases List.mem_append.1 hi' with hi' | hi'
      · exact htransfers _ .load _ hphysical' i' hi' r hr
      · rw [List.mem_singleton.1 hi', Instr.mentions_mapRegisters hi hfixed] at hr
        obtain ⟨r₀, hr₀, rfl⟩ := List.mem_map.1 hr
        rcases placed_cases hlen hr₀ with ⟨hnone, e⟩ | ⟨slot, p, -, -, -, e⟩
        · rw [e]; exact hstay r₀ hr₀ hnone
        · rw [e]; exact hphysical p
    · exact htransfers _ .store _ hphysical' i' hi' r hr

/-- Without slots, an instruction stays as it is. -/
theorem Expanded.eq_of_nil (h : Expanded [] scratch i code) : code = [i] := by
  cases h with
  | same => rfl
  | direct h => cases h <;> contradiction
  | through hspilled => obtain ⟨r, -, slot, h⟩ := hspilled; cases h

/-- An instruction of spill code: it jumps where the instruction that it comes from
    does, and defines what that one does, or a scratch register. -/
structure From (scratch : List Physical) (i i' : Instr) : Prop where
  conventional : i'.Conventional
  target : ∀ l, i'.target? = some l → i.target? = some l
  defines : ∀ d ∈ i'.defines, d ∈ i.defines ∨ ∃ p ∈ scratch, d = .physical p

theorem from_store (slot : Slot) (r : Register) : From scratch i ((Access.store r).instr slot) :=
  ⟨⟨trivial, trivial⟩, fun _ h => (by cases h), fun d hd => (by cases hd)⟩

theorem Expanded.from {i' : Instr} (h : Expanded slots scratch i code) (hi : i.Conventional)
    (hvirtual : ∀ r slot, slots.slot? r = some slot → r.isPhysical = false) (hmem : i' ∈ code) :
    From scratch i i' := by
  cases h with
  | same =>
    rw [List.mem_singleton.1 hmem]
    exact ⟨hi, fun _ h => h, fun d hd => Or.inl hd⟩
  | direct h =>
    rw [List.mem_singleton.1 hmem]
    cases h with
    | load => exact ⟨⟨trivial, trivial⟩, fun _ h => (by cases h), fun d hd => Or.inl hd⟩
    | store => exact from_store _ _
    | set => exact ⟨⟨trivial, trivial⟩, fun _ h => (by cases h), fun d hd => (by cases hd)⟩
  | through _ hlen =>
    rcases List.mem_append.1 hmem with hmem | hmem
    · rcases List.mem_append.1 hmem with hmem | hmem
      · obtain ⟨r, -, slot, p, -, hp, rfl⟩ := mem_transfers hmem
        refine ⟨⟨trivial, trivial⟩, fun _ h => (by cases h), fun d hd => Or.inr ⟨p, (spilled_of_place hp).2.2, ?_⟩⟩
        exact List.mem_singleton.1 hd
      · rw [List.mem_singleton.1 hmem]
        refine ⟨hi.mapRegisters, fun l hl => by rwa [Instr.target?_mapRegisters] at hl, fun d hd => ?_⟩
        rw [Instr.defines_mapRegisters hi.listsPhysical (placed_eq_of_physical hlen hvirtual)] at hd
        obtain ⟨r, hr, rfl⟩ := List.mem_map.1 hd
        rcases placed_cases hlen (List.mem_append_right _ hr) with ⟨-, e⟩ | ⟨-, p, -, hp, -, e⟩
        · rw [e]; exact Or.inl hr
        · rw [e]; exact Or.inr ⟨p, hp, rfl⟩
    · obtain ⟨r, -, slot, p, -, -, rfl⟩ := mem_transfers hmem
      exact from_store _ _

theorem mem_instructions_pieces (h : List.Forall₂ (ExpandedItem slots scratch) items pieces)
    (hi : i ∈ Stream.instructions pieces.flatten) :
    ∃ i₀ ∈ items.instructions, ∃ code, Expanded slots scratch i₀ code ∧ i ∈ code := by
  obtain ⟨item', hitem', e⟩ := List.mem_filterMap.1 hi
  obtain ⟨piece, hpiece, hmem⟩ := List.mem_flatten.1 hitem'
  obtain ⟨item, hitem, h⟩ := forall₂_exists_left h hpiece
  cases h with
  | @instr i₀ code h =>
    obtain ⟨i', hi', rfl⟩ := List.mem_map.1 hmem
    cases e
    exact ⟨i₀, List.mem_filterMap.2 ⟨_, hitem, rfl⟩, code, h, hi'⟩
  | other hnone =>
    rw [List.mem_singleton.1 hmem, hnone] at e
    cases e

/-- Spill code takes the place of instructions. -/
theorem expands_of_mapM {s : Spiller} {u u' : Supply}
    (h : items.mapM (s.expandItem slots) u = .ok pieces u') : List.Forall₂ Stream.Expands items pieces := by
  refine (EStateM.mapM_eq_ok h).imp ?_
  rintro item piece ⟨u₁, u₂, hpiece⟩
  cases item with
  | label l => cases hpiece; exact .other rfl
  | stray r => cases hpiece; exact .other rfl
  | instr i =>
    obtain ⟨code, u₃, -, e⟩ := EStateM.bind_eq_ok.1 hpiece
    cases e
    exact .instr i code

theorem expands_of_spill {s : Spiller} {a b : Allocation} {f f' : Frame} {items' : Stream} {u u' : Supply}
    (h : s.spill items a f u = .ok (items', b, f') u') :
    ∃ pieces : List Stream, items' = pieces.flatten ∧ List.Forall₂ Stream.Expands items pieces := by
  obtain ⟨pieces, u₁, hpieces, h⟩ := EStateM.bind_eq_ok.1 h
  obtain ⟨b', u₂, -, h⟩ := EStateM.bind_eq_ok.1 h
  cases h
  exact ⟨pieces, rfl, expands_of_mapM hpieces⟩

theorem room_of_mapM {s : Spiller} {u u' : Supply}
    (h : items.mapM (s.expandItem slots) u = .ok pieces u') :
    ∀ i ∈ items.instructions, Room slots s.scratch i := by
  intro i hi
  obtain ⟨item, hitem, e⟩ := List.mem_filterMap.1 hi
  obtain rfl : item = .instr i := by cases item <;> simp_all [Item.instr?]
  obtain ⟨piece, -, u₁, u₂, hpiece⟩ := forall₂_exists_right (EStateM.mapM_eq_ok h) hitem
  obtain ⟨code, u₃, hcode, -⟩ := EStateM.bind_eq_ok.1 hpiece
  exact room_of_expand hcode

variable {s : Spiller} {u : Supply} (hs : s.cover = Amd64.catalogue.coverStmts)
include hs

theorem exists_piece {item : Item} (hroom : ∀ i, item.instr? = some i → Room slots s.scratch i)
    (hknown : ∀ i, item.instr? = some i → ∀ r ∈ i.mentions, r.Known u.registers) :
    ∃ piece u', s.expandItem slots item u = .ok piece u' ∧ u.registers ≤ u'.registers ∧
      ((∀ i, item.instr? = some i → Fits slots i) ∧ ExpandedItem slots s.scratch item piece ∧ u' = u ∨
        ¬ (∀ i, item.instr? = some i → Fits slots i) ∧
          ∃ i ∈ Stream.instructions piece, ∃ r ∈ i.mentions, ¬ r.Known u.registers) := by
  cases item with
  | label l => exact ⟨[.label l], u, rfl, Nat.le_refl _, Or.inl ⟨fun _ h => (by cases h), .other rfl, rfl⟩⟩
  | stray r => exact ⟨[.stray r], u, rfl, Nat.le_refl _, Or.inl ⟨fun _ h => (by cases h), .other rfl, rfl⟩⟩
  | instr i =>
    obtain ⟨code, u', hcode, hu, h⟩ :=
      yields_expand hs (hroom i rfl) (hknown i rfl)
    refine ⟨code.map Item.instr, u', EStateM.bind_eq_ok.2 ⟨code, u', hcode, rfl⟩, hu, ?_⟩
    simp only [Item.instr?, Option.some.injEq, forall_eq', instructions_map]
    exact h.imp_left fun h => ⟨h.1, .instr h.2.1, h.2.2⟩

/-- **The code of a stream has the expected form, or mentions registers drawn for
    it.** -/
theorem exists_pieces (hroom : ∀ i ∈ items.instructions, Room slots s.scratch i)
    (hknown : ∀ i ∈ items.instructions, ∀ r ∈ i.mentions, r.Known u.registers) :
    ∃ pieces u', items.mapM (s.expandItem slots) u = .ok pieces u' ∧
      ((∀ i ∈ items.instructions, Fits slots i) ∧
          List.Forall₂ (ExpandedItem slots s.scratch) items pieces ∨
        ¬ (∀ i ∈ items.instructions, Fits slots i) ∧
          ∃ i ∈ Stream.instructions pieces.flatten, ∃ r ∈ i.mentions, ¬ r.Known u.registers) := by
  induction items generalizing u with
  | nil => exact ⟨[], u, rfl, Or.inl ⟨List.forall_mem_nil _, .nil⟩⟩
  | cons item items ih =>
    rw [forall_instructions_cons] at hroom hknown
    obtain ⟨piece, u₁, hpiece, hu, hfirst⟩ := exists_piece hs hroom.1 hknown.1
    obtain ⟨pieces, u₂, hpieces, hrest⟩ := ih (u := u₁) hroom.2 fun i hi r hr =>
      (hknown.2 i hi r hr).mono hu
    refine ⟨piece :: pieces, u₂, ?_, ?_⟩
    · rw [List.mapM_cons]
      exact EStateM.bind_eq_ok.2 ⟨_, _, hpiece, EStateM.bind_eq_ok.2 ⟨_, _, hpieces, rfl⟩⟩
    · rw [forall_instructions_cons, List.flatten_cons, instructions_append]
      rcases hfirst with ⟨hfits, hitem, rfl⟩ | ⟨hfits, i, hi, hnew⟩
      · rcases hrest with ⟨hfits', hitems⟩ | ⟨hfits', i, hi, hnew⟩
        · exact Or.inl ⟨⟨hfits, hfits'⟩, .cons hitem hitems⟩
        · exact Or.inr ⟨fun h => hfits' h.2, i, List.mem_append_right _ hi, hnew⟩
      · exact Or.inr ⟨fun h => hfits h.1, i, List.mem_append_left _ hi, hnew⟩

end Spiller

theorem Stream.mem_registers {items : Stream} {r : Register} :
    r ∈ items.registers ↔ ∃ i ∈ items.instructions, r ∈ i.mentions :=
  List.mem_eraseDups.trans List.mem_flatMap

theorem Fresh.ofExcept_eq_ok {α : Type} {x : Except Fault α} {y : α} {u u' : Supply} :
    Fresh.ofExcept x u = .ok y u' ↔ x = .ok y ∧ u' = u := by
  cases x with
  | ok a =>
    constructor
    · intro h; cases h; exact ⟨rfl, rfl⟩
    · rintro ⟨h, rfl⟩; cases h; rfl
  | error e =>
    constructor
    · intro h; cases h
    · rintro ⟨h, -⟩; cases h

namespace Spiller

variable {s : Spiller} {u u' : Supply} {items items' : Stream} {a b : Allocation} {f f' : Frame}

theorem virtual_of_slot? (hleft : ∀ r ∈ a.unassigned, r.isPhysical = false) (f : Frame) :
    ∀ r slot, (allocateSlots a.unassigned f).1.slot? r = some slot → r.isPhysical = false := by
  intro r slot h
  obtain ⟨k, hk, -⟩ := slot?_eq_some h
  exact hleft r (List.mem_of_getElem? hk)

/-- The registers without a place do not occur after spilling. -/
theorem not_mem_registers_of_expanded {scratch : List Physical} {pieces : List Stream}
    (hlists : ∀ i ∈ items.instructions, i.ListsPhysical)
    (hleft : ∀ r ∈ a.unassigned, r.isPhysical = false)
    (hpieces : List.Forall₂ (ExpandedItem (allocateSlots a.unassigned f).1 scratch) items pieces)
    {r : Register} (hr : r ∈ a.unassigned) : r ∉ Stream.registers pieces.flatten := by
  intro hmem
  obtain ⟨i', hi', hr'⟩ := Stream.mem_registers.1 hmem
  obtain ⟨i, hi, code, hcode, hi'⟩ := mem_instructions_pieces hpieces hi'
  refine hcode.mentions (P := (· ∉ a.unassigned)) (hlists i hi) (virtual_of_slot? hleft f)
    (fun r _ hnone => slot?_eq_none_iff.1 hnone) (fun p hp => ?_) i' hi' r hr' hr
  cases hleft _ hp

theorem room_of_two_le (hscratch : 2 ≤ s.scratch.length) {i : Instr} (hi : i.ListsPhysical)
    (hleft : ∀ r ∈ a.unassigned, r.isPhysical = false) :
    Room (allocateSlots a.unassigned f).1 s.scratch i := fun _ =>
  Nat.le_trans (length_spilledIn_le hi (virtual_of_slot? hleft f)) hscratch

section
variable (hs : s.cover = Amd64.catalogue.coverStmts)
  (hknown : ∀ r ∈ items.registers, r.Known u.registers)
include hs hknown

/-- **Spilling succeeds if the constants in the spill code fit.** -/
theorem exists_spill (hlists : ∀ i ∈ items.instructions, i.ListsPhysical)
    (hleft : ∀ r ∈ a.unassigned, r.isPhysical = false) (hscratch : 2 ≤ s.scratch.length)
    (htotal : ∀ r ∈ items.registers, (∃ p, a.lookup r = some p) ∨ r ∈ a.unassigned)
    (hfits : ∀ i ∈ items.instructions, Fits (allocateSlots a.unassigned f).1 i) :
    ∃ result u', s.spill items a f u = .ok result u' := by
  obtain ⟨pieces, u₁, hpieces, h⟩ := exists_pieces hs
    (fun i hi => room_of_two_le hscratch (hlists i hi) hleft)
    fun i hi r hr => hknown r (Stream.mem_registers.2 ⟨i, hi, hr⟩)
  obtain ⟨-, hexpanded⟩ := h.resolve_right fun h => h.1 hfits
  -- the registers that stay are assigned
  have hassigned : ∀ i ∈ Stream.instructions pieces.flatten, ∀ r ∈ i.mentions,
      r.isPhysical = false → ∃ p, a.lookup r = some p := by
    intro i hi
    obtain ⟨i₀, hi₀, code, hcode, hmem⟩ := mem_instructions_pieces hexpanded hi
    refine hcode.mentions (hlists i₀ hi₀) (virtual_of_slot? hleft f) (fun r hr hnone _ => ?_)
      (fun p h => by cases h) i hmem
    rcases htotal r (Stream.mem_registers.2 ⟨i₀, hi₀, hr⟩) with h | h
    · exact h
    · obtain ⟨slot, hslot⟩ := exists_slot? (f := f) h
      rw [hslot] at hnone
      cases hnone
  obtain ⟨b, hb⟩ := exists_complete hassigned
  exact ⟨(pieces.flatten, b, (allocateSlots a.unassigned f).2), u₁, EStateM.bind_eq_ok.2 ⟨pieces, u₁, hpieces,
    EStateM.bind_eq_ok.2 ⟨b, u₁, Fresh.ofExcept_eq_ok.2 ⟨hb, rfl⟩, rfl⟩⟩⟩

/-- **If spilling succeeds, then the constants fit**, and the code has the expected
    form. -/
theorem spill_eq_ok (hassigned : ∀ r p, a.lookup r = some p → r.Known u.registers)
    (h : s.spill items a f u = .ok (items', b, f') u') :
    (∀ i ∈ items.instructions, Fits (allocateSlots a.unassigned f).1 i) ∧
      Completes { a with unassigned := [] } b ∧
      (∀ i ∈ items'.instructions, ∀ r ∈ i.mentions, ∃ p, b.lookup r = some p) ∧
      f' = f.reserve a.unassigned.length ∧
      ∃ pieces, items' = pieces.flatten ∧
        List.Forall₂ (ExpandedItem (allocateSlots a.unassigned f).1 s.scratch) items pieces := by
  obtain ⟨pieces, u₁, hpieces, h⟩ := EStateM.bind_eq_ok.1 h
  change (Fresh.ofExcept (complete pieces.flatten a) >>= fun done =>
    pure (pieces.flatten, done, (allocateSlots a.unassigned f).2)) u₁ = _ at h
  obtain ⟨b', u₂, hb, hresult⟩ := EStateM.bind_eq_ok.1 h
  cases hresult
  obtain ⟨hcompletes, hall⟩ := complete_eq_ok (Fresh.ofExcept_eq_ok.1 hb).1
  obtain ⟨pieces', u₃, hpieces', hcases⟩ := exists_pieces hs (room_of_mapM hpieces)
    fun i hi r hr => hknown r (Stream.mem_registers.2 ⟨i, hi, hr⟩)
  cases hpieces.symm.trans hpieces'
  rcases hcases with ⟨hfits, hexpanded⟩ | ⟨-, i, hi, r, hr, hnew⟩
  · exact ⟨hfits, hcompletes, hall, by rw [allocateSlots_eq], pieces, rfl, hexpanded⟩
  · -- a register drawn for the spill code has no place
    obtain ⟨p, hp⟩ := hall i hi r hr
    rcases hcompletes.adds hp with hp | rfl
    · exact absurd (hassigned r p hp) hnew
    · exact absurd (Register.known_physical _ p) hnew

end

end Spiller

end Codegen
