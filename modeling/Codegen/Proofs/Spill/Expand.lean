/-
  What spill code looks like.

  An instruction without spilled registers stays; a copy from or to a spilled
  register, or the move of a constant into one, is an access of its slot; any other
  instruction works on scratch registers between loads and stores (`Expanded`).
  The expansion of an instruction is of this form if all constants fit, and mentions
  a register that was not there before otherwise (`yields_expand`).
-/
import Codegen.Proofs.Machine.Expand
import Codegen.Proofs.Spill.Access
import Codegen.Spill

namespace Codegen

/-! ## Code that may draw registers -/

/-- The computation gives code of a certain form and draws nothing, if a condition
    holds; otherwise it gives code that mentions a register drawn meanwhile. -/
def Yields (x : Fresh (List Instr)) (u : Supply) (P : Prop) (C : List Instr → Prop) : Prop :=
  ∃ code u', x u = .ok code u' ∧ u.registers ≤ u'.registers ∧
    (P ∧ C code ∧ u' = u ∨ ¬ P ∧ ∃ i ∈ code, ∃ r ∈ i.mentions, ¬ r.Known u.registers)

namespace Yields

variable {x : Fresh (List Instr)} {u : Supply} {P Q : Prop} {C D : List Instr → Prop}

theorem imp (h : Yields x u P C) (hP : P ↔ Q) (hC : P → ∀ code, C code → D code) : Yields x u Q D := by
  obtain ⟨code, u', hx, hu, h⟩ := h
  refine ⟨code, u', hx, hu, h.imp (fun h => ⟨hP.1 h.1, hC h.1 _ h.2.1, h.2.2⟩) fun h => ?_⟩
  exact ⟨fun hQ => h.1 (hP.2 hQ), h.2⟩

theorem pure {code : List Instr} (h : C code) : Yields (Pure.pure code) u True C :=
  ⟨code, u, rfl, Nat.le_refl _, Or.inl ⟨trivial, h, rfl⟩⟩

/-- Code made for the elements of a list, one after the other. -/
theorem mapM {α : Type} {f : α → Fresh (List Instr)} {P : α → Prop} {code : α → List Instr}
    {xs : List α}
    (h : ∀ x ∈ xs, ∀ u' : Supply, u.registers ≤ u'.registers → Yields (f x) u' (P x) (· = code x)) :
    Yields (List.flatten <$> xs.mapM f) u (∀ x ∈ xs, P x) (· = xs.flatMap code) := by
  have key : ∃ codes u', xs.mapM f u = .ok codes u' ∧ u.registers ≤ u'.registers ∧
      ((∀ x ∈ xs, P x) ∧ codes.flatten = xs.flatMap code ∧ u' = u ∨
        ¬ (∀ x ∈ xs, P x) ∧ ∃ i ∈ codes.flatten, ∃ r ∈ i.mentions, ¬ r.Known u.registers) := by
    induction xs generalizing u with
    | nil => exact ⟨[], u, rfl, Nat.le_refl _, Or.inl ⟨by simp, rfl, rfl⟩⟩
    | cons x xs ih =>
      obtain ⟨c, u₁, hx, hu₁, hc⟩ := h x List.mem_cons_self u (Nat.le_refl _)
      obtain ⟨cs, u₂, hxs, hu₂, hcs⟩ := ih (u := u₁) fun y hy u' hu' =>
        h y (List.mem_cons_of_mem _ hy) u' (Nat.le_trans hu₁ hu')
      refine ⟨c :: cs, u₂, ?_, Nat.le_trans hu₁ hu₂, ?_⟩
      · rw [List.mapM_cons]
        exact EStateM.bind_eq_ok.2 ⟨_, _, hx, EStateM.bind_eq_ok.2 ⟨_, _, hxs, rfl⟩⟩
      · rw [List.forall_mem_cons, List.flatten_cons]
        rcases hc with ⟨hP, rfl, rfl⟩ | ⟨hP, i, hi, r, hr, hnew⟩
        · rcases hcs with ⟨hPs, hcs, rfl⟩ | ⟨hPs, i, hi, hnew⟩
          · exact Or.inl ⟨⟨hP, hPs⟩, by rw [hcs]; rfl, rfl⟩
          · exact Or.inr ⟨fun h => hPs h.2, i, List.mem_append_right _ hi, hnew⟩
        · exact Or.inr ⟨fun h => hP h.1, i, List.mem_append_left _ hi, r, hr, hnew⟩
  obtain ⟨codes, u', hcodes, hu, h⟩ := key
  refine ⟨codes.flatten, u', ?_, hu, h⟩
  exact EStateM.map_eq_ok.2 ⟨codes, hcodes, rfl⟩

end Yields

/-! ## The shape of spill code -/

namespace Spiller

variable {slots : Slots} {scratch : List Physical} {i : Instr} {r : Register} {rs : List Register}
  {slot : Slot} {a : Access}

theorem mem_spilledIn : r ∈ spilledIn slots rs ↔ r ∈ rs ∧ ∃ slot, slots.slot? r = some slot := by
  simp [spilledIn, List.mem_eraseDups, Option.isSome_iff_exists]

theorem spilledIn_eq_nil (h : ∀ r ∈ rs, slots.slot? r = none) : spilledIn slots rs = [] := by
  refine List.eq_nil_iff_forall_not_mem.2 fun r hr => ?_
  obtain ⟨hr, slot, hslot⟩ := mem_spilledIn.1 hr
  rw [h r hr] at hslot
  cases hslot

theorem mem_registers : r ∈ i.registers ↔ r ∈ i.mentions := List.mem_eraseDups

/-- The scratch registers of an instruction. -/
def places (slots : Slots) (scratch : List Physical) (i : Instr) : List (Register × Physical) :=
  (spilledIn slots i.registers).zip scratch

/-- Spilled registers become scratch registers. -/
def placed (places : List (Register × Physical)) (r : Register) : Register :=
  (places.lookup r).elim r Register.physical

/-- The access that loads or stores a spilled register. -/
def transferOf (slots : Slots) (places : List (Register × Physical)) (access : Register → Access)
    (r : Register) : List Instr :=
  match slots.slot? r, places.lookup r with
  | some slot, some h => [(access h).instr slot]
  | _, _ => []

/-- The accesses that load or store what of a list is spilled. -/
def transfers (slots : Slots) (places : List (Register × Physical)) (access : Register → Access)
    (rs : List Register) : List Instr :=
  (spilledIn slots rs).flatMap (transferOf slots places access)

/-- The instruction is an access of a slot. -/
inductive Direct (slots : Slots) : Instr → Slot → Access → Prop
  | load {d r : Register} {slot : Slot} (hd : slots.slot? d = none) (hr : slots.slot? r = some slot) :
    Direct slots (.move d r) slot (.load d)
  | store {d r : Register} {slot : Slot} (hd : slots.slot? d = some slot) (hr : slots.slot? r = none) :
    Direct slots (.move d r) slot (.store r)
  | set {d : Register} {slot : Slot} (w : Word) (hd : slots.slot? d = some slot) :
    Direct slots (.mov (.reg d) (.imm w)) slot (.set w)

/-- What an instruction becomes. -/
inductive Expanded (slots : Slots) (scratch : List Physical) (i : Instr) : List Instr → Prop
  | same (h : ∀ r ∈ i.mentions, slots.slot? r = none) : Expanded slots scratch i [i]
  | direct {slot : Slot} {a : Access} (h : Direct slots i slot a) : Expanded slots scratch i [a.instr slot]
  | through (hspilled : ∃ r ∈ i.mentions, ∃ slot, slots.slot? r = some slot)
      (hlen : (spilledIn slots i.registers).length ≤ scratch.length) (hdirect : direct? slots i = none) :
    Expanded slots scratch i
      (transfers slots (places slots scratch i) .load i.uses ++
        [i.mapRegisters (placed (places slots scratch i))] ++
        transfers slots (places slots scratch i) .store i.defines)

/-- The constants in the spill code of an instruction have 32 bits. -/
def Fits (slots : Slots) (i : Instr) : Prop :=
  (∀ r ∈ i.mentions, ∀ slot, slots.slot? r = some slot → slot.reach.fits32 = true) ∧
    ∀ d w, i = .mov (.reg d) (.imm w) → slots.slot? d ≠ none → w.fits32 = true

/-- There are enough scratch registers for an instruction. -/
def Room (slots : Slots) (scratch : List Physical) (i : Instr) : Prop :=
  direct? slots i = none → (spilledIn slots i.registers).length ≤ scratch.length

theorem direct?_cases (slots : Slots) (i : Instr) :
    (direct? slots i = none ∧ ∀ d w, i = .mov (.reg d) (.imm w) → slots.slot? d = none) ∨
      ∃ slot a, direct? slots i = some (a.op slot) ∧ Direct slots i slot a := by
  cases i with
  | mov dst src =>
    cases dst with
    | reg d =>
      cases src with
      | reg r =>
        cases hd : slots.slot? d with
        | none =>
          cases hr : slots.slot? r with
          | none => exact Or.inl ⟨by simp [direct?, Operand.register?, hd, hr], fun _ _ e => (by cases e)⟩
          | some slot =>
            exact Or.inr ⟨slot, .load d, by simp [direct?, Operand.register?, hd, hr, Access.op], .load hd hr⟩
        | some slot =>
          cases hr : slots.slot? r with
          | none =>
            exact Or.inr ⟨slot, .store r, by simp [direct?, Operand.register?, hd, hr, Access.op], .store hd hr⟩
          | some _ => exact Or.inl ⟨by simp [direct?, Operand.register?, hd, hr], fun _ _ e => (by cases e)⟩
      | imm w =>
        cases hd : slots.slot? d with
        | none =>
          refine Or.inl ⟨by simp [direct?, Operand.register?, hd], fun d' w' e => ?_⟩
          cases e
          exact hd
        | some slot =>
          exact Or.inr ⟨slot, .set w, by simp [direct?, Operand.register?, hd, Access.op], .set w hd⟩
      | mem o =>
        refine Or.inl ⟨?_, fun _ _ e => (by cases e)⟩
        cases hd : slots.slot? d <;> simp [direct?, Operand.register?, hd]
    | imm w =>
      refine Or.inl ⟨?_, fun _ _ e => (by cases e)⟩
      simp only [direct?, Operand.register?, Option.bind_none, Option.map_none]
      split <;> simp_all
    | mem o =>
      refine Or.inl ⟨?_, fun _ _ e => (by cases e)⟩
      simp only [direct?, Operand.register?, Option.bind_none, Option.map_none]
      split <;> simp_all
  | _ => exact Or.inl ⟨rfl, fun _ _ e => (by cases e)⟩

theorem Direct.fits_iff (h : Direct slots i slot a) : a.Narrow slot ↔ Fits slots i := by
  cases h with
  | load hd hr | store hd hr =>
    simp [Access.Narrow, Fits, Instr.mentions, Instr.move, Instr.uses, Instr.defines, Operand.registers,
      Operand.addressUses, Operand.defined, Operand.register?, hd, hr]
  | set w hd =>
    simp [Access.Narrow, Fits, Instr.mentions, Instr.uses, Instr.defines, Operand.registers,
      Operand.addressUses, Operand.defined, Operand.register?, hd]

theorem Direct.known {known : Nat} (h : Direct slots i slot a) (hi : ∀ r ∈ i.mentions, r.Known known) :
    a.Known known := by
  cases h with
  | store => exact hi _ (by simp [Instr.mentions, Instr.move, Instr.uses, Operand.registers])
  | _ => trivial

theorem Direct.spilled (h : Direct slots i slot a) : ∃ r ∈ i.mentions, slots.slot? r = some slot := by
  cases h with
  | @load d r _ hd hr => exact ⟨r, by simp [Instr.mentions, Instr.move, Instr.uses, Operand.registers], hr⟩
  | @store d r _ hd hr | @set d _ _ hd =>
    exact ⟨d, by simp [Instr.mentions, Instr.move, Instr.defines, Operand.defined, Operand.register?], hd⟩

/-! ## Scratch registers -/

theorem exists_lookup_zip {xs : List Register} {ys : List Physical} (h : xs.length ≤ ys.length)
    (hr : r ∈ xs) : ∃ p, (xs.zip ys).lookup r = some p := by
  induction xs generalizing ys with
  | nil => cases hr
  | cons x xs ih =>
    cases ys with
    | nil => simp at h
    | cons y ys =>
      rw [List.zip_cons_cons, List.lookup_cons]
      by_cases e : r = x
      · exact ⟨y, by simp [e]⟩
      · rw [show (r == x) = false by simpa using e]
        exact ih (by simpa using h) ((List.mem_cons.1 hr).resolve_left e)

theorem mem_of_lookup_zip {xs : List Register} {ys : List Physical} {p : Physical}
    (h : (xs.zip ys).lookup r = some p) : r ∈ xs ∧ p ∈ ys := by
  obtain ⟨l₁, l₂, e, -⟩ := List.lookup_eq_some_iff.1 h
  exact List.of_mem_zip (e ▸ by simp)

theorem lookup_zip_injective {xs : List Register} {ys : List Physical} (hys : ys.Nodup) {p : Physical}
    {r r' : Register} (h : (xs.zip ys).lookup r = some p) (h' : (xs.zip ys).lookup r' = some p) :
    r = r' := by
  induction xs generalizing ys with
  | nil => cases h
  | cons x xs ih =>
    cases ys with
    | nil => cases h
    | cons y ys =>
      rw [List.nodup_cons] at hys
      rw [List.zip_cons_cons, List.lookup_cons] at h h'
      by_cases e : r = x <;> by_cases e' : r' = x
      · rw [e, e']
      · rw [show (r == x) = true by simpa using e] at h
        rw [show (r' == x) = false by simpa using e'] at h'
        cases h
        exact absurd (mem_of_lookup_zip h').2 hys.1
      · rw [show (r == x) = false by simpa using e] at h
        rw [show (r' == x) = true by simpa using e'] at h'
        cases h'
        exact absurd (mem_of_lookup_zip h).2 hys.1
      · rw [show (r == x) = false by simpa using e] at h
        rw [show (r' == x) = false by simpa using e'] at h'
        exact ih hys.2 h h'

theorem exists_place (hlen : (spilledIn slots i.registers).length ≤ scratch.length)
    (hr : r ∈ i.mentions) (hslot : slots.slot? r = some slot) :
    ∃ h, (places slots scratch i).lookup r = some h :=
  exists_lookup_zip hlen (mem_spilledIn.2 ⟨mem_registers.2 hr, slot, hslot⟩)

theorem spilled_of_place {h : Physical} (hr : (places slots scratch i).lookup r = some h) :
    r ∈ i.mentions ∧ (∃ slot, slots.slot? r = some slot) ∧ h ∈ scratch := by
  obtain ⟨hmem, hh⟩ := mem_of_lookup_zip hr
  obtain ⟨hmem, hslot⟩ := mem_spilledIn.1 hmem
  exact ⟨mem_registers.1 hmem, hslot, hh⟩

/-- An instruction mentions at most two registers, besides those that calls and
    returns list. -/
theorem length_spilledIn_le (hi : i.ListsPhysical)
    (hvirtual : ∀ r slot, slots.slot? r = some slot → r.isPhysical = false) :
    (spilledIn slots i.registers).length ≤ 2 := by
  have hsub : ∀ rs : List Register, rs.length ≤ 2 → i.mentions ⊆ rs →
      (spilledIn slots i.registers).length ≤ 2 := fun rs hlen h =>
    Nat.le_trans ((nodup_eraseDups _).length_le_of_subset fun r hr =>
      h (mem_registers.1 (mem_spilledIn.1 hr).1)) hlen
  have hnone : (∀ r ∈ i.mentions, r.isPhysical = true) → (spilledIn slots i.registers).length ≤ 2 :=
    fun h => by
      rw [spilledIn_eq_nil fun r hr => ?_]
      · exact Nat.zero_le _
      · cases hslot : slots.slot? r with
        | none => rfl
        | some slot =>
          have := hvirtual r slot hslot
          rw [h r (mem_registers.1 hr)] at this
          cases this
  have hbase : ∀ o : Mem, o.registers.length ≤ 1 := fun o => by
    cases hb : o.base <;> simp [Mem.registers, hb]
  have hregs : ∀ o : Operand, o.registers.length ≤ 1 := fun o => by
    cases o with
    | mem o => exact hbase o
    | _ => simp [Operand.registers]
  cases i with
  | mov dst src =>
    refine hsub (src.registers ++ dst.registers) ?_ ?_
    · have h₁ := hregs dst
      have h₂ := hregs src
      simp only [List.length_append]
      omega
    · cases dst <;> simp [Instr.mentions, Instr.uses, Instr.defines, Operand.addressUses, Operand.defined,
        Operand.register?, Operand.registers]
  | binary op dst src =>
    refine hsub (dst.registers ++ src.registers) ?_ ?_
    · have h₁ := hregs dst
      have h₂ := hregs src
      simp only [List.length_append]
      omega
    · simp only [Instr.mentions, Instr.uses, Instr.defines]
      split
      · simp
      · cases dst <;> simp [Operand.defined, Operand.register?, Operand.registers]
  | clear r => exact hsub [r] (by simp) (by simp [Instr.mentions, Instr.uses, Instr.defines])
  | unary op r => exact hsub [r] (by simp) (by simp [Instr.mentions, Instr.uses, Instr.defines])
  | setcc cond r => exact hsub [r] (by simp) (by simp [Instr.mentions, Instr.uses, Instr.defines])
  | lea dst src =>
    refine hsub (src.registers ++ [dst]) ?_ (by simp [Instr.mentions, Instr.uses, Instr.defines])
    have := hbase src
    simp only [List.length_append, List.length_singleton]
    omega
  | jmp l => exact hsub [] (by simp) (by simp [Instr.mentions, Instr.uses, Instr.defines])
  | jcc cond l => exact hsub [] (by simp) (by simp [Instr.mentions, Instr.uses, Instr.defines])
  | call l arguments clobbers =>
    exact hnone fun r hr => (List.mem_append.1 hr).elim (hi.1 r) (hi.2 r)
  | ret results => exact hnone fun r hr => (List.mem_append.1 hr).elim (hi r) (by simp [Instr.defines])

theorem mem_transfers {places : List (Register × Physical)} {access : Register → Access}
    (h : i ∈ transfers slots places access rs) :
    ∃ r ∈ rs, ∃ slot p, slots.slot? r = some slot ∧ places.lookup r = some p ∧
      i = (access (.physical p)).instr slot := by
  obtain ⟨r, hr, hi⟩ := List.mem_flatMap.1 h
  unfold transferOf at hi
  split at hi
  · next slot p hslot hp =>
    exact ⟨r, (mem_spilledIn.1 hr).1, slot, p, hslot, hp, List.mem_singleton.1 hi⟩
  · cases hi

/-- A register of the instruction that has no place is not spilled. -/
theorem placed_cases (hlen : (spilledIn slots i.registers).length ≤ scratch.length) (hr : r ∈ i.mentions) :
    (slots.slot? r = none ∧ placed (places slots scratch i) r = r) ∨
      ∃ slot p, slots.slot? r = some slot ∧ p ∈ scratch ∧
        (places slots scratch i).lookup r = some p ∧ placed (places slots scratch i) r = .physical p := by
  cases hslot : slots.slot? r with
  | none =>
    refine Or.inl ⟨rfl, ?_⟩
    cases hp : (places slots scratch i).lookup r with
    | none => rw [placed, hp]; rfl
    | some p =>
      obtain ⟨-, ⟨slot, hslot'⟩, -⟩ := spilled_of_place hp
      rw [hslot] at hslot'
      cases hslot'
  | some slot =>
    obtain ⟨p, hp⟩ := exists_place hlen hr hslot
    exact Or.inr ⟨slot, p, rfl, (spilled_of_place hp).2.2, hp, by rw [placed, hp]; rfl⟩

/-- Physical registers are not moved. -/
theorem placed_eq_of_physical (hlen : (spilledIn slots i.registers).length ≤ scratch.length)
    (hvirtual : ∀ r slot, slots.slot? r = some slot → r.isPhysical = false) :
    ∀ r ∈ i.mentions, r.isPhysical = true → placed (places slots scratch i) r = r := by
  intro r hr hp
  rcases placed_cases hlen hr with ⟨-, h⟩ | ⟨slot, p, hslot, -⟩
  · exact h
  · rw [hvirtual r slot hslot] at hp; cases hp

/-! ## Expansion -/

theorem room_of_expand {s : Spiller} {u u' : Supply} {code : List Instr}
    (h : s.expand slots i u = .ok code u') : Room slots s.scratch i := by
  intro hdirect
  by_cases hspilled : spilledIn slots i.registers = []
  · simp [hspilled]
  · refine Nat.le_of_not_lt fun hlt => ?_
    simp only [expand, List.isEmpty_iff, if_neg hspilled, hdirect, if_pos hlt] at h
    cases h

variable {s : Spiller} {u : Supply} (hs : s.cover = Amd64.catalogue.coverStmts)
include hs

theorem yields_transfers {places : List (Register × Physical)} (access : Register → Access)
    {op : Slot → Physical → Stmt} (hop : ∀ slot h, op slot h = (access h).op slot)
    (hknown : ∀ (h : Physical) known, (access h).Known known)
    (hnarrow : ∀ (h : Register) slot, (access h).Narrow slot ↔ slot.reach.fits32 = true)
    (hplaces : ∀ r ∈ spilledIn slots rs, ∃ h, places.lookup r = some h) :
    Yields (List.flatten <$> (spilledIn slots rs).mapM (s.transfer slots places op)) u
      (∀ r ∈ rs, ∀ slot, slots.slot? r = some slot → slot.reach.fits32 = true)
      (· = transfers slots places access rs) := by
  refine (Yields.mapM (P := fun r => ∀ slot, slots.slot? r = some slot → slot.reach.fits32 = true)
    fun r hr u' _ => ?_).imp ⟨fun h r hr slot hslot => ?_, fun h r hr => ?_⟩ fun _ _ h => h
  · obtain ⟨-, slot, hslot⟩ := mem_spilledIn.1 hr
    obtain ⟨h, hplace⟩ := hplaces r hr
    simp only [transfer, transferOf, hslot, hplace, hs, hop]
    refine Yields.imp (Access.cover_access slot (hknown h _)) ?_ fun _ _ h => h
    rw [hnarrow]
    simp
  · exact h r (mem_spilledIn.2 ⟨hr, slot, hslot⟩) slot hslot
  · exact h r (mem_spilledIn.1 hr).1

/-- The code of an instruction between loads and stores. -/
theorem yields_through (hlen : (spilledIn slots i.registers).length ≤ s.scratch.length)
    (hspilled : spilledIn slots i.registers ≠ []) (hdirect : direct? slots i = none)
    (hconst : ∀ d w, i = .mov (.reg d) (.imm w) → slots.slot? d = none) :
    Yields (s.expand slots i) u (Fits slots i) (Expanded slots s.scratch i) := by
  have hplaces : ∀ rs, rs ⊆ i.mentions → ∀ r ∈ spilledIn slots rs,
      ∃ h, (places slots s.scratch i).lookup r = some h := fun rs hrs r hr => by
    obtain ⟨hr, slot, hslot⟩ := mem_spilledIn.1 hr
    exact exists_place hlen (hrs hr) hslot
  obtain ⟨loads, u₁, hloads, hu₁, h₁⟩ := yields_transfers (u := u) hs .load
    (fun slot h => rfl) (fun _ _ => trivial) (fun _ _ => Iff.rfl)
    (hplaces i.uses (List.subset_append_left _ _))
  obtain ⟨stores, u₂, hstores, hu₂, h₂⟩ := yields_transfers (u := u₁) hs .store
    (fun slot h => rfl) (fun h _ => Register.known_physical _ h) (fun _ _ => Iff.rfl)
    (hplaces i.defines (List.subset_append_right _ _))
  have hfits : Fits slots i ↔
      (∀ r ∈ i.uses, ∀ slot, slots.slot? r = some slot → slot.reach.fits32 = true) ∧
        ∀ r ∈ i.defines, ∀ slot, slots.slot? r = some slot → slot.reach.fits32 = true := by
    unfold Fits
    rw [Instr.mentions, List.forall_mem_append]
    exact and_iff_left fun d w e hd => absurd (hconst d w e) hd
  refine ⟨loads ++ [i.mapRegisters (placed (places slots s.scratch i))] ++ stores, u₂, ?_,
    Nat.le_trans hu₁ hu₂, ?_⟩
  · obtain ⟨ls, hls, rfl⟩ := EStateM.map_eq_ok.1 hloads
    obtain ⟨ss, hss, rfl⟩ := EStateM.map_eq_ok.1 hstores
    simp only [expand, List.isEmpty_iff, if_neg hspilled, hdirect, if_neg (Nat.not_lt.2 hlen)]
    exact EStateM.bind_eq_ok.2 ⟨ls, u₁, hls, EStateM.bind_eq_ok.2 ⟨ss, u₂, hss, rfl⟩⟩
  · rw [hfits]
    rcases h₁ with ⟨hP, rfl, rfl⟩ | ⟨hP, j, hj, hnew⟩
    · rcases h₂ with ⟨hQ, rfl, rfl⟩ | ⟨hQ, j, hj, hnew⟩
      · obtain ⟨r, hr⟩ := List.exists_mem_of_ne_nil _ hspilled
        obtain ⟨hmem, hslot⟩ := mem_spilledIn.1 hr
        exact Or.inl ⟨⟨hP, hQ⟩, .through ⟨r, mem_registers.1 hmem, hslot⟩ hlen hdirect, rfl⟩
      · exact Or.inr ⟨fun h => hQ h.2, j, List.mem_append_right _ hj, hnew⟩
    · exact Or.inr ⟨fun h => hP h.1, j, by simp [hj], hnew⟩

/-- **Spill code has the expected form, or draws registers.** -/
theorem yields_expand (hroom : Room slots s.scratch i) (hknown : ∀ r ∈ i.mentions, r.Known u.registers) :
    Yields (s.expand slots i) u (Fits slots i) (Expanded slots s.scratch i) := by
  by_cases hspilled : spilledIn slots i.registers = []
  · have hnone : ∀ r ∈ i.mentions, slots.slot? r = none := fun r hr => by
      cases hslot : slots.slot? r with
      | none => rfl
      | some slot =>
        have := mem_spilledIn.2 ⟨mem_registers.2 hr, slot, hslot⟩
        rw [hspilled] at this
        cases this
    have hfits : Fits slots i := by
      refine ⟨fun r hr slot hslot => ?_, fun d w e hd => ?_⟩
      · rw [hnone r hr] at hslot; cases hslot
      · exact absurd (hnone d (by
          rw [e]; simp [Instr.mentions, Instr.defines, Operand.defined, Operand.register?])) hd
    have hsame : s.expand slots i = pure [i] := by
      simp only [expand, hspilled, List.isEmpty_nil, if_true]
    rw [hsame]
    exact (Yields.pure (.same hnone)).imp (by simp [hfits]) fun _ _ h => h
  · rcases direct?_cases slots i with ⟨hdirect, hconst⟩ | ⟨slot, a, hdirect, h⟩
    · exact yields_through hs (hroom hdirect) hspilled hdirect hconst
    · have hcover : s.expand slots i = Amd64.catalogue.coverStmts [a.op slot] := by
        simp only [expand, List.isEmpty_iff, if_neg hspilled, hdirect, hs]
      rw [hcover]
      exact Yields.imp (Access.cover_access slot (h.known hknown)) h.fits_iff fun _ code e =>
        e ▸ .direct h

end Spiller

end Codegen
