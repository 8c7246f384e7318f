/-
  Running spill code.

  A machine that runs the expanded stream holds the spilled registers in their
  slots (`Backed`).  The code of each instruction keeps this: an access of a slot at
  once, any other instruction after the loads and before the stores around it.  So
  the expanded stream tracks the stream (`tracks_spill`).
-/
import Codegen.Proofs.Spill.Complete

namespace Codegen

open Spiller Machine

/-! ## What spill code expects -/

/-- Slots of virtual registers, addressed by the frame pointer and apart from each
    other, and scratch registers to work with. -/
structure Slots.Usable (slots : Slots) (scratch : List Physical) : Prop where
  virtual : ∀ {r slot}, slots.slot? r = some slot → r.isPhysical = false
  framePointer : ∀ {r slot}, slots.slot? r = some slot → slot.framePointer = .rbp
  apart : ∀ {r r' slot slot'}, slots.slot? r = some slot → slots.slot? r' = some slot' →
    slot.offset = slot'.offset → r = r'
  distinct : scratch.Nodup
  free : .rbp ∉ scratch

/-- Is the instruction a call? -/
def Instr.isCall : Instr → Bool
  | .call .. => true
  | _ => false

/-- The instruction mentions none of the registers, except as clobbers of a call. -/
def Instr.Spares (scratch : List Physical) (i : Instr) : Prop :=
  ∀ p ∈ scratch, .physical p ∉ i.uses ∧ (.physical p ∈ i.defines → i.isCall = true)

instance (scratch : List Physical) : DecidablePred (Instr.Spares scratch) := fun i =>
  inferInstanceAs (Decidable (∀ p ∈ scratch, .physical p ∉ i.uses ∧ (.physical p ∈ i.defines → i.isCall = true)))

/-- An instruction that spill code can be made for: its lists hold physical registers
    only, and it leaves the frame pointer and the scratch registers alone. -/
def Instr.Spillable (scratch : List Physical) (i : Instr) : Prop :=
  i.ListsPhysical ∧ .physical .rbp ∉ i.defines ∧ i.Spares scratch

instance (scratch : List Physical) : DecidablePred (Instr.Spillable scratch) := fun _ =>
  inferInstanceAs (Decidable (_ ∧ _ ∧ _))

section
variable {i : Instr} {r : Register} {scratch : List Physical} {p : Physical}

/-- An instruction that mentions a virtual register is neither a call nor a jump nor
    a return. -/
theorem Instr.ListsPhysical.of_virtual (hi : i.ListsPhysical) (hr : r ∈ i.mentions)
    (hv : r.isPhysical = false) :
    i.Straight ∧ i.isCall = false ∧ Exec.changes i = i.defines ∧ ∀ f, Exec.Steady f i := by
  cases i with
  | call l arguments clobbers =>
    have := (List.mem_append.1 hr).elim (hi.1 r) (hi.2 r)
    rw [hv] at this
    cases this
  | ret results =>
    have := (List.mem_append.1 hr).elim (hi r) (by simp [Instr.defines])
    rw [hv] at this
    cases this
  | jmp | jcc => simp [Instr.mentions, Instr.uses, Instr.defines] at hr
  | _ => exact ⟨⟨rfl, rfl⟩, rfl, rfl, fun _ => trivial⟩

theorem Instr.Spillable.rbp_notMem_changes (hi : i.Spillable scratch) : .physical .rbp ∉ Exec.changes i := by
  cases i with
  | call l arguments clobbers => exact fun h => (List.mem_cons.1 h).elim (by decide) hi.2.1
  | _ => exact hi.2.1

end

/-! ## Instructions that succeed -/

namespace Exec

variable {i : Instr} {m n : Machine} {r : Register} {f : Register → Register}

theorem mem_changes_mapRegisters (hf : Steady f i) (hr : r ∈ changes (i.mapRegisters f)) :
    ∃ d ∈ changes i, f d = r := by
  cases i with
  | call l arguments clobbers =>
    refine ⟨r, hr, ?_⟩
    rcases List.mem_cons.1 hr with rfl | hr
    · exact hf.2.2
    · exact hf.2.1 r hr
  | ret => cases hr
  | binary op dst src =>
    simp only [Instr.mapRegisters, changes, Instr.defines] at hr ⊢
    split at hr
    · cases hr
    · next hop =>
      rw [Operand.defined_mapRegisters] at hr
      rw [if_neg hop]
      exact List.mem_map.1 hr
  | mov dst src =>
    simp only [Instr.mapRegisters, changes, Instr.defines, Operand.defined_mapRegisters] at hr
    exact List.mem_map.1 hr
  | _ => simp_all [Instr.mapRegisters, changes, Instr.defines]

theorem read_of_write {d : Register} {w : Word} (e : write d w m = .ok () n) : n.read d = .ok w := by
  have e : m.write d w = n := by cases e; rfl
  rw [← e, read_write, if_pos rfl]

theorem read_of_store {o : Operand} {w : Word} (hr : r ∈ o.defined) (e : store w o m = .ok () n) :
    n.read r = .ok w := by
  cases o with
  | reg d =>
    obtain rfl : r = d := by simpa [Operand.defined, Operand.register?] using hr
    exact read_of_write e
  | _ => cases hr

/-- A virtual register that an instruction writes can be read afterwards. -/
theorem readable_of_changes (hi : i.ListsPhysical) (hr : r ∈ changes i) (hv : r.isPhysical = false)
    (e : execute i m = .ok () n) : ∃ w, n.read r = .ok w := by
  cases i with
  | mov dst src =>
    obtain ⟨w, m₁, -, e⟩ := EStateM.bind_eq_ok.1 e
    exact ⟨w, read_of_store hr e⟩
  | binary op dst src =>
    obtain ⟨x, m₁, -, e⟩ := EStateM.bind_eq_ok.1 e
    obtain ⟨y, m₂, -, e⟩ := EStateM.bind_eq_ok.1 e
    simp only [changes, Instr.defines] at hr
    split at hr
    · cases hr
    · next hop =>
      simp only [if_neg hop] at e
      cases harith : arithmetic? op with
      | none => rw [harith] at e; exact absurd e fail_ne_ok
      | some g => rw [harith] at e; exact ⟨_, read_of_store hr e⟩
  | clear d =>
    obtain rfl : r = d := List.mem_singleton.1 hr
    exact ⟨_, read_of_write e⟩
  | unary op d =>
    obtain rfl : r = d := List.mem_singleton.1 hr
    obtain ⟨x, m₁, -, e⟩ := EStateM.bind_eq_ok.1 e
    cases hchange : change? op with
    | none => rw [hchange] at e; exact absurd e fail_ne_ok
    | some g => rw [hchange] at e; exact ⟨_, read_of_write e⟩
  | setcc cond d =>
    obtain rfl : r = d := List.mem_singleton.1 hr
    obtain ⟨x, m₁, -, e⟩ := EStateM.bind_eq_ok.1 e
    obtain ⟨b, m₂, -, e⟩ := EStateM.bind_eq_ok.1 e
    exact ⟨_, read_of_write e⟩
  | lea d src =>
    obtain rfl : r = d := List.mem_singleton.1 hr
    obtain ⟨x, m₁, -, e⟩ := EStateM.bind_eq_ok.1 e
    exact ⟨_, read_of_write e⟩
  | call l arguments clobbers =>
    have : r.isPhysical = true := (List.mem_cons.1 hr).elim (fun h => h ▸ rfl) (hi.2 r)
    rw [hv] at this
    cases this
  | jmp | jcc | ret => cases hr

end Exec

/-! ## Spilled registers in their slots -/

namespace Spiller

variable {slots : Slots} {scratch : List Physical} {base : Word} {pending : List Register}
  {m m' n n' : Machine} {i : Instr} {r : Register} {slot : Slot} {w : Word}

/-- The register stays a register and is none that spill code works with. -/
def Stays (slots : Slots) (scratch : List Physical) (r : Register) : Prop :=
  slots.slot? r = none ∧ ∀ p ∈ scratch, r ≠ .physical p

/-- The address is that of a slot. -/
def Cell (slots : Slots) (base a : Word) : Prop := ∃ r slot, slots.slot? r = some slot ∧ a = base + slot.offset

/-- The second machine holds the spilled registers in their slots, except for some that
    have yet to be stored. -/
structure Backed (slots : Slots) (scratch : List Physical) (base : Word) (pending : List Register)
    (m m' : Machine) : Prop where
  hooks : m'.hooks = m.hooks
  globals : m'.globals = m.globals
  compared : m'.compared = m.compared
  frame : m'.read (.physical .rbp) = .ok base
  reads : ∀ {r}, Stays slots scratch r → m'.read r = m.read r
  held : ∀ {r slot w}, r ∉ pending → slots.slot? r = some slot → m.read r = .ok w →
    m'.word (base + slot.offset) = w
  memory : ∀ {a}, ¬ Cell slots base a → m'.memory.get? a = m.memory.get? a

theorem Backed.settle (h : Backed slots scratch base pending m m') {pending' : List Register}
    (hp : ∀ r ∈ pending, ∀ slot, slots.slot? r = some slot → r ∈ pending') :
    Backed slots scratch base pending' m m' :=
  { h with
    reads := h.reads, memory := h.memory
    held := fun hr hslot => h.held (fun hmem => hr (hp _ hmem _ hslot)) hslot }

section
variable (hu : slots.Usable scratch)
include hu

theorem Backed.denotes (h : Backed slots scratch base pending m m') (hslot : slots.slot? r = some slot) :
    m'.tick.Denotes slot.operand (base + slot.offset) := by
  unfold Slot.operand
  rw [hu.framePointer hslot]
  exact denotes_base _ h.frame

/-- Other slots keep what they hold. -/
theorem word_store_ne {r r' : Register} {slot slot' : Slot} (hslot : slots.slot? r = some slot)
    (hslot' : slots.slot? r' = some slot') (hne : r' ≠ r) (w : Word) :
    (m'.store (base + slot.offset) w).word (base + slot'.offset) = m'.word (base + slot'.offset) := by
  have hoff : base + slot'.offset ≠ base + slot.offset := fun e =>
    hne (hu.apart hslot' hslot ((Int64.add_right_inj _).1 e))
  simp only [word, store, Bindings.get?_set_ne _ _ hoff]

/-! ### Loads and stores -/

/-- A slot is loaded into a scratch register. -/
theorem Backed.load (h : Backed slots scratch base pending m m') (hslot : slots.slot? r = some slot) {p : Physical}
    (hp : p ∈ scratch) :
    ∃ n', Runs (fun _ => True) [(Access.load p).instr slot] m' n' ∧
      Backed slots scratch base pending m n' ∧ n'.memory = m'.memory ∧
        ∀ r, n'.read r = if r = .physical p then .ok (m'.word (base + slot.offset)) else m'.read r := by
  refine ⟨m'.tick.write p (m'.word (base + slot.offset)),
    .single ⟨rfl, rfl⟩ (safe_of_forall (fun _ => trivial) _ _)
      (Exec.execute_mov_reg (Exec.load_mem (h.denotes hu hslot))), ?_, rfl, fun r => read_write _ _ r _⟩
  refine { h with frame := ?_, reads := fun {r} hr => ?_, held := h.held, memory := h.memory }
  · rw [read_write, if_neg]
    · exact h.frame
    · rintro ⟨⟩; exact hu.free hp
  · rw [read_write, if_neg (hr.2 p hp)]
    exact h.reads hr

/-- A register is stored in a slot. -/
theorem Backed.store {rs : List Register} (h : Backed slots scratch base (r :: rs) m m')
    (hslot : slots.slot? r = some slot) (hw : m.read r = .ok w) {src : Operand}
    (hsrc : Exec.load src m'.tick = .ok w m'.tick) :
    ∃ n', Runs (fun _ => True) [.mov (.mem slot.operand) src] m' n' ∧ Backed slots scratch base rs m n' ∧
      ∀ r, n'.read r = m'.read r := by
  refine ⟨m'.tick.store (base + slot.offset) w,
    .single ⟨rfl, rfl⟩ (safe_of_forall (fun _ => trivial) _ _)
      (Exec.execute_mov_mem hsrc (h.denotes hu hslot)), ?_, fun _ => rfl⟩
  refine { h with frame := h.frame, reads := h.reads, held := fun {r' slot' w'} hr' hslot' hw' => ?_,
                  memory := fun {a} ha => ?_ }
  · by_cases e : r' = r
    · subst e
      rw [hslot] at hslot'
      cases hslot'
      rw [hw] at hw'
      cases hw'
      simp [word, Machine.store]
    · rw [word_store_ne hu hslot hslot' e]
      exact h.held (by simp [e, hr']) hslot' hw'
  · have hne : a ≠ base + slot.offset := fun e => ha ⟨r, slot, hslot, e⟩
    simp only [Machine.store, Bindings.get?_set_ne _ _ hne]
    exact h.memory ha

variable {places : List (Register × Physical)}

/-- What is read is loaded. -/
theorem Backed.loads (hinj : ∀ {r r' p}, places.lookup r = some p → places.lookup r' = some p → r = r')
    (h : Backed slots scratch base [] m m') {rs : List Register}
    (hrs : ∀ r ∈ rs, ∃ slot p, slots.slot? r = some slot ∧ places.lookup r = some p ∧ p ∈ scratch) :
    ∃ n', Runs (fun _ => True) (rs.flatMap (transferOf slots places .load)) m' n' ∧
      Backed slots scratch base [] m n' ∧
      (∀ r ∈ rs, ∀ w, m.read r = .ok w → n'.read (placed places r) = .ok w) ∧
      ∀ r p, places.lookup r = some p → r ∉ rs → n'.read (.physical p) = m'.read (.physical p) := by
  induction rs generalizing m' with
  | nil => exact ⟨m', .nil m', h, nofun, fun _ _ _ _ => rfl⟩
  | cons r rs ih =>
    obtain ⟨slot, p, hslot, hp, hmem⟩ := hrs r List.mem_cons_self
    obtain ⟨m₁, hrun, h₁, -, hread⟩ := h.load hu hslot hmem
    obtain ⟨n', hruns, hn, hdone, hkeep⟩ := ih h₁ fun r hr => hrs r (List.mem_cons_of_mem _ hr)
    refine ⟨n', ?_, hn, fun r' hr' w hw => ?_, fun r' p' hp' hr' => ?_⟩
    · rw [List.flatMap_cons, show transferOf slots places .load r = [(Access.load p).instr slot] by
        simp only [transferOf, hslot, hp]]
      exact hrun.append hruns
    · by_cases hlater : r' ∈ rs
      · exact hdone r' hlater w hw
      · obtain rfl : r' = r := (List.mem_cons.1 hr').resolve_right hlater
        rw [show placed places r' = .physical p by simp [placed, hp], hkeep r' p hp hlater, hread, if_pos rfl,
          h.held (by simp) hslot hw]
    · rw [hkeep r' p' hp' fun h => hr' (List.mem_cons_of_mem _ h), hread, if_neg]
      rintro ⟨⟩
      exact hr' (hinj hp' hp ▸ List.mem_cons_self)

/-- What is written is stored. -/
theorem Backed.stores {rs : List Register} (h : Backed slots scratch base rs m m')
    (hrs : ∀ r ∈ rs, ∃ slot p w, slots.slot? r = some slot ∧ places.lookup r = some p ∧
      m.read r = .ok w ∧ m'.read (.physical p) = .ok w) :
    ∃ n', Runs (fun _ => True) (rs.flatMap (transferOf slots places .store)) m' n' ∧
      Backed slots scratch base [] m n' := by
  induction rs generalizing m' with
  | nil => exact ⟨m', .nil m', h⟩
  | cons r rs ih =>
    obtain ⟨slot, p, w, hslot, hp, hw, hw'⟩ := hrs r List.mem_cons_self
    obtain ⟨m₁, hrun, h₁, hread⟩ := h.store hu hslot hw (Exec.load_reg hw')
    obtain ⟨n', hruns, hn⟩ := ih h₁ fun r hr => by
      obtain ⟨slot, p, w, hslot, hp, hw, hw'⟩ := hrs r (List.mem_cons_of_mem _ hr)
      exact ⟨slot, p, w, hslot, hp, hw, (hread _).trans hw'⟩
    refine ⟨n', ?_, hn⟩
    rw [List.flatMap_cons, show transferOf slots places .store r = [(Access.store p).instr slot] by
      simp only [transferOf, hslot, hp]]
    exact hrun.append hruns

end

/-! ### The instruction itself -/

/-- Registers are renamed, and slots are out of sight. -/
def setting (slots : Slots) (base : Word) (rename : Register → Register) (place : Nat → Nat → Prop)
    (y : Bindings Word Word) : Setting where
  rename := rename
  near a := ¬ Cell slots base a
  memory x x' := (∀ a, ¬ Cell slots base a → x'.get? a = x.get? a) ∧ ∀ a, Cell slots base a → x'.get? a = y.get? a
  place := place
  get h ha := h.1 _ ha
  set {x x' a} w h ha := by
    refine ⟨fun b hb => ?_, fun b hb => ?_⟩
    · by_cases e : b = a
      · subst e; simp
      · rw [Bindings.get?_set_ne _ _ e, Bindings.get?_set_ne _ _ e]; exact h.1 b hb
    · have hne : b ≠ a := fun e => ha (e ▸ hb)
      rw [Bindings.get?_set_ne _ _ hne]
      exact h.2 b hb

/-- **An instruction is executed on registers in other places.**  What it writes has
    yet to be stored. -/
theorem Backed.execute {f : Register → Register} (place : Nat → Nat → Prop)
    (hu : slots.Usable scratch) (hi : i.Spillable scratch) (h : Backed slots scratch base [] m m')
    (hreturned : m'.returned = m.returned)
    (hlabels : ∀ {l j}, m.labels.get? l = some j → ∃ j', m'.labels.get? l = some j' ∧ place j j')
    (hplace : place (m.position + 1) (m'.position + 1))
    (hstays : ∀ {r}, Stays slots scratch r → f r = r) (hsteady : Exec.Steady f i)
    (huses : ∀ r ∈ i.uses, Passes r (m.read r) (m'.read (f r)))
    (hfresh : ∀ {r}, Stays slots scratch r → r ∉ Exec.changes i → ∀ d ∈ Exec.changes i, f d ≠ r)
    (hsafe : Safe (fun a => ¬ Cell slots base a) i m.tick) (e : Exec.execute i m.tick = .ok () n) :
    ∃ n', Exec.execute (i.mapRegisters f) m'.tick = .ok () n' ∧ n'.returned = n.returned ∧
      place n.position n'.position ∧ Backed slots scratch base (Exec.changes i) n n' ∧
      ∀ d ∈ Exec.changes i, ∀ w, n.read d = .ok w → n'.read (f d) = .ok w := by
  have hagree : Agree (setting slots base f place m'.memory)
      (fun r => r ∈ i.uses ∨ Stays slots scratch r) i.memories m.tick m'.tick :=
    { hooks := h.hooks, globals := h.globals, compared := h.compared, returned := hreturned
      labels := hlabels, position := hplace, memory := ⟨fun _ => h.memory, fun _ _ => rfl⟩
      reads := fun {r} hr => hr.elim (huses r) fun hr => by
        rw [show (setting slots base f place m'.memory).rename r = r from hstays hr]
        exact Or.inl (h.reads hr).symm
      safe := hsafe }
  -- afterwards the registers that stay and what the instruction writes are needed
  have hapart : ∀ r, r ∈ Exec.changes i ∨ Stays slots scratch r → r ∉ Exec.changes i →
      (r ∈ i.uses ∨ Stays slots scratch r) ∧ ∀ d ∈ Exec.changes i, f r = f d → i.copy? = some (d, r) := by
    intro r hr hnot
    have hr := hr.resolve_left hnot
    refine ⟨Or.inr hr, fun d hd e => absurd ?_ (hfresh hr hnot d hd)⟩
    exact e.symm.trans (hstays hr)
  obtain ⟨n', e', hn⟩ := Exec.simulates_execute hsteady (fun r hr => Or.inl hr) hapart hagree e
  obtain ⟨-, hkeep⟩ := Exec.control_execute e
  obtain ⟨-, hkeep'⟩ := Exec.control_execute e'
  -- what the instruction does not write is as before in both machines
  have hreads : ∀ {r}, Stays slots scratch r → n'.read r = n.read r := fun {r} hr => by
    by_cases hmem : r ∈ Exec.changes i
    · have hpass := hn.reads (Or.inl hmem)
      rw [show (setting slots base f place m'.memory).rename r = r from hstays hr] at hpass
      rcases hpass with hpass | ⟨hv, t, ht⟩
      · exact hpass.symm
      · obtain ⟨w, hw⟩ := Exec.readable_of_changes hi.1 hmem hv e
        rw [hw] at ht
        cases ht
    · rw [hkeep r hmem, hkeep' r fun h => ?_]
      · exact h.reads hr
      · obtain ⟨d, hd, e⟩ := Exec.mem_changes_mapRegisters hsteady h
        exact hfresh hr hmem d hd e
  refine ⟨n', e', hn.returned, hn.position, ?_, fun d hd w hw => ?_⟩
  · refine { hooks := hn.hooks, globals := hn.globals, compared := hn.compared, frame := ?_
             reads := hreads, held := fun {r slot w} hr hslot hw => ?_, memory := hn.memory.1 _ }
    · have hrbp : Stays slots scratch (.physical .rbp) := by
        refine ⟨?_, fun p hp e => ?_⟩
        · cases hslot : slots.slot? (.physical .rbp) with
          | none => rfl
          | some slot => cases hu.virtual hslot
        · cases e; exact hu.free hp
      rw [hreads hrbp, hkeep _ hi.rbp_notMem_changes]
      exact (h.reads hrbp).symm.trans h.frame
    · rw [hkeep r hr] at hw
      rw [word, hn.memory.2 _ ⟨r, slot, hslot, rfl⟩]
      exact h.held (by simp) hslot hw
  · have hpass := hn.reads (Or.inl hd)
    rw [hw] at hpass
    exact hpass.ok

/-! ## The code of an instruction -/

section
variable (hu : slots.Usable scratch) (hi : i.Spillable scratch) (h : Backed slots scratch base [] m m')
  (hsafe : Safe (fun a => ¬ Cell slots base a) i m.tick) (e : Exec.execute i m.tick = .ok () n)
include hu hi h e

/-- A copy from or to a slot, or a constant put there. -/
theorem Backed.direct {a : Access} (hd : Direct slots i slot a) :
    i.Straight ∧ ∃ n', Runs (fun _ => True) [a.instr slot] m' n' ∧ Backed slots scratch base [] n n' := by
  refine ⟨by cases hd <;> exact ⟨rfl, rfl⟩, ?_⟩
  -- a register that is written by a move is neither a scratch register nor the frame pointer
  have hwritten : ∀ {d : Register}, i.defines = [d] → i.isCall = false →
      (∀ p ∈ scratch, d ≠ .physical p) ∧ d ≠ .physical .rbp := fun {d} hdef hcall => by
    refine ⟨fun p hp he => ?_, fun he => hi.2.1 (by simp [hdef, he])⟩
    have := (hi.2.2 p hp).2 (by simp [hdef, he])
    rw [hcall] at this
    cases this
  -- what is put into a slot has been written to its register
  have hput : ∀ {d : Register} {w : Word} {src : Operand}, slots.slot? d = some slot →
      i.defines = [d] → i.isCall = false → m.tick.write d w = n → Exec.load src m'.tick = .ok w m'.tick →
      ∃ n', Runs (fun _ => True) [.mov (.mem slot.operand) src] m' n' ∧ Backed slots scratch base [] n n' := by
    intro d w src hslot hdef hcall hn hsrc
    subst hn
    have hpending : Backed slots scratch base [d] (m.tick.write d w) m' :=
      { h with
        frame := h.frame, memory := h.memory
        reads := fun {r} hr => by
          rw [read_write, if_neg]
          · exact h.reads hr
          · rintro rfl
            have hnone := hr.1
            rw [hslot] at hnone
            cases hnone
        held := fun {r slot' w'} hr hslot' hw' => by
          rw [read_write, if_neg (by simpa using hr)] at hw'
          exact h.held (by simp) hslot' hw' }
    obtain ⟨n', hrun, hn', -⟩ := hpending.store hu hslot (by rw [read_write, if_pos rfl]) hsrc
    exact ⟨n', hrun, hn'⟩
  cases hd with
  | @load d r _ hd hr =>
    obtain ⟨w, m₁, e₁, e₂⟩ := EStateM.bind_eq_ok.1 e
    obtain ⟨rfl, hw⟩ := Exec.read_eq_ok.1 e₁
    have e₂ : m.tick.write d w = n := by cases e₂; rfl
    subst e₂
    obtain ⟨hscratch, hrbp⟩ := hwritten (d := d) rfl rfl
    refine ⟨m'.tick.write d w, .single ⟨rfl, rfl⟩ (safe_of_forall (fun _ => trivial) _ _) ?_, ?_⟩
    · have hload := Exec.load_mem (h.denotes hu hr)
      rw [show m'.tick.word (base + slot.offset) = w from h.held (by simp) hr hw] at hload
      exact Exec.execute_mov_reg hload
    · refine { h with
        memory := h.memory
        frame := by rw [read_write, if_neg (Ne.symm hrbp)]; exact h.frame
        reads := fun {r'} hr' => ?_
        held := fun {r' slot' w'} _ hslot' hw' => ?_ }
      · rw [read_write, read_write]
        split
        · rfl
        · exact h.reads hr'
      · rw [read_write, if_neg] at hw'
        · exact h.held (by simp) hslot' hw'
        · rintro rfl
          rw [hd] at hslot'
          cases hslot'
  | @store d r _ hd hr =>
    obtain ⟨w, m₁, e₁, e₂⟩ := EStateM.bind_eq_ok.1 e
    obtain ⟨rfl, hw⟩ := Exec.read_eq_ok.1 e₁
    have hstays : Stays slots scratch r :=
      ⟨hr, fun p hp he => (hi.2.2 p hp).1 (by simp [Instr.move, Instr.uses, Operand.registers, he])⟩
    exact hput (w := w) hd rfl rfl (by cases e₂; rfl) (Exec.load_reg ((h.reads hstays).trans hw))
  | @set d _ w hd => exact hput (w := w) hd rfl rfl (by cases e; rfl) Exec.load_imm

include hsafe

/-- An instruction between loads and stores. -/
theorem Backed.through (hreturned : m'.returned = m.returned)
    (hlabels : ∀ {l j}, m.labels.get? l = some j → ∃ j', m'.labels.get? l = some j')
    (hspilled : ∃ r ∈ i.mentions, ∃ slot, slots.slot? r = some slot)
    (hlen : (spilledIn slots i.registers).length ≤ scratch.length) :
    i.Straight ∧ ∃ n', Runs (fun _ => True)
      (transfers slots (places slots scratch i) .load i.uses ++
        [i.mapRegisters (placed (places slots scratch i))] ++
        transfers slots (places slots scratch i) .store i.defines) m' n' ∧
      Backed slots scratch base [] n n' := by
  obtain ⟨r₀, hr₀, slot₀, hslot₀⟩ := hspilled
  obtain ⟨hstraight, hcall, hchanges, hsteady⟩ := hi.1.of_virtual hr₀ (hu.virtual hslot₀)
  refine ⟨hstraight, ?_⟩
  have hinj : ∀ {r r' p}, (places slots scratch i).lookup r = some p →
      (places slots scratch i).lookup r' = some p → r = r' := fun hr hr' =>
    lookup_zip_injective hu.distinct hr hr'
  have hspot : ∀ {rs}, rs ⊆ i.mentions → ∀ r ∈ spilledIn slots rs, ∃ slot p,
      slots.slot? r = some slot ∧ (places slots scratch i).lookup r = some p ∧ p ∈ scratch := by
    intro rs hrs r hr
    obtain ⟨hmem, slot, hslot⟩ := mem_spilledIn.1 hr
    obtain ⟨p, hp⟩ := exists_place hlen (hrs hmem) hslot
    exact ⟨slot, p, hslot, hp, (spilled_of_place hp).2.2⟩
  have hstays : ∀ {r}, Stays slots scratch r → placed (places slots scratch i) r = r := fun {r} hr => by
    cases hp : (places slots scratch i).lookup r with
    | none => rw [placed, hp]; rfl
    | some p =>
      obtain ⟨-, ⟨slot, hslot⟩, -⟩ := spilled_of_place hp
      rw [hr.1] at hslot
      cases hslot
  -- the loads
  obtain ⟨m₁, hloads, h₁, hdone, -⟩ := h.loads hu hinj (hspot (List.subset_append_left i.uses i.defines))
  have hcontrol := hloads.control
  -- the instruction
  have huses : ∀ r ∈ i.uses, Passes r (m.read r) (m₁.read (placed (places slots scratch i) r)) := by
    intro r hr
    cases hslot : slots.slot? r with
    | none =>
      have hr' : Stays slots scratch r := ⟨hslot, fun p hp he => (hi.2.2 p hp).1 (he ▸ hr)⟩
      rw [hstays hr']
      exact Or.inl (h₁.reads hr').symm
    | some slot =>
      cases hw : m.read r with
      | error t => exact Or.inr ⟨hu.virtual hslot, t, rfl⟩
      | ok w => exact Or.inl (hdone r (mem_spilledIn.2 ⟨hr, slot, hslot⟩) w hw).symm
  have hfresh : ∀ {r}, Stays slots scratch r → r ∉ Exec.changes i → ∀ d ∈ Exec.changes i,
      placed (places slots scratch i) d ≠ r := by
    intro r hr hnot d hd hsame
    rw [hchanges] at hd
    rcases placed_cases hlen (List.mem_append_right _ hd) with ⟨-, e⟩ | ⟨slot, p, -, hp, -, e⟩
    · rw [e] at hsame
      exact hnot (hsame ▸ hchanges ▸ hd)
    · exact hr.2 p hp (hsame.symm.trans e)
  obtain ⟨n₁, e', -, -, hn, hwritten⟩ := h₁.execute (fun _ _ => True) hu hi
    (hcontrol.2.2.1.trans hreturned)
    (fun hj => (hlabels hj).imp fun _ hj' => ⟨hcontrol.2.1 ▸ hj', trivial⟩) trivial
    hstays (hsteady _) huses hfresh hsafe e
  rw [hchanges] at hn hwritten
  -- the stores
  obtain ⟨n', hstores, hn'⟩ := (hn.settle fun r hr slot hslot =>
    mem_spilledIn.2 ⟨hr, slot, hslot⟩).stores hu fun r hr => by
      obtain ⟨slot, p, hslot, hp, -⟩ := hspot (List.subset_append_right i.uses i.defines) r hr
      have hmem := (mem_spilledIn.1 hr).1
      obtain ⟨w, hw⟩ := Exec.readable_of_changes hi.1 (hchanges ▸ hmem) (hu.virtual hslot) e
      have hread := hwritten r hmem w hw
      rw [show placed (places slots scratch i) r = .physical p by simp [placed, hp]] at hread
      exact ⟨slot, p, w, hslot, hp, hw, hread⟩
  have hstraight' : (i.mapRegisters (placed (places slots scratch i))).Straight := by
    cases i <;> exact hstraight
  exact ⟨n', (hloads.append (.single hstraight' (safe_of_forall (fun _ => trivial) _ _) e')).append hstores, hn'⟩

end

/-! ## The expanded stream -/

theorem expanded_of_piece {items : Stream} {pieces : List Stream} {k : Nat} {code : List Instr}
    (h : List.Forall₂ (ExpandedItem slots scratch) items pieces) (hk : items[k]? = some (.instr i))
    (hpiece : pieces[k]? = some (code.map Item.instr)) : Expanded slots scratch i code := by
  induction h generalizing k with
  | nil => cases hk
  | @cons item piece _ _ hitem _ ih =>
    cases k with
    | succ k => exact ih hk hpiece
    | zero =>
      obtain rfl : item = .instr i := by simpa using hk
      obtain rfl : piece = code.map Item.instr := by simpa using hpiece
      generalize hcode : code.map Item.instr = piece at hitem
      cases hitem with
      | @instr _ code' h =>
        obtain rfl : code = code' := List.map_injective_iff.2 (fun _ _ e => Item.instr.inj e) hcode
        exact h
      | other hnone => cases hnone

theorem expands_of_expanded {items : Stream} {pieces : List Stream}
    (h : List.Forall₂ (ExpandedItem slots scratch) items pieces) :
    List.Forall₂ Stream.Expands items pieces :=
  h.imp fun _ _ hitem => by
    cases hitem with
    | instr h => exact .instr _ _
    | other h => exact .other h

/-- **The expanded stream tracks the stream**, which must not use the slots. -/
theorem tracks_spill {items : Stream} {pieces : List Stream} {near : Word → Prop}
    (hu : slots.Usable scratch) (hitems : ∀ i ∈ items.instructions, i.Spillable scratch)
    (hpieces : List.Forall₂ (ExpandedItem slots scratch) items pieces)
    (hnear : ∀ a, near a → ¬ Cell slots base a) :
    Tracks near (fun _ => True) pieces fun m m' => m.items = items ∧ Backed slots scratch base [] m m' where
  moves h := ⟨h.1, { h.2 with frame := h.2.frame, reads := h.2.reads, held := h.2.held, memory := h.2.memory }⟩
  skips _ _ h := ⟨h.1, { h.2 with frame := h.2.frame, reads := h.2.reads, held := h.2.held, memory := h.2.memory }⟩
  follows := by
    rintro m m' n i code hb hposition hret hk hpiece ⟨hsame, h⟩ hsafe e
    have hframe := (Step.frame ⟨hret, i, m.position,
      Stream.firstInstr_iff.2 ⟨.refl _ _, hk⟩, e⟩).1.trans hsame
    rw [hsame] at hk
    have hi := hitems i (List.mem_filterMap.2 ⟨_, List.mem_of_getElem? hk, rfl⟩)
    have hsafe : Safe (fun a => ¬ Cell slots base a) i m.tick := Exec.Near.mono hnear hsafe
    have hnext := Stream.start_succ hpiece
    have hcode : m'.items.At m'.position code := by
      rw [hb.items, hposition]; exact Stream.at_start hpiece
    -- code that is run through ends where the next piece starts
    have hstraight : i.Straight ∧ (∃ n', Runs (fun _ => True) code m' n' ∧ Backed slots scratch base [] n n') →
        ∃ n', SafeSteps (fun _ => True) m' n' ∧ n'.returned = n.returned ∧
          n'.position = Stream.start pieces n.position ∧ n.items = items ∧ Backed slots scratch base [] n n' := by
      rintro ⟨hi, n', hrun, hn⟩
      have hs := hi.sameControl e
      obtain ⟨-, -, hreturned, hpos⟩ := hrun.control
      refine ⟨n', hrun.safeSteps hcode (hb.returned.trans hret),
        hreturned.trans (hb.returned.trans hs.returned.symm), ?_, hframe, hn⟩
      rw [hpos, hposition, hs.position]
      exact (hnext.trans (by simp)).symm
    cases expanded_of_piece hpieces hk hpiece with
    | direct hd => exact hstraight (h.direct hu hi e hd)
    | through hspilled hlen =>
      exact hstraight (h.through hu hi hsafe e hb.returned (fun hj => ⟨_, hb.label hj⟩) hspilled hlen)
    | same hnone =>
      have hsteady : Exec.Steady id i := by
        cases i with
        | call l arguments clobbers => exact ⟨fun _ _ => rfl, fun _ _ => rfl, rfl⟩
        | _ => trivial
      obtain ⟨n', e', hreturned, hpos, hn, -⟩ := h.execute (f := id)
        (fun p p' => p' = Stream.start pieces p) hu hi hb.returned
        (fun hj => ⟨_, hb.label hj, rfl⟩) (by rw [hnext, hposition]; rfl) (fun _ => rfl) hsteady
        (fun r hr => Or.inl (h.reads ⟨hnone r (List.mem_append_left _ hr), fun p hp he =>
          (hi.2.2 p hp).1 (he ▸ hr)⟩).symm)
        (fun _ hnot d hd e => hnot (e ▸ hd)) hsafe e
      rw [Instr.mapRegisters_id] at e'
      refine ⟨n', .single hcode (hb.returned.trans hret) (safe_of_forall (fun _ => trivial) _ _) e', hreturned,
        hpos, hframe, hn.settle fun r hr slot hslot => ?_⟩
      -- what the instruction writes is not spilled
      have hr : r.isPhysical = true ∨ r ∈ i.mentions := by
        cases i with
        | call l arguments clobbers =>
          exact (List.mem_cons.1 hr).imp (by rintro rfl; rfl) (List.mem_append_right _)
        | _ => exact Or.inr (List.mem_append_right _ hr)
      rcases hr with hr | hr
      · rw [hu.virtual hslot] at hr; cases hr
      · rw [hnone r hr] at hslot; cases hslot

end Spiller

end Codegen
