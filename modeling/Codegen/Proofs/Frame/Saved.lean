/-
  Registers that a frame saves.

  An instruction leaves the words alone that it does not access (`Exec.word_execute`).  So
  what the prologue stores lies in its slots until the epilogue loads it, and registers
  that are saved, or that the body does not change, are at the return what they were at
  the entry (`Wrapping.restored_of_run`).
-/
import Codegen.Proofs.Frame.Discipline

namespace Codegen

/-! ## Memory that is left alone -/

/-- A machine beside itself, with memory as it was but for near addresses. -/
def Setting.fixing (near : Word → Prop) (memory₀ : Bindings Word Word) : Setting where
  rename := id
  near := near
  memory x y := y = x ∧ ∀ a, ¬ near a → x.get? a = memory₀.get? a
  place := Eq
  get h _ := by rw [h.1]
  set {_ _ a} w h ha := ⟨by rw [h.1], fun a' hna => by
    have hne : a' ≠ a := fun e => hna (e ▸ ha)
    rw [Bindings.get?_set_ne _ _ hne]
    exact h.2 a' hna⟩

/-- **An instruction leaves the words alone that it does not access.** -/
theorem Exec.word_execute {near : Word → Prop} {i : Instr} {m n : Machine} (hsafe : Machine.Safe near i m)
    (e : execute i m = .ok () n) {a : Word} (ha : ¬ near a) : n.word a = m.word a := by
  have hsteady : Steady id i := by cases i <;> simp [Steady]
  have hself : Agree (Setting.fixing near m.memory) (fun _ => True) i.memories m m :=
    { hooks := rfl, globals := rfl, compared := rfl, returned := rfl, position := rfl, safe := hsafe
      labels := fun h => ⟨_, h, rfl⟩
      memory := ⟨rfl, fun _ _ => rfl⟩
      reads := fun _ => Passes.refl _ _ }
  have hothers : ∀ r, True → r ∉ changes i → True ∧ ∀ d ∈ changes i, id r = id d → i.copy? = some (d, r) :=
    fun r _ hr => ⟨trivial, fun d hd e => absurd (show r = d from e) fun e => hr (e ▸ hd)⟩
  obtain ⟨n', -, h⟩ := simulates_execute hsteady (fun _ _ => trivial) hothers hself e
  rw [Machine.word, Machine.word, h.memory.2 a ha]

/-! ## Saving and restoring -/

namespace Machine

variable {near : Word → Prop} {m n : Machine} {size x b : Word} {f : Frame} {saved : List Saved}

/-- Where a register is saved. -/
def savedAt (x : Word) (s : Saved) : Word := x - 8 + s.slot.offset

theorem savedAt_inj {s s' : Saved} (h : savedAt x s = savedAt x s') : s.slot.offset = s'.slot.offset := by
  simpa [savedAt] using h

/-- The registers are saved, each in its slot. -/
theorem Framed.word_of_stores (hm : m.Framed size x b) (hsaves : Frame.Saves saved)
    (hslots : (saved.map fun s => s.slot.offset).Nodup)
    (h : Runs near (saved.map fun s => (Access.store s.register).instr s.slot) m n) :
    (∀ s ∈ saved, m.read s.register = .ok (n.word (savedAt x s))) ∧
      ∀ a, (∀ s ∈ saved, a ≠ savedAt x s) → n.word a = m.word a := by
  induction saved generalizing m b with
  | nil => cases h; exact ⟨List.forall_mem_nil _, fun _ _ => rfl⟩
  | cons s saved ih =>
    obtain ⟨hfresh, hslots⟩ := List.nodup_cons.1 hslots
    cases h with
    | @cons _ _ _ m₂ _ _ _ e h =>
      obtain ⟨w, hread, rfl⟩ := hm.execute_store (hsaves.slots s List.mem_cons_self).1 e
      obtain ⟨hrest, hother⟩ := ih (m := m.tick.store (savedAt x s) w) (b := _)
        ⟨hm.stack, hm.frame, rfl⟩ hsaves.tail hslots h
      refine ⟨fun s' hs' => ?_, fun a ha => ?_⟩
      · rcases List.mem_cons.1 hs' with rfl | hs'
        · have hne : ∀ s ∈ saved, savedAt x s' ≠ savedAt x s := fun s hs e =>
            hfresh (List.mem_map.2 ⟨s, hs, (savedAt_inj e).symm⟩)
          rw [hother _ hne, word_store, if_pos rfl, hread]
        · exact hrest s' hs'
      · rw [hother a fun s' hs' => ha s' (List.mem_cons_of_mem _ hs'), word_store,
          if_neg (ha s List.mem_cons_self), word_tick]

/-- The registers are restored from their slots. -/
theorem Framed.read_of_loads (hm : m.Framed size x b) (hsaves : Frame.Saves saved)
    (hregisters : (saved.map Saved.register).Nodup)
    (h : Runs near (saved.map fun s => (Access.load s.register).instr s.slot) m n) :
    ∀ s ∈ saved, n.read s.register = .ok (m.word (savedAt x s)) := by
  induction saved generalizing m with
  | nil => exact List.forall_mem_nil _
  | cons s saved ih =>
    obtain ⟨hfresh, hregisters⟩ := List.nodup_cons.1 hregisters
    cases h with
    | @cons _ _ _ m₂ _ hi hsafe e h =>
      obtain ⟨hrsp, hrbp⟩ := hsaves.registers s List.mem_cons_self
      obtain rfl := hm.execute_load (hsaves.slots s List.mem_cons_self).1 e
      refine List.forall_mem_cons.2 ⟨?_, ih (m := m.tick.write s.register _) (hm.of_eq ?_ ?_ rfl) hsaves.tail
        hregisters h⟩
      · -- the registers that are restored afterwards are others
        rw [h.read_eq fun i hi => ?_, read_write, if_pos rfl]
        · rfl
        · obtain ⟨s', hs', rfl⟩ := List.mem_map.1 hi
          intro hmem
          have hsame := Register.physical.inj (List.mem_singleton.1 hmem)
          exact hfresh (hsame ▸ List.mem_map_of_mem hs')
      · rw [read_write, if_neg fun e => hrsp (Register.physical.inj e).symm, read_tick]
      · rw [read_write, if_neg fun e => hrbp (Register.physical.inj e).symm, read_tick]

/-- A register other than the pointers is not changed by a prologue. -/
theorem Runs.read_enter (h : Runs near (f.enterCode saved) m n) {p : Physical} (hsp : p ≠ .rsp)
    (hfp : p ≠ .rbp) : n.read p = m.read p := by
  refine h.read_eq fun i hi hp => ?_
  have hregister : ∀ {q : Physical}, (.physical p : Register) ∈ [Register.physical q] → p = q := fun h =>
    Register.physical.inj (List.mem_singleton.1 h)
  simp only [Frame.enterCode, List.mem_append, List.mem_cons, List.not_mem_nil, or_false, List.mem_map] at hi
  rcases hi with ((rfl | rfl | rfl) | hi) | ⟨s, -, rfl⟩
  · exact hsp (hregister hp)
  · cases hp
  · exact hfp (hregister hp)
  · split at hi
    · cases List.mem_singleton.1 hi
      exact hsp (hregister hp)
    · cases hi
  · cases hp

/-- What registers hold after an epilogue. -/
theorem Runs.read_leave (h : Runs near (Frame.leaveCode saved) m n) (hm : m.Framed size x b)
    (hsaves : Frame.Saves saved) (hregisters : (saved.map Saved.register).Nodup) :
    (∀ s ∈ saved, n.read s.register = .ok (m.word (savedAt x s))) ∧
      ∀ p : Physical, p ≠ .rsp → p ≠ .rbp → (∀ s ∈ saved, p ≠ s.register) → n.read p = m.read p := by
  obtain ⟨m₁, hloads, h⟩ := h.of_append
  have hrest : ∀ p : Physical, p ≠ .rsp → p ≠ .rbp → n.read p = m₁.read p := by
    intro p hsp hfp
    refine h.read_eq fun i hi hp => ?_
    have hregister : ∀ {q : Physical}, (.physical p : Register) ∈ [Register.physical q] → p = q := fun h =>
      Register.physical.inj (List.mem_singleton.1 h)
    simp only [List.mem_cons, List.not_mem_nil, or_false] at hi
    rcases hi with rfl | rfl | rfl
    · exact hsp (hregister hp)
    · exact hfp (hregister hp)
    · exact hsp (hregister hp)
  refine ⟨fun s hs => ?_, fun p hsp hfp hp => ?_⟩
  · obtain ⟨hsp, hfp⟩ := hsaves.registers s hs
    rw [hrest _ hsp hfp]
    exact hm.read_of_loads hsaves hregisters hloads s hs
  · rw [hrest p hsp hfp]
    refine hloads.read_eq fun i hi hmem => ?_
    obtain ⟨s, hs, rfl⟩ := List.mem_map.1 hi
    exact hp s hs (Register.physical.inj (List.mem_singleton.1 hmem))

/-- **Entering a function** sets the frame up and saves registers. -/
theorem Runs.saves (h : Runs near (f.enterCode saved) m n) (hsaves : Frame.Saves saved)
    (hslots : (saved.map fun s => s.slot.offset).Nodup) (hsize : ¬ 0 < f.size → f.size = 0)
    (hx : m.read (.physical .rsp) = .ok x) :
    (∃ b, n.Framed f.size x b) ∧ ∀ s ∈ saved, m.read s.register = .ok (n.word (savedAt x s)) := by
  obtain ⟨b, -, hframed⟩ := h.enter hsaves hsize hx
  obtain ⟨m₁, hfirst, hstores⟩ := h.of_append
  have hfirst' : Runs near (f.enterCode []) m m₁ := by simpa [Frame.enterCode] using hfirst
  obtain ⟨b₁, -, hframed₁⟩ := hfirst'.enter ⟨List.forall_mem_nil _, List.forall_mem_nil _⟩ hsize hx
  refine ⟨⟨b, hframed⟩, fun s hs => ?_⟩
  obtain ⟨hsp, hfp⟩ := hsaves.registers s hs
  rw [← hfirst'.read_enter hsp hfp]
  exact (hframed₁.word_of_stores hsaves hslots hstores).1 s hs

end Machine

/-! ## Runs -/

namespace Wrapping

open Machine

variable {w : Wrapping} {x : Word} {m n : Machine} {limit : Int} {spills : Slot → Prop}

/-- The frame is set up, registers lie in the slots where they were saved, and others are
    as they were. -/
structure Holds (w : Wrapping) (kept : Physical → Prop) (x : Word) (m n : Machine) : Prop where
  framed : ∃ b, n.Framed w.frame.size x b
  saved : ∀ s ∈ w.saved, m.read s.register = .ok (n.word (savedAt x s))
  others : ∀ p, kept p → n.read p = m.read p

/-- The instructions of the body that the run from `m` executes do not access the saved
    registers, unless they move something into or out of the slot of a spilled register. -/
def LeavesSaved (w : Wrapping) (spills : Slot → Prop) (x : Word) (m : Machine) : Prop :=
  ∀ j i q a b, m.Executes j i q a b → w.BodyAt q →
    (∃ slot access, spills slot ∧ i = Access.instr slot access) ∨
      Safe (fun y => ∀ s ∈ w.saved, y ≠ savedAt x s) i (a.fetch q)

/-- An instruction of the body leaves things as they are. -/
theorem Holds.step {kept : Physical → Prop} {i : Instr} {j q : Nat} {a b : Machine}
    (hw : w.Sound) (hitems : m.items = w.items) (hlabels : m.labels = [])
    (hspills : ∀ slot, spills slot → slot.framePointer = .rbp ∧ ∀ s ∈ w.saved, slot.offset ≠ s.slot.offset)
    (hkept : ∀ p, kept p → ∀ i ∈ w.body.instructions, .physical p ∉ Exec.changes i)
    (hleaves : w.LeavesSaved spills x m) (h : m.Executes j i q a b) (hq : w.BodyAt q)
    (ha : w.Holds kept x m a) : w.Holds kept x m b := by
  obtain ⟨hmem, -⟩ := hq.mem_of_executes hitems hlabels h
  obtain ⟨hrsp, hrbp⟩ := hw.quiet i hmem
  have hreads := (Exec.control_execute h.execute).2
  obtain ⟨c, hframed⟩ := ha.framed
  have hsafe : Safe (fun y => ∀ s ∈ w.saved, y ≠ savedAt x s) i (a.fetch q) := by
    refine (hleaves j i q a b h hq).elim ?_ id
    rintro ⟨slot, access, hslot, rfl⟩
    -- the slot of a spilled register is another one
    obtain ⟨hfp, hne⟩ := hspills slot hslot
    refine safe_of_denotes fun o ho => ⟨x - 8 + slot.offset, ?_, fun s hs e => hne s hs (by simpa [savedAt] using e)⟩
    obtain rfl : o = slot.operand := by cases access <;> exact List.mem_singleton.1 ho
    unfold Slot.operand
    rw [hfp]
    exact denotes_base _ hframed.frame
  have hwords : ∀ s ∈ w.saved, b.word (savedAt x s) = a.word (savedAt x s) := fun s hs =>
    Exec.word_execute hsafe h.execute fun hnear => hnear s hs rfl
  refine ⟨⟨_, (hreads _ hrsp).trans hframed.stack, (hreads _ hrbp).trans hframed.frame, rfl⟩,
    fun s hs => by rw [hwords s hs]; exact ha.saved s hs, fun p hp => ?_⟩
  exact (hreads _ (hkept p hp i hmem)).trans (ha.others p hp)

/-- **A run that returns restores registers**: those that are saved, and those that the
    body does not change. -/
theorem restored_of_run (hw : w.Sound) (hslots : (w.saved.map fun s => s.slot.offset).Nodup)
    (hregisters : (w.saved.map Saved.register).Nodup)
    (hspills : ∀ slot, spills slot → slot.framePointer = .rbp ∧ ∀ s ∈ w.saved, slot.offset ≠ s.slot.offset)
    (hitems : m.items = w.items) (hlabels : m.labels = [])
    (hposition : m.position = 0) (hret : m.returned = false) (hx : m.read (.physical .rsp) = .ok x)
    (hleaves : w.LeavesSaved spills x m) (hrun : m.run limit = (none, n)) {p : Physical} (hsp : p ≠ .rsp)
    (hfp : p ≠ .rbp) (hp : (∃ s ∈ w.saved, s.register = p) ∨
      ∀ i ∈ w.body.instructions, .physical p ∉ Exec.changes i) : n.read p = m.read p := by
  let kept (p : Physical) : Prop :=
    (p ≠ .rsp ∧ p ≠ .rbp) ∧ ∀ i ∈ w.body.instructions, .physical p ∉ Exec.changes i
  have hestablished : ∀ L, w.Established (w.Holds kept x m) { m with labels := L, position := w.top } := by
    refine fun L => ⟨fun h => ?_, fun h => ?_⟩
    · obtain ⟨hframed, hsaved⟩ := h.saves hw.saves hslots hw.size hx
      exact ⟨hframed, hsaved, fun p hp => h.read_enter hp.1.1 hp.1.2⟩
    · exact ⟨h.framed.imp fun _ h => h.of_eq rfl rfl rfl, h.saved, h.others⟩
  obtain ⟨L, k, hend, hn, -, -⟩ := phase_of_run hw.closed hestablished hitems hlabels hposition hret
    (fun j i q a b h hq ha => ha.step hw hitems hlabels hspills (fun p hp => hp.2) hleaves h hq) hrun
  cases hend with
  | returned _ _ hinside hruns hreads =>
    obtain ⟨b, hframed⟩ := hinside.framed
    obtain ⟨hsaved, hothers⟩ := hruns.read_leave hframed hw.saves hregisters
    rw [hreads]
    by_cases hmem : ∃ s ∈ w.saved, s.register = p
    · obtain ⟨s, hs, rfl⟩ := hmem
      rw [hsaved s hs, hinside.saved s hs]
    · rw [hothers p hsp hfp fun s hs e => hmem ⟨s, hs, e.symm⟩]
      exact hinside.others p ⟨⟨hsp, hfp⟩, hp.resolve_left hmem⟩
  | entering _ _ _ _ h | inside _ _ _ h | leaving _ _ _ _ _ h => rw [hn] at h; cases h

end Wrapping

end Codegen
