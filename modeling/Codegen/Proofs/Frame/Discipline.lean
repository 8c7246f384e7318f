/-
  The stack discipline of compiled functions.

  A function that is compiled gets frame code over physical registers around its body,
  and in every run that returns, the prologue is executed once and first, the pointers
  stay where it put them while the body is executed, and have their old values at the
  return (`compileFunction_disciplined`).
-/
import Codegen.Proofs.Frame.Run

namespace Codegen

/-! ## The parts of a compiled function -/

namespace Compiler

variable {entry : Label} {rest : Stream} {prologue epilogue : List Instr}

theorem assemble_front : assemble (Stream.front entry ++ rest) entry prologue epilogue =
    Stream.front entry ++ (prologue.map Item.instr ++ withEpilogue epilogue rest) := by
  unfold Stream.front
  split
  · next hnone =>
    rw [List.nil_append, List.nil_append]
    unfold assemble
    split
    · rw [if_neg fun h => h.1 hnone]
    · rfl
  · next hne =>
    simp [assemble, hne]

theorem labels_withEpilogue (epilogue : List Instr) (items : Stream) :
    (withEpilogue epilogue items).filterMap Item.label? = items.filterMap Item.label? := by
  induction items with
  | nil => rfl
  | cons item items ih =>
    have hmap : ∀ code : List Instr, (code.map Item.instr).filterMap Item.label? = [] := fun code => by
      simp [List.filterMap_map, Function.comp_def, Item.label?]
    have hother : withEpilogue epilogue (item :: items) = item :: withEpilogue epilogue items →
        (withEpilogue epilogue (item :: items)).filterMap Item.label? =
          (item :: items).filterMap Item.label? := fun e => by
      rw [e, List.filterMap_cons, List.filterMap_cons, ih]
    cases item with
    | label l => exact hother rfl
    | stray r => exact hother rfl
    | instr i =>
      by_cases hret : ∃ rs, i = .ret rs
      · obtain ⟨rs, rfl⟩ := hret
        rw [withEpilogue_cons_ret, List.filterMap_append, hmap, ih]
        rfl
      · exact hother (withEpilogue_cons_instr fun rs e => hret ⟨rs, e⟩)

theorem physicalOnly_eq_ok {code : List Instr} (h : ∀ i ∈ code, ∀ r ∈ i.mentions, r.isPhysical = true) :
    physicalOnly code = .ok code := by
  have hnone : code.findSome? (fun i => (i.registers.find? fun r => !r.isPhysical).map (i, ·)) = none := by
    refine List.findSome?_eq_none_iff.2 fun i hi => ?_
    rw [Option.map_eq_none_iff, List.find?_eq_none]
    intro r hr
    rw [h i hi r (Spiller.mem_registers.1 hr)]
    decide
  unfold physicalOnly
  rw [hnone]

theorem of_physicalOnly {code code' : List Instr} (h : physicalOnly code = .ok code') :
    code = code' ∧ ∀ i ∈ code, ∀ r ∈ i.mentions, r.isPhysical = true := by
  unfold physicalOnly at h
  split at h
  · cases h
  · next hnone =>
    cases h
    refine ⟨rfl, fun i hi r hr => ?_⟩
    have := Option.map_eq_none_iff.1 (List.findSome?_eq_none_iff.1 hnone i hi)
    simpa using List.find?_eq_none.1 this r (Spiller.mem_registers.2 hr)

end Compiler

namespace Frame

variable {f : Frame} {used : List Physical} {s : Saved}

theorem slots_save (hconv : f.convention = Amd64.convention) (used : List Physical) :
    (f.save used).2.slots ≤ f.slots + 5 := by
  have hle := List.length_filter_le used.contains Amd64.convention.calleeSaved
  simp only [save, reserve, hconv]
  exact Nat.add_le_add_left hle _

/-- What is saved is a register that a callee must keep, in one of the new slots. -/
theorem mem_save (hs : s ∈ (f.save used).1) : s.register ∈ f.convention.calleeSaved ∧
    ∃ k, f.slots < k ∧ k ≤ (f.save used).2.slots ∧ s.slot = f.slot k := by
  simp only [save] at hs ⊢
  obtain ⟨⟨r, k⟩, hmem, rfl⟩ := List.mem_map.1 hs
  obtain ⟨-, hk, hr⟩ := List.mem_zipIdx hmem
  refine ⟨(List.mem_filter.1 (hr ▸ List.getElem_mem _)).1, f.slots + 1 + k, by omega, ?_, rfl⟩
  simp only [reserve]
  omega

/-- Registers that are saved within reach can be saved. -/
theorem saves_save (hconv : f.convention = Amd64.convention) (hslots : (f.save used).2.slots < 268435456) :
    Saves (f.save used).1 where
  slots s hs := by
    obtain ⟨-, k, hk, hle, e⟩ := mem_save hs
    rw [e]
    refine ⟨by rw [slot, hconv]; rfl, fun hzero => ?_⟩
    have hoffset := toInt_offset_slot (f := f) (k := k) (by omega)
    rw [hzero, show (0 : Int64).toInt = 0 from rfl] at hoffset
    omega
  registers s hs := by
    have hmem := (mem_save hs).1
    rw [hconv] at hmem
    exact (by decide : ∀ p ∈ Amd64.convention.calleeSaved, p ≠ .rsp ∧ p ≠ .rbp) _ hmem

theorem reach_save (hslots : (f.save used).2.slots < 268435456) (hs : s ∈ (f.save used).1) :
    s.slot.reach.fits32 = true := by
  obtain ⟨-, k, -, hle, e⟩ := mem_save hs
  rw [e]
  exact fits32_reach (by omega)

end Frame

/-- Compilation keeps the label and the convention of a frame. -/
theorem Backend.Assigns.frame {b : Backend} {items allocated : Stream} {live : Liveness.Result}
    {f f' : Frame} {u u' : Supply} {mapping : Allocation} {spilled : List Register}
    (h : Assigns b items live f u allocated mapping spilled f' u') :
    f'.label = f.label ∧ f'.convention = f.convention := by
  cases h with
  | all => exact ⟨rfl, rfl⟩
  | rest _ hspill =>
    obtain ⟨pieces, u₁, -, h⟩ := EStateM.bind_eq_ok.1 hspill
    obtain ⟨done, u₂, -, h⟩ := EStateM.bind_eq_ok.1 h
    cases h
    change (Spiller.allocateSlots (b.reduced live).unassigned f).2.label = _ ∧
      (Spiller.allocateSlots (b.reduced live).unassigned f).2.convention = _
    rw [Spiller.allocateSlots_eq]
    exact ⟨rfl, rfl⟩

/-! ## The discipline -/

namespace Wrapping

open Machine

/-- What stands at a position of the body is an instruction of it. -/
theorem BodyAt.mem {w : Wrapping} {q : Nat} {i : Instr} (h : w.BodyAt q)
    (hi : w.items[q]? = some (.instr i)) : i ∈ w.body.instructions ∧ ∀ rs, i ≠ .ret rs := by
  obtain ⟨xs, i', ys, hbody, hnot, rfl⟩ := h
  rw [← Nat.add_zero (w.after xs), ← List.getElem?_drop, drop_after hbody,
    Compiler.withEpilogue_cons_instr hnot] at hi
  cases hi
  exact ⟨Stream.instr_mem_iff.1 (by rw [hbody]; simp), hnot⟩

theorem BodyAt.mem_of_executes {w : Wrapping} {m a b : Machine} {j q : Nat} {i : Instr} (hq : w.BodyAt q)
    (hitems : m.items = w.items) (hlabels : m.labels = []) (h : m.Executes j i q a b) :
    i ∈ w.body.instructions ∧ ∀ rs, i ≠ .ret rs := by
  obtain ⟨⟨m₁, hdefine, hs⟩, -, hnext, -⟩ := h
  obtain ⟨L, rfl, -⟩ := Exec.placed_of_forM hlabels hdefine
  have hat := (Stream.firstInstr_iff.1 hnext).2
  rw [hs.items_eq.trans hitems] at hat
  exact hq.mem hat

/-- What the frame code of a function does for a run from `m` to `n` that was entered with
    the stack pointer at `x`. -/
structure Disciplined (w : Wrapping) (x : Word) (m n : Machine) : Prop where
  /-- The prologue is executed, and before anything else. -/
  first : ∀ {j i q a b}, m.Executes j i q a b → j < w.prologue.length →
    w.prologue[j]? = some i ∧ q = w.top + j
  /-- It is not executed again. -/
  once : ∀ {j i q a b}, m.Executes j i q a b → w.prologue.length ≤ j → w.top + w.prologue.length ≤ q
  passed : m.steps + w.prologue.length < n.steps
  /-- The pointers in the body. -/
  frame : ∀ {j i q a b}, m.Executes j i q a b → w.BodyAt q → a.read (.physical .rbp) = .ok (x - 8)
  stack : ∀ {j i q a b}, m.Executes j i q a b → w.BodyAt q →
    a.read (.physical .rsp) = .ok (x - 8 - w.frame.size)
  /-- The slots are between the pointers. -/
  slots : ∀ {k}, 1 ≤ k → k ≤ w.frame.slots → (w.frame.slot k).framePointer = .rbp ∧
    (x - 8 - w.frame.size).toInt ≤ (x - 8 + (w.frame.slot k).offset).toInt ∧
    (x - 8 + (w.frame.slot k).offset).toInt + 8 ≤ (x - 8).toInt
  /-- The pointers at the return. -/
  restored : n.read (.physical .rsp) = .ok x ∧ n.read (.physical .rbp) = m.read (.physical .rbp)

variable {w : Wrapping} {x : Word} {m n : Machine} {limit : Int}

theorem nodup_of_run (hitems : m.items = w.items)
    (hrun : m.run limit = (none, n)) :
    ((Stream.front w.entry ++ w.body).filterMap Item.label?).Nodup := by
  obtain ⟨m₁, hdefine, -⟩ := Exec.run_eq_ok.1 (run_eq_none.1 hrun)
  have hnodup := (Exec.forM_define_iff.1 ⟨m₁, hdefine⟩).1
  rw [hitems, items, List.filterMap_append, List.filterMap_append, Compiler.labels_withEpilogue] at hnodup
  rw [List.filterMap_append]
  simpa [List.filterMap_map, Function.comp_def, Item.label?] using hnodup

/-- **Runs of a body with its frame code keep the discipline.** -/
theorem disciplined_of_run (hw : w.Sound) (hconv : w.frame.convention = Amd64.convention)
    (hslots : w.frame.slots < 268435456) (hitems : m.items = w.items) (hlabels : m.labels = [])
    (hposition : m.position = 0) (hret : m.returned = false) (hx : m.read (.physical .rsp) = .ok x)
    (hwrap : -9223372036854775808 ≤ x.toInt - 8 - w.frame.size.toInt)
    (hstores : ∀ j i q a b, m.Executes j i q a b → w.BodyAt q → b.word (x - 8) = a.word (x - 8))
    (hrun : m.run limit = (none, n)) : w.Disciplined x m n := by
  -- in the body, the frame is set up, and an instruction there keeps it as it is
  let inside (n : Machine) : Prop := ∃ b, m.read (.physical .rbp) = .ok b ∧ n.Framed w.frame.size x b
  have hkeep : ∀ j i q a b, m.Executes j i q a b → w.BodyAt q → inside a → inside b := by
    rintro j i q a b h hq ⟨c, hc, hframed⟩
    obtain ⟨hrsp, hrbp⟩ := hw.quiet i (hq.mem_of_executes hitems hlabels h).1
    have hreads := (Exec.control_execute h.execute).2
    exact ⟨c, hc, hframed.of_eq (hreads _ hrsp) (hreads _ hrbp) (hstores j i q a b h hq)⟩
  obtain ⟨L, k, hend, hn, hsteps, hphase⟩ := @phase_of_run w inside m n limit hw.closed
    (fun _ => ⟨fun h => h.enter hw.saves hw.size hx, fun ⟨b, hb, h⟩ => ⟨b, hb, h.of_eq rfl rfl rfl⟩⟩)
    hitems hlabels hposition hret hkeep hrun
  have hnext : ∀ {j i q a b}, m.Executes j i q a b →
      (j < w.prologue.length → w.prologue[j]? = some i ∧ q = w.top + j) ∧
        (w.prologue.length ≤ j → w.top + w.prologue.length ≤ q) ∧ (w.BodyAt q → inside a) := fun h =>
    (hphase h).1.next (hphase h).2 h.running h.next
  cases hend with
  | returned hj _ hinside hruns hreads =>
    obtain ⟨b, hb, hframed⟩ := hinside
    obtain ⟨hstack, hframe⟩ := hruns.leave hw.saves hframed
    exact {
      first := fun h => (hnext h).1
      once := fun h => (hnext h).2.1
      passed := by rw [hsteps]; exact Nat.add_lt_add_left hj _
      frame := fun h hq => by obtain ⟨c, -, hc⟩ := (hnext h).2.2 hq; exact hc.frame
      stack := fun h hq => by obtain ⟨c, -, hc⟩ := (hnext h).2.2 hq; exact hc.stack
      slots := fun hk hle => ⟨by rw [Frame.slot, hconv]; rfl, Frame.slot_within hslots hk hle hwrap⟩
      restored := ⟨(hreads _).trans hstack, ((hreads _).trans hframe).trans hb.symm⟩ }
  | entering _ _ _ _ h | inside _ _ _ h | leaving _ _ _ _ _ h => rw [hn] at h; cases h

end Wrapping

/-! ## Compiled functions -/

namespace Compiler

variable {c : Compiler} {fn : Function} {f f' : Frame} {s s₁ : Session} {res : Compiled}

/-- What a function is compiled to: the stream of its body between frame code. -/
theorem compileFunction_eq_ok {out : CompiledFunction} {s' : Session} (h : c.compileFunction fn s = .ok out s') :
    ∃ f body f' s₁ prologue epilogue u₁ u₂ u₃ u₄, fn.frame = some f ∧
      c.backend.compile fn.body.enterThrough f s = .ok (body, f') s₁ ∧
      (out.saved, out.frame) = f'.save (body.mapping.used c.backend.target.palette) ∧
      out.spilled = body.spilled ∧
      c.backend.catalogue.coverStmts (out.frame.prologue out.saved) u₁ = .ok prologue u₂ ∧
      (∀ i ∈ prologue, ∀ r ∈ i.mentions, r.isPhysical = true) ∧
      c.backend.catalogue.coverStmts (out.frame.epilogue out.saved) u₃ = .ok epilogue u₄ ∧
      out.items = assemble body.physical out.frame.label prologue epilogue := by
  unfold compileFunction at h
  cases hframe : fn.frame with
  | none => rw [hframe] at h; cases h
  | some f =>
    rw [hframe] at h
    obtain ⟨⟨body, f'⟩, s₁, hbody, h⟩ := EStateM.bind_eq_ok.1 h
    obtain ⟨prologue, s₂, hprologue, h⟩ := EStateM.bind_eq_ok.1 h
    obtain ⟨epilogue, s₃, hepilogue, h⟩ := EStateM.bind_eq_ok.1 h
    obtain ⟨⟨⟩, s₄, -, h⟩ := EStateM.bind_eq_ok.1 h
    cases h
    obtain ⟨code, s₅, hcover, hcode⟩ := EStateM.bind_eq_ok.1 hprologue
    obtain ⟨u, hcover, -⟩ := Build.fresh_eq_ok.1 hcover
    obtain ⟨code', s₆, hcover', hcode'⟩ := EStateM.bind_eq_ok.1 hepilogue
    obtain ⟨u', hcover', -⟩ := Build.fresh_eq_ok.1 hcover'
    obtain ⟨rfl, hphysical⟩ := of_physicalOnly (Build.ofExcept_eq_ok.1 hcode).1
    obtain ⟨rfl, -⟩ := of_physicalOnly (Build.ofExcept_eq_ok.1 hcode').1
    exact ⟨f, body, f', s₁, code, code', _, _, _, _, rfl, hbody, rfl, rfl, hcover, hphysical, hcover', rfl⟩

/-- A function is compiled if its body is; its frame code draws nothing. -/
theorem exists_compileFunction (hcat : c.backend.catalogue = Amd64.catalogue) (hframe : fn.frame = some f)
    (hconv : f'.convention = Amd64.convention) (hslots : f'.slots < 134217728)
    (hcompile : c.backend.compile fn.body.enterThrough f s = .ok (res, f') s₁) :
    ∃ out s', c.compileFunction fn s = .ok out s' ∧
      (out.saved, out.frame) = f'.save (res.mapping.used c.backend.target.palette) ∧
      out.items = assemble res.physical out.frame.label (out.frame.enterCode out.saved)
        (Frame.leaveCode out.saved) ∧
      Amd64.catalogue.coverStmts (out.frame.prologue out.saved) s₁.supply =
        .ok (out.frame.enterCode out.saved) s₁.supply ∧
      Amd64.catalogue.coverStmts (out.frame.epilogue out.saved) s₁.supply =
        .ok (Frame.leaveCode out.saved) s₁.supply := by
  obtain ⟨⟨saved, frame⟩, hsave⟩ : ∃ p, f'.save (res.mapping.used c.backend.target.palette) = p := ⟨_, rfl⟩
  have hfive := Frame.slots_save hconv (res.mapping.used c.backend.target.palette)
  have hreach : ∀ s ∈ (f'.save (res.mapping.used c.backend.target.palette)).1,
      s.slot.reach.fits32 = true := fun s hs => Frame.reach_save (by omega) hs
  have hframe' : (f'.save (res.mapping.used c.backend.target.palette)).2.convention = Amd64.convention :=
    hconv
  simp only [hsave] at hfive hreach hframe'
  have hprologue := Frame.cover_prologue hframe' hreach (Frame.fits32_size (by omega))
    s₁.supply
  have hepilogue := Frame.cover_epilogue hframe' hreach s₁.supply
  have hcover : ∀ {ops code}, Amd64.catalogue.coverStmts ops s₁.supply = .ok code s₁.supply →
      (∀ i ∈ code, ∀ r ∈ i.mentions, r.isPhysical = true) →
      (Build.fresh (c.backend.catalogue.coverStmts ops) >>= fun code =>
        Build.ofExcept (physicalOnly code)) s₁ = .ok code s₁ := fun h hphysical => by
    rw [hcat]
    exact EStateM.bind_eq_ok.2 ⟨_, s₁, Build.fresh_eq_ok.2 ⟨_, h, rfl⟩,
      Build.ofExcept_eq_ok.2 ⟨physicalOnly_eq_ok hphysical, rfl⟩⟩
  have hrun : ∃ s', c.compileFunction fn s = .ok ⟨fn.name, assemble res.physical frame.label
      (frame.enterCode saved) (Frame.leaveCode saved), res.mapping, saved, res.spilled, frame⟩ s' := by
    unfold compileFunction
    rw [hframe]
    refine Exists.imp (fun _ h => EStateM.bind_eq_ok.2 ⟨(res, f'), s₁, hcompile, h⟩) ?_
    simp only [hsave]
    exact ⟨_, EStateM.bind_eq_ok.2 ⟨_, s₁, hcover hprologue fun i hi r => Frame.physical_enterCode hi,
      EStateM.bind_eq_ok.2 ⟨_, s₁, hcover hepilogue fun i hi r => Frame.physical_leaveCode hi,
        EStateM.bind_eq_ok.2 ⟨(), _, rfl, rfl⟩⟩⟩⟩
  obtain ⟨s', hrun⟩ := hrun
  exact ⟨_, s', hrun, hsave.symm, rfl, hprologue, hepilogue⟩

/-- **Frame code keeps the stack discipline**, if no instruction of the body changes the
    word that holds the caller's frame pointer. -/
theorem compileFunction_disciplined (hcat : c.backend.catalogue = Amd64.catalogue)
    (hframe : fn.frame = some f) (hconv : f.convention = Amd64.convention)
    (hbody : fn.body.Known s.supply.registers)
    (hwrites : ¬ fn.body.Writes (.physical .rsp) ∧ ¬ fn.body.Writes (.physical .rbp))
    (htarget : ∀ p ∈ c.backend.target.palette ++ c.backend.target.scratch, p ≠ .rsp ∧ p ≠ .rbp)
    (hcompile : c.backend.compile fn.body.enterThrough f s = .ok (res, f') s₁)
    (hslots : f'.slots < 2 ^ 27) :
    ∃ out s' body, c.compileFunction fn s = .ok out s' ∧
      (out.saved, out.frame) = f'.save (res.mapping.used c.backend.target.palette) ∧
      res.physical = Stream.front f.label ++ body ∧
      let w : Wrapping := ⟨f.label, out.frame, out.saved, body⟩
      Amd64.catalogue.coverStmts (out.frame.prologue out.saved) s₁.supply = .ok w.prologue s₁.supply ∧
      Amd64.catalogue.coverStmts (out.frame.epilogue out.saved) s₁.supply = .ok w.epilogue s₁.supply ∧
      (∀ i ∈ w.prologue ++ w.epilogue, ∀ r ∈ i.mentions, r.isPhysical = true) ∧
      out.items = w.items ∧ out.frame.size.toInt % 16 = 0 ∧
      ∀ (m n : Machine) (x : Word) (limit : Int), m.items = out.items → m.labels = [] → m.position = 0 →
        m.returned = false → m.read (.physical .rsp) = .ok x →
        -9223372036854775808 ≤ x.toInt - 8 - out.frame.size.toInt →
        (∀ j i q a b, m.Executes j i q a b → w.BodyAt q → b.word (x - 8) = a.word (x - 8)) →
        m.run limit = (none, n) → w.Disciplined x m n := by
  obtain ⟨g, items, u, live, -, -, -, hassigns, -⟩ := Backend.compile_eq_ok hcompile
  obtain ⟨hlabel, hconv'⟩ := hassigns.frame
  rw [hconv] at hconv'
  obtain ⟨rest, hphysical, hrest⟩ := Backend.body_of_compile hcat hbody hcompile
  obtain ⟨out, s', hrun, hsave, hitems, hprologue, hepilogue⟩ :=
    exists_compileFunction hcat hframe hconv' hslots hcompile
  have hsaved : out.saved = (f'.save (res.mapping.used c.backend.target.palette)).1 :=
    congrArg Prod.fst hsave
  have hframe' : out.frame = (f'.save (res.mapping.used c.backend.target.palette)).2 :=
    congrArg Prod.snd hsave
  have hfive := Frame.slots_save hconv' (res.mapping.used c.backend.target.palette)
  rw [← hframe'] at hfive
  have hcount : out.frame.slots < 268435456 := by omega
  have houtlabel : out.frame.label = f.label := by rw [hframe', ← hlabel]; rfl
  have houtconv : out.frame.convention = Amd64.convention := by rw [hframe', ← hconv']; rfl
  rw [hphysical, houtlabel, assemble_front] at hitems
  refine ⟨out, s', rest, hrun, hsave, hphysical, hprologue, hepilogue, fun i hi r hr => ?_, hitems, ?_, ?_⟩
  · exact (List.mem_append.1 hi).elim (fun hi => Frame.physical_enterCode hi hr)
      fun hi => Frame.physical_leaveCode hi hr
  · rw [Frame.toInt_size hcount]
    omega
  · intro m n x limit hm hlabels hposition hret hx hwrap hstores hn
    have hm : m.items = Wrapping.items ⟨f.label, out.frame, out.saved, rest⟩ := hm.trans hitems
    -- no label stands twice in a stream that can be run
    obtain ⟨hclosed, hspared⟩ := hrest (hphysical ▸ Wrapping.nodup_of_run hm hn)
    have hkept : ∀ q : Physical, .physical q ∉ Amd64.callerSaved → (q = .rsp ∨ q = .rbp) →
        ¬ fn.body.Writes (.physical q) → ∀ i ∈ rest.instructions, .physical q ∉ Exec.changes i := by
      intro q hcalls hq hwrite
      have hfree : q ∉ c.backend.target.palette ++ c.backend.target.scratch := fun h =>
        hq.elim (htarget q h).1 (htarget q h).2
      exact hspared q hcalls (fun h => hfree (List.mem_append_left _ h))
        (fun h => hfree (List.mem_append_right _ h)) hwrite
    refine Wrapping.disciplined_of_run ⟨hclosed, fun i hi => ⟨?_, ?_⟩, ?_, ?_⟩ houtconv hcount hm hlabels
      hposition hret hx hwrap hstores hn
    · exact hkept .rsp (by decide) (Or.inl rfl) hwrites.1 i hi
    · exact hkept .rbp (by decide) (Or.inr rfl) hwrites.2 i hi
    · exact hsaved ▸ Frame.saves_save hconv' (hframe' ▸ hcount)
    · exact Frame.size_eq_zero hcount

end Compiler

/-! ## A body that starts with a loop -/

namespace Compiler

/-- Counts to three in a loop, and returns. -/
def countingBody : Flow where
  size := 3
  blocks := #v[.straight [.write (.physical .rax) (.binary .add (.read (.physical .rax)) (.const 1))] (some 1),
    .branch (.binary .lt (.read (.physical .rax)) (.const 3)) (some 0) (some 2),
    .straight [.ret true] none]
  root := some 0

/-- Its code, with a register for the bound. -/
def countingCode (r : Register) : Stream :=
  [.instr (.jmp ".L1"), .label ".L1", .instr (.binary "add" (.reg (.physical .rax)) (.imm 1)),
    .instr (.jmp ".L2"), .label ".L2", .instr (.mov (.reg r) (.imm 3)),
    .instr (.binary "cmp" (.reg (.physical .rax)) (.reg r)), .instr (.jcc "l" ".L1"), .instr (.jmp ".L3"),
    .label ".L3", .instr (.ret [.physical .rax])]

/-- Where its registers live. -/
def countingPlaces : Allocation := ⟨[(.physical .rax, .rax), (.virtual 1, .rbx)], []⟩

/-- The function with its frame: the bound lives in a register that is saved. -/
def counting : Wrapping :=
  ⟨"f", ⟨"f", Amd64.convention, 1⟩, [⟨.rbx, ⟨.rbp, -8⟩⟩], countingCode (.physical .rbx)⟩

theorem known_countingBody : countingBody.Known 0 := by
  constructor
  · intro (i : Fin 3) body next hi op hop
    match i with
    | 0 =>
      cases hi
      cases List.mem_singleton.1 hop
      refine ⟨fun v hv r hr => ?_, fun r v e => ?_⟩
      · cases List.mem_singleton.1 hv
        cases List.mem_singleton.1 hr
        exact Register.known_physical _ _
      · cases e
        exact Register.known_physical _ _
    | 1 => cases hi
    | 2 =>
      cases hi
      cases List.mem_singleton.1 hop
      exact ⟨fun _ hv => (by cases hv), fun _ _ e => (by cases e)⟩
  · intro (i : Fin 3) cond t f hi r hr
    match i with
    | 0 => cases hi
    | 1 =>
      cases hi
      cases List.mem_singleton.1 hr
      exact Register.known_physical _ _
    | 2 => cases hi

theorem writes_countingBody {r : Register} (h : countingBody.Writes r) : r = .physical .rax := by
  obtain ⟨i, body, next, hi, op, hop, v, rfl⟩ := h
  change Fin 3 at i
  match i with
  | 0 => cases hi; cases List.mem_singleton.1 hop; rfl
  | 1 => cases hi
  | 2 => cases hi; cases List.mem_singleton.1 hop

theorem color_counting : ∃ live, Liveness.analyze (.label "f" :: countingCode (.virtual 1)) = .ok live ∧
    (Backend.default "B" none).full live = countingPlaces := ⟨_, rfl, by decide +kernel⟩

theorem physical_counting :
    countingPlaces.apply (countingPlaces.dropNoops (.label "f" :: countingCode (.virtual 1))) =
      Stream.front "f" ++ counting.body := by decide +kernel

theorem save_counting : Frame.save ⟨"f", Amd64.convention, 0⟩
    (countingPlaces.used Target.defaultPalette) = (counting.saved, counting.frame) := by decide +kernel

/-- Its body is compiled. -/
theorem compile_counting : ∃ res s₁,
    (Backend.default "B" none).compile countingBody.enterThrough ⟨"f", Amd64.convention, 0⟩ { supply := ⟨0, 0⟩ } =
      .ok (res, ⟨"f", Amd64.convention, 0⟩) s₁ ∧
    res.mapping = countingPlaces ∧ res.physical = Stream.front "f" ++ counting.body := by
  obtain ⟨live, hlive, hfull⟩ := color_counting
  have hcompress : countingBody.enterThrough.compress = .ok countingBody.enterThrough := by cbv
  have hlayout : countingBody.enterThrough.layout Amd64.catalogue.coverer "f" ⟨0, 0⟩ =
      .ok (.label "f" :: countingCode (.virtual 1)) ⟨1, 3⟩ := by cbv
  obtain ⟨s₁, hcompile, -⟩ := Backend.exists_compile (b := .default "B" none)
    (f := ⟨"f", Amd64.convention, 0⟩) (s := { supply := ⟨0, 0⟩ }) hcompress hlayout
    (by simp [countingCode]) hlive (.all (by rw [hfull]; rfl))
  refine ⟨_, s₁, hcompile, hfull, ?_⟩
  simp only [Compiled.physical, hfull]
  exact physical_counting

/-- It is compiled. -/
theorem compileFunction_counting : ∃ out s',
    compileFunction ⟨"D", .default "B" none⟩ ⟨"f", some ⟨"f", Amd64.convention, 0⟩, countingBody⟩
        { supply := ⟨0, 0⟩ } = .ok out s' ∧ out.saved = counting.saved ∧ out.frame = counting.frame := by
  obtain ⟨res, s₁, hcompile, hmapping, -⟩ := compile_counting
  obtain ⟨out, s', hout, hsave, -⟩ := @exists_compileFunction ⟨"D", .default "B" none⟩
    ⟨"f", some ⟨"f", Amd64.convention, 0⟩, countingBody⟩ _ _ _ _ _ rfl rfl rfl (by decide) hcompile
  rw [hmapping] at hsave
  exact ⟨out, s', hout, Prod.mk.inj (hsave.trans save_counting)⟩

/-- The function returns. -/
theorem run_counting : ∃ n, (Machine.start counting.items []).run 100 = (none, n) := by
  have h : ((Machine.start counting.items []).run 100).1.isNone = true := by decide +kernel
  exact ⟨_, Prod.ext (Option.isNone_iff_eq_none.1 h) rfl⟩

theorem memories_counting {i : Instr} (hi : i ∈ counting.body.instructions) : i.memories = [] := by
  have h : ∀ i ∈ counting.body.instructions, i.memories = [] := by decide
  exact h i hi

theorem compileFunction_disciplined_counting : ∃ out s' n,
    compileFunction ⟨"D", .default "B" none⟩ ⟨"f", some ⟨"f", Amd64.convention, 0⟩, countingBody⟩
        { supply := ⟨0, 0⟩ } = .ok out s' ∧
      out.items = counting.items ∧ (Machine.start out.items []).run 100 = (none, n) ∧
      counting.Disciplined Machine.stackBase (Machine.start out.items []) n := by
  obtain ⟨res, s₁, hcompile, hmapping, hphysical₁⟩ := compile_counting
  obtain ⟨out, s', body, hrun, hsave, hphysical, -, -, -, hitems, -, hdisciplined⟩ :=
    @compileFunction_disciplined ⟨"D", .default "B" none⟩
      ⟨"f", some ⟨"f", Amd64.convention, 0⟩, countingBody⟩ _ ⟨"f", Amd64.convention, 0⟩ _ _ _ rfl rfl rfl
      known_countingBody
      ⟨fun h => (by cases writes_countingBody h), fun h => (by cases writes_countingBody h)⟩ (by decide)
      hcompile (by decide)
  rw [hmapping] at hsave
  obtain ⟨hsaved, hframe⟩ := Prod.mk.inj (hsave.trans save_counting)
  obtain rfl : body = counting.body := List.append_cancel_left (hphysical.symm.trans hphysical₁)
  rw [hsaved, hframe] at hitems hdisciplined
  change out.items = counting.items at hitems
  obtain ⟨n, hn⟩ := run_counting
  rw [← hitems] at hn
  refine ⟨out, s', n, hrun, hitems, hn, hdisciplined _ n Machine.stackBase 100 rfl rfl rfl rfl rfl (by decide)
    (fun j i q a b h hq => ?_) hn⟩
  obtain ⟨⟨m₁, hdefine, hs⟩, -, hnext, e⟩ := h
  obtain ⟨L, rfl, -⟩ := Exec.placed_of_forM rfl hdefine
  have hat := (Stream.firstInstr_iff.1 hnext).2
  rw [hs.items_eq.trans hitems] at hat
  obtain ⟨hmem, -⟩ := hq.mem hat
  rw [Machine.word, Exec.memory_execute (memories_counting hmem) e]
  rfl

end Compiler

end Codegen
