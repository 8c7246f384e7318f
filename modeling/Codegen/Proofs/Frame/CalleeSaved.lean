/-
  Callee-saved registers in compiled functions.

  A function saves the callee-saved registers of its palette that are in use.  So a run
  that returns leaves a callee-saved register as it was, if the register is in the
  palette, or if neither the body nor spill code writes it
  (`compileFunction_preserves`).  The frame need not be known to be within reach: one that
  is not cannot be set up with physical registers only (`Frame.fits32_size_of_cover`).
-/
import Codegen.Proofs.Frame.Saved
import Codegen.Target.File

namespace Codegen

/-! ## Targets -/

namespace Target

/-- What can be said about a target, step by step. -/
inductive Choice.Made : Choice → Prop
  | start : Made {}
  | registers {c c' : Choice} {rs : List Physical} (hc : Made c) (h : c.withRegisters rs = .ok c') : Made c'
  | scratch {c c' : Choice} {rs : List Physical} (hc : Made c) (h : c.withScratch rs = .ok c') : Made c'
  | limit {c : Choice} (n : Int) (hc : Made c) : Made { c with limit := some n }

/-- A target that was chosen, or that a text describes. -/
def Built (t : Target) : Prop :=
  (∃ c : Choice, c.Made ∧ ∃ name, c.build name = t) ∨ ∃ text, parse text = .ok t

/-- All registers that were named may be handed out. -/
def Choice.Allocatable (c : Choice) : Prop := ∀ rs, c.registers = some rs → ∀ p ∈ rs, p.allocatable = true

theorem Choice.Made.allocatable {c : Choice} (h : c.Made) : c.Allocatable := by
  induction h with
  | start => intro rs h; cases h
  | @registers c c' rs hc h ih =>
    unfold withRegisters at h
    split at h
    · cases h
    · next hnone =>
      cases h
      intro rs' e p hp
      cases e
      simpa using List.find?_eq_none.1 hnone p hp
  | @scratch c c' rs hc h ih =>
    unfold withScratch at h
    split at h <;> cases h
    exact ih
  | limit n hc ih => exact ih

theorem Choice.Allocatable.build {c : Choice} (h : c.Allocatable) (name : String) :
    ∀ p ∈ (c.build name).palette, p.allocatable = true := by
  have hall : ∀ p ∈ c.registers.getD defaultPalette, p.allocatable = true := by
    cases hc : c.registers with
    | none => decide
    | some rs => exact h rs hc
  intro p hp
  simp only [Choice.build] at hp
  split at hp
  · split at hp
    · exact hall p (List.mem_of_mem_take hp)
    · exact hall p hp
  · exact hall p hp

theorem allocatable_palette {name : String} {names : List Text.Loose} {rs : List Physical}
    (h : File.palette name names = .ok rs) : ∀ p ∈ rs, p.allocatable = true := by
  obtain ⟨rs', -, h⟩ := Except.bind_eq_ok.1 h
  split at h
  · cases h
  · next hnone =>
    split at h
    · cases h
    · cases h
      exact fun p hp => by simpa using List.find?_eq_none.1 hnone p hp

/-- Only registers that may be handed out are. -/
theorem Built.allocatable {t : Target} (h : t.Built) : ∀ p ∈ t.palette, p.allocatable = true := by
  rcases h with ⟨c, hc, name, rfl⟩ | ⟨text, h⟩
  · exact hc.allocatable.build name
  · have hfile : ∀ {f : File}, ofFile f = .ok t → ∀ p ∈ t.palette, p.allocatable = true := by
      intro f h
      obtain ⟨registers, hregisters, h⟩ := Except.bind_eq_ok.1 h
      obtain ⟨scratch, -, h⟩ := Except.bind_eq_ok.1 h
      cases h
      refine Choice.Allocatable.build (fun rs e => ?_) _
      simp only at e
      cases hf : f.registers with
      | none => rw [hf] at hregisters; cases hregisters; cases e
      | some names =>
        rw [hf] at hregisters
        obtain ⟨rs', hrs', hregisters⟩ := Except.bind_eq_ok.1 hregisters
        cases hregisters
        cases e
        exact allocatable_palette hrs'
    unfold parse at h
    split at h
    · cases h
    · split at h
      · exact hfile h
      · cases h
      · cases h

end Target

/-! ## Frames out of reach -/

theorem Catalogue.coverStmts_append_eq_ok {c : Catalogue} {xs ys : List Stmt} {u u' : Supply} {code : List Instr}
    (h : c.coverStmts (xs ++ ys) u = .ok code u') :
    ∃ code₁ u₁ code₂, c.coverStmts xs u = .ok code₁ u₁ ∧ c.coverStmts ys u₁ = .ok code₂ u' ∧
      code = code₁ ++ code₂ := by
  obtain ⟨codes, u₂, hcodes, h⟩ := EStateM.bind_eq_ok.1 h
  cases h
  rw [List.mapM_append] at hcodes
  obtain ⟨cs, u₁, hcs, hcodes⟩ := EStateM.bind_eq_ok.1 hcodes
  obtain ⟨cs', u₂, hcs', hcodes⟩ := EStateM.bind_eq_ok.1 hcodes
  cases hcodes
  exact ⟨cs.flatten, u₁, cs'.flatten, EStateM.bind_eq_ok.2 ⟨cs, u₁, hcs, rfl⟩,
    EStateM.bind_eq_ok.2 ⟨cs', _, hcs', rfl⟩, List.flatten_append⟩

open Amd64 in
/-- A constant of more than 32 bits is subtracted from a register through a virtual one. -/
theorem exists_virtual_of_cover {w : Word} {p : Physical} {u u' : Supply} {code : List Instr}
    (hw : ¬ w.fits32 = true)
    (h : catalogue.coverStmts [.write p (.binary .sub (.read p) (.const w))] u = .ok code u') :
    ∃ i ∈ code, ∃ r ∈ i.mentions, r.isPhysical = false := by
  obtain ⟨t, ht⟩ := exists_tile (.write p (.binary .sub (.read p) (.const w)))
    (by simp [Stmt.values, Value.Declared, BinaryOp.declared])
  obtain ⟨hrule, hfound, hcover⟩ := Tile.covers_iff.1 (Catalogue.covers_of_tile? ht)
  have hmatch := (matches_of_apply hrule hfound).writeMatches
  obtain ⟨v, hleaf, hv, hgen⟩ : ∃ v, t.found.leaves = [v] ∧ (∀ r, v ≠ .read r) ∧
      ∀ r u, t.rule.generate { inputs := [r], found := t.found } u = .ok ([.move p r], none) u := by
    generalize t.rule = rule at hmatch ⊢
    generalize t.found = found at hmatch ⊢
    cases hmatch with
    | update _ hd => exact absurd hd hw
    | any => exact ⟨_, rfl, fun _ h => (by cases h), fun _ _ => rfl⟩
  have hvalues : Evaluable u.registers [] (Stmt.write p (.binary .sub (.read p) (.const w))).values :=
    ⟨by simp [Stmt.values, Value.Declared, BinaryOp.declared], by simp [Stmt.values, Value.reads], by simp,
      by simp [Stmt.values, Value.hasCall]⟩
  have hleaves : Evaluable u.registers [] t.found.leaves := hvalues.subtrees fun x hx =>
    (Pattern.leaves_subtree hfound x hx).resolve_left (by simp)
  obtain ⟨code', inputs, u₁, hemit, hall⟩ :=
    exists_emitLeaves t.rule.name t.leaves hcover hleaves (Nat.le_refl _)
  have hresults := hall.results
  rw [hleaf] at hresults
  obtain ⟨r, rs, hr, hnil, rfl⟩ := List.forall₂_cons_left_iff.1 hresults
  cases hnil
  -- the leaf is not a register, so its own is a new one
  obtain ⟨id, rfl, -⟩ := hr.resolve_left (hv r)
  have hone := Catalogue.coverStmt_eq_ok ht (Tile.emit_eq_ok hemit (hgen (.virtual id) u₁))
  have hcode : catalogue.coverStmts [.write p (.binary .sub (.read p) (.const w))] u =
      .ok (code' ++ [.move p (.virtual id)]) u₁ := by
    refine EStateM.bind_eq_ok.2 ⟨[code' ++ [.move p (.virtual id)]], u₁, ?_, by simp; rfl⟩
    rw [List.mapM_cons]
    exact EStateM.bind_eq_ok.2 ⟨_, _, hone, rfl⟩
  cases h.symm.trans hcode
  exact ⟨_, List.mem_append_right _ List.mem_cons_self, .virtual id,
    by simp [Instr.mentions, Instr.move, Instr.uses, Operand.registers], rfl⟩

namespace Frame

variable {f f' : Frame} {saved : List Saved} {u u' : Supply} {code : List Instr} {used : List Physical}

/-- **A frame that is set up with physical registers is within reach.** -/
theorem fits32_size_of_cover (hconv : f.convention = Amd64.convention)
    (h : Amd64.catalogue.coverStmts (f.prologue saved) u = .ok code u')
    (hphysical : ∀ i ∈ code, ∀ r ∈ i.mentions, r.isPhysical = true) (hslots : f.slots < 576460752303423488) :
    f.size.fits32 = true := by
  by_contra hwide
  have hsize := toInt_size_of_lt hslots
  have hpos : 0 < f.size := Int64.lt_iff_toInt_lt.2 (by
    rw [Word.fits32_iff] at hwide
    rw [show (0 : Int64).toInt = 0 from rfl]
    omega)
  unfold prologue at h
  simp only [hconv, if_pos hpos] at h
  obtain ⟨code₁, u₁, stores, hfront, -, rfl⟩ := Catalogue.coverStmts_append_eq_ok h
  obtain ⟨front, u₂, lower, -, hlower, rfl⟩ := Catalogue.coverStmts_append_eq_ok hfront
  obtain ⟨i, hi, r, hr, hvirtual⟩ := exists_virtual_of_cover hwide hlower
  rw [hphysical i (List.mem_append_left _ (List.mem_append_right _ hi)) r hr] at hvirtual
  cases hvirtual

/-! ## What is saved -/

theorem registers_save (f : Frame) (used : List Physical) :
    (f.save used).1.map Saved.register = f.convention.calleeSaved.filter used.contains := by
  simp only [save, List.map_map]
  exact List.zipIdx_map_fst 0 _

theorem nodup_registers_save (hconv : f.convention = Amd64.convention) (used : List Physical) :
    ((f.save used).1.map Saved.register).Nodup := by
  rw [registers_save, hconv]
  exact List.Nodup.filter _ (by decide)

theorem mem_save_iff {p : Physical} :
    (∃ s ∈ (f.save used).1, s.register = p) ↔ p ∈ f.convention.calleeSaved ∧ p ∈ used := by
  rw [← List.mem_map, registers_save, List.mem_filter, List.contains_iff_mem]

theorem nodup_offsets_save (hslots : (f.save used).2.slots < 268435456) :
    ((f.save used).1.map fun s => s.slot.offset).Nodup := by
  have hmap : ((f.save used).1.map fun s => s.slot.offset) =
      (List.range' 0 (f.convention.calleeSaved.filter used.contains).length).map
        fun k => (f.slot (f.slots + 1 + k)).offset := by
    rw [← List.zipIdx_map_snd 0 (f.convention.calleeSaved.filter used.contains)]
    simp only [save, List.map_map]
    rfl
  rw [hmap]
  refine List.Nodup.map_on (fun k hk k' hk' h => ?_) List.nodup_range'
  rw [List.mem_range'_1] at hk hk'
  simp only [save, reserve] at hslots
  have := slot_injective (f := f) (by omega) (by omega) h
  omega

/-- The slots that a frame has already are apart from those of the registers saved in it. -/
theorem offset_ne_of_mem_save {k : Nat} {s : Saved} (hk : k ≤ f.slots) (hs : s ∈ (f.save used).1)
    (hslots : (f.save used).2.slots < 268435456) : (f.slot k).offset ≠ s.slot.offset := by
  obtain ⟨-, k', hk', hle, e⟩ := mem_save hs
  rw [e]
  intro h
  have := slot_injective (by omega) (by omega) h
  omega

end Frame

/-! ## Compiled bodies -/

namespace Backend

variable {b : Backend} {f f' : Frame} {items allocated : Stream} {live : Liveness.Result} {u u' : Supply}
  {mapping : Allocation} {spilled : List Register}

/-- A slot is taken for every register that is spilled. -/
theorem Assigns.slots (h : Assigns b items live f u allocated mapping spilled f' u') :
    f'.slots = f.slots + spilled.length := by
  cases h with
  | all => rfl
  | rest _ hspill =>
    obtain ⟨pieces, u₁, -, h⟩ := EStateM.bind_eq_ok.1 hspill
    obtain ⟨done, u₂, -, h⟩ := EStateM.bind_eq_ok.1 h
    cases h
    change (Spiller.allocateSlots (b.reduced live).unassigned f).2.slots = _
    rw [Spiller.allocateSlots_eq]
    rfl

theorem labels_of_assigns (h : Assigns b items live f u allocated mapping spilled f' u') :
    allocated.filterMap Item.label? = items.filterMap Item.label? := by
  cases h with
  | all => rfl
  | rest hfull hspill =>
    obtain ⟨pieces, rfl, hpieces⟩ := Spiller.expands_of_spill hspill
    exact Stream.labels_flatten hpieces

/-- **What a compiled body does not change**: registers of the palette that are not in
    use, and others that are neither written by the body nor needed for spill code. -/
theorem not_mem_changes_of_compile {body : Flow} {s s' : Session} {res : Compiled}
    (hcat : b.catalogue = Amd64.catalogue) (hbody : body.Known s.supply.registers)
    (h : b.compile body f s = .ok (res, f') s') (hlabels : (res.physical.filterMap Item.label?).Nodup)
    {q : Physical} (hcalls : .physical q ∉ Amd64.callerSaved)
    (hq : q ∈ b.target.palette ∧ q ∉ res.mapping.used b.target.palette ∨
      q ∉ b.target.palette ∧ (res.spilled = [] ∨ q ∉ b.target.scratch) ∧ ¬ body.Writes (.physical q)) :
    ∀ i ∈ res.physical.instructions, .physical q ∉ Exec.changes i := by
  obtain ⟨g, items, u, live, hg, hlayout, hlive, hassigns, hitems⟩ := compile_eq_ok h
  rw [hcat] at hlayout
  have hknown : g.Known s.supply.registers := hbody.compress hg
  obtain ⟨pieces, labels, rfl, harranged, -⟩ :=
    Layout.arranged_of_layout (Amd64.steady_coverer hknown) (Nat.le_refl _) hlayout
  rw [Compiled.physical, hitems, Allocation.labels_apply_dropNoops, labels_of_assigns hassigns] at hlabels
  have hassembled := harranged.assembled hknown (Nat.le_refl _) hlabels
  intro i hi
  rw [Compiled.physical, hitems] at hi
  obtain ⟨i₀, hi₀, rfl⟩ := Allocation.mem_instructions_apply hi
  rcases hq with ⟨hpalette, hunused⟩ | ⟨hpalette, hscratch, hwrites⟩
  · exact (spared_of_unused hcat hassembled hlive hassigns hpalette hunused i₀ hi₀).not_mem_changes
  · have havoids : Avoids q (Layout.stream pieces) := fun i hi d hd => by
      rcases harranged.mem_defines hknown (Nat.le_refl _) hi hd with hd | hd | hd
      · exact Or.inl hd
      · exact Or.inr fun e => hcalls (e ▸ hd)
      · exact Or.inr fun e => hwrites (e ▸ hd.of_compress hg)
    exact (spared_of_assigns hcat hassembled hlive hassigns havoids hpalette hscratch i₀ hi₀).not_mem_changes

end Backend

/-! ## Compiled functions -/

namespace Compiler

variable {c : Compiler} {fn : Function} {f : Frame} {s s' : Session} {out : CompiledFunction}

/-- **A compiled function is its compiled body between frame code**, and its frame is within
    reach. -/
theorem wrapping_of_compileFunction (hcat : c.backend.catalogue = Amd64.catalogue) (hframe : fn.frame = some f)
    (hconv : f.convention = Amd64.convention) (hbody : fn.body.Known s.supply.registers)
    (hcompile : c.compileFunction fn s = .ok out s') (hslots : out.frame.slots < 576460752303423488) :
    ∃ res f' s₁ body, c.backend.compile fn.body.enterThrough f s = .ok (res, f') s₁ ∧
      res.physical = Stream.front f.label ++ body ∧
      out.items = Wrapping.items ⟨f.label, out.frame, out.saved, body⟩ ∧
      (out.saved, out.frame) = f'.save (res.mapping.used c.backend.target.palette) ∧
      out.spilled = res.spilled ∧ f'.slots = f.slots + res.spilled.length ∧ f'.convention = f.convention ∧
      out.frame.slots < 268435456 ∧ ((res.physical.filterMap Item.label?).Nodup → body.Closed) := by
  obtain ⟨f₀, res, f', s₁, prologue, epilogue, u₁, u₂, u₃, u₄, hframe₀, hrun, hsave, hspilled, hprologue,
    hphysical, hepilogue, hitems⟩ := compileFunction_eq_ok hcompile
  cases hframe.symm.trans hframe₀
  obtain ⟨g, items, u, live, -, -, -, hassigns, -⟩ := Backend.compile_eq_ok hrun
  obtain ⟨hlabel, hconv'⟩ := hassigns.frame
  obtain ⟨body, hrest, hclosed⟩ := Backend.body_of_compile hcat hbody hrun
  have hsaved : out.saved = (f'.save (res.mapping.used c.backend.target.palette)).1 := congrArg Prod.fst hsave
  have hout : out.frame = (f'.save (res.mapping.used c.backend.target.palette)).2 := congrArg Prod.snd hsave
  have houtlabel : out.frame.label = f.label := by rw [hout, ← hlabel]; rfl
  have houtconv : out.frame.convention = Amd64.convention := by rw [hout]; exact hconv'.trans hconv
  -- the code that sets up the frame is known to be physical, so the frame is within reach
  rw [hcat] at hprologue hepilogue
  have hsize : out.frame.size.fits32 = true := Frame.fits32_size_of_cover houtconv hprologue hphysical hslots
  have hreach : out.frame.slots < 268435456 := by
    have hbytes := Frame.toInt_size_of_lt hslots
    rw [Word.fits32_iff] at hsize
    omega
  have hfits : ∀ s ∈ out.saved, s.slot.reach.fits32 = true := fun s hs =>
    Frame.reach_save (hout ▸ hreach) (hsaved ▸ hs)
  cases hprologue.symm.trans (Frame.cover_prologue houtconv hfits hsize u₁)
  cases hepilogue.symm.trans (Frame.cover_epilogue houtconv hfits u₃)
  rw [hrest, houtlabel, assemble_front] at hitems
  exact ⟨res, f', s₁, body, hrun, hrest, hitems, hsave, hspilled, hassigns.slots, hconv', hreach,
    fun hnodup => (hclosed hnodup).1⟩

/-- **Callee-saved registers are preserved**, if they are in the palette or are written
    neither by the body nor by spill code.  The body must leave the slots of saved
    registers alone; the moves to and from the slots of spilled registers do. -/
theorem compileFunction_preserves (hcat : c.backend.catalogue = Amd64.catalogue)
    (htarget : c.backend.target.Built)
    (hscratch : .rsp ∉ c.backend.target.scratch ∧ .rbp ∉ c.backend.target.scratch)
    (hframe : fn.frame = some f) (hconv : f.convention = Amd64.convention)
    (hbody : fn.body.Known s.supply.registers)
    (hwrites : ¬ fn.body.Writes (.physical .rsp) ∧ ¬ fn.body.Writes (.physical .rbp))
    (hcompile : c.compileFunction fn s = .ok out s') (hslots : out.frame.slots < 2 ^ 59) :
    ∃ res f' s₁ body, c.backend.compile fn.body.enterThrough f s = .ok (res, f') s₁ ∧
      res.physical = Stream.front f.label ++ body ∧
      let w : Wrapping := ⟨f.label, out.frame, out.saved, body⟩
      out.items = w.items ∧ ∀ (m n : Machine) (x : Word) (limit : Int), m.items = out.items → m.labels = [] →
        m.position = 0 → m.returned = false → m.read (.physical .rsp) = .ok x →
        w.LeavesSaved (fun slot => ∃ k, f.slots < k ∧ k ≤ f.slots + out.spilled.length ∧ slot = f.slot k) x m →
        m.run limit = (none, n) →
        ∀ p ∈ Amd64.convention.calleeSaved,
          (p ∈ c.backend.target.palette ∨
            (out.spilled = [] ∨ p ∉ c.backend.target.scratch) ∧ ¬ fn.body.Writes (.physical p)) →
          n.read p = m.read p := by
  obtain ⟨res, f', s₁, body, hrun, hrest, hitems, hsave, hspilled, hcount, hconv', hreach, hclosed⟩ :=
    wrapping_of_compileFunction hcat hframe hconv hbody hcompile hslots
  refine ⟨res, f', s₁, body, hrun, hrest, hitems,
    fun m n x limit hm hlabels hposition hret hx hleaves hn p hp hpreserved => ?_⟩
  have hsaved : out.saved = (f'.save (res.mapping.used c.backend.target.palette)).1 := congrArg Prod.fst hsave
  have hout : out.frame = (f'.save (res.mapping.used c.backend.target.palette)).2 := congrArg Prod.snd hsave
  have hconvF : f'.convention = Amd64.convention := hconv'.trans hconv
  have hm : m.items = Wrapping.items ⟨f.label, out.frame, out.saved, body⟩ := hm.trans hitems
  have hnodup : (res.physical.filterMap Item.label?).Nodup := hrest ▸ Wrapping.nodup_of_run hm hn
  have hunchanged : ∀ q : Physical, .physical q ∉ Amd64.callerSaved →
      (q ∈ c.backend.target.palette ∧ q ∉ res.mapping.used c.backend.target.palette ∨
        q ∉ c.backend.target.palette ∧ (out.spilled = [] ∨ q ∉ c.backend.target.scratch) ∧
          ¬ fn.body.Writes (.physical q)) →
      ∀ i ∈ body.instructions, .physical q ∉ Exec.changes i := fun q hcalls hq i hi => by
    rw [hspilled] at hq
    exact Backend.not_mem_changes_of_compile hcat hbody.enterThrough hrun hnodup hcalls
      (hq.imp_right fun h => ⟨h.1, h.2.1, fun hw => h.2.2 hw.of_enterThrough⟩) i
      (hrest ▸ Stream.mem_instructions_append.2 (Or.inr hi))
  have hpointer : ∀ q : Physical, q.allocatable = false → q ∉ c.backend.target.palette := fun q hq hmem => by
    rw [htarget.allocatable q hmem] at hq; cases hq
  refine Wrapping.restored_of_run (w := ⟨f.label, out.frame, out.saved, body⟩)
    ⟨hclosed hnodup, fun i hi => ⟨?_, ?_⟩, ?_, Frame.size_eq_zero hreach⟩ ?_ ?_ ?_ hm hlabels hposition hret hx
    hleaves hn ?_ ?_ ?_
  · exact hunchanged .rsp (by decide) (Or.inr ⟨hpointer .rsp rfl, Or.inr hscratch.1, hwrites.1⟩) i hi
  · exact hunchanged .rbp (by decide) (Or.inr ⟨hpointer .rbp rfl, Or.inr hscratch.2, hwrites.2⟩) i hi
  · exact hsaved ▸ Frame.saves_save hconvF (hout ▸ hreach)
  · exact hsaved ▸ Frame.nodup_offsets_save (hout ▸ hreach)
  · exact hsaved ▸ Frame.nodup_registers_save hconvF _
  · -- the slots of spilled registers come before those of saved ones
    rintro slot ⟨k, -, hk, rfl⟩
    have hslot : f.slot k = f'.slot k := by rw [Frame.slot, Frame.slot, hconv']
    refine ⟨by rw [Frame.slot, hconv]; rfl, fun s hs => ?_⟩
    rw [hslot]
    exact Frame.offset_ne_of_mem_save (hcount ▸ hspilled ▸ hk) (hsaved ▸ hs) (hout ▸ hreach)
  · exact (by decide : ∀ p ∈ Amd64.convention.calleeSaved, p ≠ .rsp) p hp
  · exact (by decide : ∀ p ∈ Amd64.convention.calleeSaved, p ≠ .rbp) p hp
  · by_cases hused : p ∈ res.mapping.used c.backend.target.palette
    · exact Or.inl (hsaved ▸ Frame.mem_save_iff.2 ⟨hconvF ▸ hp, hused⟩)
    · refine Or.inr (hunchanged p ((by decide : ∀ p ∈ Amd64.convention.calleeSaved,
        Register.physical p ∉ Amd64.callerSaved) p hp) ?_)
      by_cases hpalette : p ∈ c.backend.target.palette
      · exact Or.inl ⟨hpalette, hused⟩
      · exact Or.inr ⟨hpalette, hpreserved.resolve_left hpalette⟩

/-- The counting function keeps its bound in a callee-saved register, and restores it. -/
theorem compileFunction_preserves_counting : ∃ out s' n,
    compileFunction ⟨"D", .default "B" none⟩ ⟨"f", some ⟨"f", Amd64.convention, 0⟩, countingBody⟩
        { supply := ⟨0, 0⟩ } = .ok out s' ∧
      .instr (.mov (.reg (.physical .rbx)) (.imm 3)) ∈ out.items ∧
      ((Machine.start out.items []).write (.physical .rbx) 99).run 100 = (none, n) ∧
      n.read (.physical .rbx) = .ok 99 := by
  obtain ⟨res, s₁, hrun, -, hphysical⟩ := compile_counting
  obtain ⟨out, s', hout, hsaved, hframe⟩ := compileFunction_counting
  obtain ⟨res', f', s₂, body, hrun', hphysical', hitems, hpreserves⟩ :=
    @compileFunction_preserves ⟨"D", .default "B" none⟩ ⟨"f", some ⟨"f", Amd64.convention, 0⟩, countingBody⟩
      ⟨"f", Amd64.convention, 0⟩ _ _ _ rfl (Or.inl ⟨{}, .start, _, rfl⟩) (by decide) rfl rfl known_countingBody
      ⟨fun h => (by cases writes_countingBody h), fun h => (by cases writes_countingBody h)⟩ hout
      (by rw [hframe]; decide)
  cases hrun.symm.trans hrun'
  obtain rfl : body = counting.body := List.append_cancel_left (hphysical'.symm.trans hphysical)
  rw [hsaved, hframe] at hitems hpreserves
  change out.items = counting.items at hitems
  have hreturns : ∃ n, ((Machine.start counting.items []).write (.physical .rbx) 99).run 100 = (none, n) := by
    have h : (((Machine.start counting.items []).write (.physical .rbx) 99).run 100).1.isNone = true := by
      decide +kernel
    exact ⟨_, Prod.ext (Option.isNone_iff_eq_none.1 h) rfl⟩
  obtain ⟨n, hn⟩ := hreturns
  rw [← hitems] at hn
  refine ⟨out, s', n, hout, by rw [hitems]; decide +kernel, hn,
    (hpreserves _ n Machine.stackBase 100 rfl rfl rfl rfl rfl (fun j i q a b h hq => Or.inr ?_) hn .rbx (by decide)
      (Or.inl (by decide))).trans rfl⟩
  -- the body accesses no memory
  obtain ⟨hmem, -⟩ := hq.mem_of_executes (m := (Machine.start out.items []).write (.physical .rbx) 99) hitems rfl h
  have hnone : i.memories = [] := (by decide : ∀ i ∈ counting.body.instructions, i.memories = []) i hmem
  unfold Machine.Safe
  rw [hnone]
  trivial

end Compiler

end Codegen
