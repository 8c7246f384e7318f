/-
  Compilation up to names.

  Every pass of a compilation commutes with renamings that leave alone what the body
  mentions.  A compilation that starts from another supply therefore has the same outcome,
  with other names for the virtual registers and labels that were drawn on the way
  (`Backend.compile_alike`).
-/
import Codegen.Proofs.Backend.Lint
import Codegen.Proofs.Frame.Discipline
import Codegen.Proofs.Renaming.Coloring
import Codegen.Proofs.Renaming.Layout
import Codegen.Proofs.Renaming.Spill
import Codegen.Proofs.Renaming.Supply

namespace Codegen

theorem Flow.Within.enterThrough {R : Register → Prop} {L : Label → Prop} {g : Flow} (h : g.Within R L) :
    g.enterThrough.Within R L where
  operations := Flow.operations_enterThrough h.operations
  conditions := Flow.conditions_enterThrough h.conditions

theorem Flow.Within.known {known : Nat} {L : Label → Prop} {g : Flow}
    (h : g.Within (Register.Known known) L) : g.Known known where
  operations i body next hi op hop := by
    have hop := h.operations i body next hi op hop
    refine ⟨fun v hv => (hop.values v hv).reads, ?_⟩
    rintro r v rfl
    exact hop.1
  conditions i cond t f hi := (h.conditions i cond t f hi).reads

/-! ## Assignments -/

/-- The outcome of a compilation renamed. -/
def Renaming.compiled (ρ : Renaming) (c : Compiled) : Compiled where
  items := ρ.stream c.items
  allocated := ρ.stream c.allocated
  mapping := ρ.allocation c.mapping
  spilled := c.spilled.map ρ.register

namespace Renaming

variable {ρ σ : Renaming}

theorem compiled_comp (c : Compiled) : (σ.comp ρ).compiled c = σ.compiled (ρ.compiled c) := by
  simp [compiled, stream_comp, allocation_comp, register_comp]

theorem register_same (r : Register) : same.register r = r := by cases r <;> rfl

theorem instr_same (i : Instr) : same.instr i = i := by
  have hregister : same.register = fun r => r := funext register_same
  have hmem : ∀ m : Mem, same.mem m = m := fun m => by
    simp only [mem, hregister, Option.map_id_fun']
    rfl
  have hoperand : ∀ o : Operand, same.operand o = o := fun o => by
    cases o <;> simp [operand, register_same, hmem]
  cases i <;> simp [instr, hoperand, hmem, hregister] <;> rfl

theorem stream_same (items : Stream) : same.stream items = items := by
  refine (List.map_congr_left fun it _ => ?_).trans (List.map_id' items)
  cases it with
  | label l => rfl
  | instr i => exact congrArg _ (instr_same i)
  | stray r => exact congrArg _ (register_same r)

theorem compiled_same (c : Compiled) : same.compiled c = c := by
  have hregister : same.register = fun r => r := funext register_same
  have hplace : same.place = fun e => e := funext fun e => by simp [place, register_same]
  simp [compiled, stream_same, allocation, hplace, hregister]

/-- Names that agree in a supply that is ahead correspond. -/
theorem stream_onto_of_ahead {u v w : Supply} {items items' : Stream} (hu : u.Later w) (hv : v.Later w)
    (h : (u.onto w).stream items = (v.onto w).stream items') : items' = (u.onto v).stream items := by
  rw [← Supply.comp_onto hu v, stream_comp, h, ← stream_comp, Supply.comp_onto hv v, Supply.onto_self, stream_same]

theorem compiled_onto_of_ahead {u v w : Supply} {c c' : Compiled} (hu : u.Later w) (hv : v.Later w)
    (h : (u.onto w).compiled c = (v.onto w).compiled c') : c' = (u.onto v).compiled c := by
  rw [← Supply.comp_onto hu v, compiled_comp, h, ← compiled_comp, Supply.comp_onto hv v, Supply.onto_self,
    compiled_same]

theorem rename_allocation (hρ : ρ.Faithful) (a : Allocation) (r : Register) :
    (ρ.allocation a).rename (ρ.register r) = ρ.register (a.rename r) := by
  unfold Allocation.rename
  rw [lookup_allocation hρ]
  cases a.lookup r <;> rfl

theorem apply_allocation (hρ : ρ.Faithful) (a : Allocation) (items : Stream) :
    (ρ.allocation a).apply (ρ.stream items) = ρ.stream (a.apply items) := by
  unfold Allocation.apply Stream.mapRegisters stream
  rw [List.map_map, List.map_map]
  refine List.map_congr_left fun it _ => ?_
  cases it with
  | instr i => exact congrArg Item.instr (instr_mapRegisters (rename_allocation hρ a) i)
  | label l => rfl
  | stray r => rfl

theorem physical_compiled (hρ : ρ.Faithful) (c : Compiled) : (ρ.compiled c).physical = ρ.stream c.physical :=
  apply_allocation hρ c.mapping c.items

theorem dropNoops_allocation (hρ : ρ.Faithful) (a : Allocation) (items : Stream) :
    (ρ.allocation a).dropNoops (ρ.stream items) = ρ.stream (a.dropNoops items) := by
  have hnoop : ∀ it : Item, (ρ.allocation a).isNoop (ρ.item it) = a.isNoop it := by
    intro it
    unfold Allocation.isNoop
    have hcopy : (ρ.item it).instr?.bind Instr.copy? = (it.instr?.bind Instr.copy?).map ρ.edge := by
      rw [instr?_item]
      cases it.instr? with
      | none => rfl
      | some i => exact copy?_instr i
    rw [hcopy]
    cases it.instr?.bind Instr.copy? with
    | none => rfl
    | some c => simp only [Option.map_some, edge, hρ.register.eq_iff, lookup_allocation hρ]
  unfold Allocation.dropNoops stream
  rw [List.filter_map]
  exact congrArg _ (List.filter_congr fun it _ => congrArg _ (hnoop it))

/-- The renaming of an instruction depends on the names that the instruction mentions. -/
theorem instr_congr (hlabel : ρ.label = σ.label) {i : Instr}
    (h : ∀ r ∈ i.mentions, ρ.register r = σ.register r) : ρ.instr i = σ.instr i := by
  have hmem : ∀ m : Mem, (∀ r ∈ m.registers, ρ.register r = σ.register r) → ρ.mem m = σ.mem m := by
    intro m hm
    obtain ⟨l, base, d⟩ := m
    cases base with
    | none => simp [mem, hlabel]
    | some r => simp [mem, hlabel, hm r (by simp [Mem.registers])]
  have hoperand : ∀ o : Operand, (∀ r ∈ o.registers, ρ.register r = σ.register r) →
      ρ.operand o = σ.operand o := by
    intro o ho
    cases o with
    | reg r => exact congrArg _ (ho r List.mem_cons_self)
    | imm w => rfl
    | mem m => exact congrArg _ (hmem m ho)
  have hdst : ∀ dst : Operand, dst.registers ⊆ dst.addressUses ++ dst.defined := by
    intro dst r hr
    cases dst with
    | reg r' => exact List.mem_append_right _ hr
    | imm w => cases hr
    | mem m => exact List.mem_append_left _ hr
  cases i with
  | mov dst src =>
    simp only [Instr.mentions, Instr.uses, Instr.defines, List.append_assoc, List.forall_mem_append] at h
    have hd : ρ.operand dst = σ.operand dst :=
      hoperand dst fun r hr => List.forall_mem_append.2 h.2 r (hdst dst hr)
    simp only [instr, hd, hoperand src h.1]
  | binary op dst src =>
    simp only [Instr.mentions, Instr.uses, List.append_assoc, List.forall_mem_append] at h
    simp only [instr, hoperand dst h.1, hoperand src h.2.1]
  | clear r | unary op r | setcc cc r => exact congrArg _ (h r (by simp [Instr.mentions, Instr.uses, Instr.defines]))
  | lea dst src =>
    simp only [Instr.mentions, Instr.uses, Instr.defines, List.forall_mem_append] at h
    simp only [instr, h.2 dst List.mem_cons_self, hmem src h.1]
  | jmp l => simp only [instr, hlabel]
  | jcc cc l => simp only [instr, hlabel]
  | call l arguments clobbers =>
    simp only [Instr.mentions, Instr.uses, Instr.defines, List.forall_mem_append] at h
    simp only [instr, hlabel, List.map_congr_left h.1, List.map_congr_left h.2]
  | ret results =>
    simp only [Instr.mentions, Instr.uses, List.forall_mem_append] at h
    simp only [instr, List.map_congr_left h.1]

/-- Where all registers are physical, a renaming renames labels alone. -/
theorem stream_eq_labels {items : Stream} (hclean : ∀ r, .stray r ∉ items)
    (hphysical : ∀ i ∈ items.instructions, ∀ r ∈ i.mentions, r.isPhysical = true) :
    ρ.stream items = ρ.labels.stream items := by
  refine List.map_congr_left fun it hit => ?_
  cases it with
  | label l => rfl
  | stray r => exact absurd hit (hclean r)
  | instr i =>
    have hlabel : ρ.label = ρ.labels.label := rfl
    refine congrArg Item.instr (instr_congr hlabel fun r hr => ?_)
    have hr := hphysical i (Stream.instr_mem_iff.1 hit) r hr
    rw [register_eq_self hr, register_eq_self hr]

end Renaming

/-- The registers of an instruction are physical if all of them are made so. -/
theorem Instr.physical_mapRegisters {f : Register → Register} {i : Instr} (hi : i.ListsPhysical)
    (hf : ∀ r ∈ i.mentions, (f r).isPhysical = true) :
    ∀ r ∈ (i.mapRegisters f).mentions, r.isPhysical = true := by
  cases i with
  | call l arguments clobbers => exact List.forall_mem_append.2 hi
  | ret results => exact List.forall_mem_append.2 ⟨hi, List.forall_mem_nil _⟩
  | jmp | jcc => exact List.forall_mem_nil _
  | binary op dst src =>
    by_cases hop : op = "cmp" <;>
      simpa [mapRegisters, mentions, uses, defines, hop, Operand.registers_mapRegisters,
        Operand.defined_mapRegisters, or_imp, forall_and] using hf
  | _ =>
    simpa [mapRegisters, mentions, uses, defines, Operand.registers_mapRegisters,
      Operand.addressUses_mapRegisters, Operand.defined_mapRegisters, Mem.registers_mapRegisters, or_imp,
      forall_and] using hf

namespace Backend

open Renaming

variable {b : Backend} {ρ : Renaming} {items allocated : Stream} {live live' : Liveness.Result} {f f' : Frame}
  {u u' v : Supply} {mapping : Allocation} {spilled : List Register}

theorem color_rename (hρ : ρ.Faithful) (hlive : live.Renamed ρ live') (suffix : String) (palette : List Physical) :
    b.color suffix palette live' = ρ.allocation (b.color suffix palette live) := by
  unfold color
  rw [← Allocator.allocate_rename hρ hlive.interference hlive.copies, hlive.occurrences]
  simp only [List.map_map]
  rfl

theorem complete_full_rename (hρ : ρ.Faithful) (hlive : live.Renamed ρ live') :
    (b.full live').complete = (b.full live).complete := by
  rw [full, color_rename hρ hlive, full]
  simp [Allocation.complete, allocation]

/-- A stream that was selected, with its analysis. -/
structure Selected (items : Stream) (live : Liveness.Result) (u : Supply) : Prop where
  clean : ∀ r, .stray r ∉ items
  conventional : ∀ i ∈ items.instructions, i.Conventional
  known : ∀ r ∈ items.registers, r.Known u.registers
  analyzed : Liveness.analyze items = .ok live

theorem selected_layout {g : Flow} {entry : Label} (hg : g.Known u.registers)
    (h : g.layout Amd64.catalogue.coverer entry u = .ok items u') (hlive : Liveness.analyze items = .ok live) :
    Selected items live u' := by
  have hselected := Layout.conventional_layout hg (Nat.le_refl _) h
  obtain ⟨pieces, labels, rfl, -⟩ := Layout.arranged_of_layout (Amd64.steady_coverer hg) (Nat.le_refl _) h
  refine ⟨Layout.clean_stream pieces, fun i hi => (hselected i hi).1, fun r hr => ?_, hlive⟩
  obtain ⟨i, hi, hr⟩ := Stream.mem_registers.1 hr
  exact (hselected i hi).2 r hr

namespace Selected

theorem lists (h : Selected items live u) : ∀ i ∈ items.instructions, i.ListsPhysical := fun i hi =>
  (h.conventional i hi).listsPhysical

theorem known_reduced (h : Selected items live u) (r : Register) (p : Physical)
    (hp : (b.reduced live).lookup r = some p) : r.Known u.registers :=
  h.known r ((mem_registers_iff_color h.analyzed).2 (Or.inl ⟨p, hp⟩))

theorem left (h : Selected items live u) : ∀ r ∈ (b.reduced live).unassigned, r.isPhysical = false :=
  fun _ hr => virtual_of_unassigned h.analyzed hr

section
variable (hcat : b.catalogue = Amd64.catalogue) (h : Selected items live u) {pieces : List Stream}
include hcat h

theorem spills (hspill : Spiller.spill ⟨b.catalogue.coverStmts, b.target.scratch⟩ items (b.reduced live) f u =
      .ok (allocated, mapping, f') v) :
    ∃ pieces, allocated = pieces.flatten ∧ f' = f.reserve (b.reduced live).unassigned.length ∧
      Spiller.Spills ⟨b.catalogue.coverStmts, b.target.scratch⟩ items (b.reduced live) f pieces mapping :=
  Spiller.spills_of_spill (by rw [hcat]) h.known (fun r p hp => h.known_reduced r p hp) hspill

theorem exists_spill (hspills :
      Spiller.Spills ⟨b.catalogue.coverStmts, b.target.scratch⟩ items (b.reduced live) f pieces mapping) :
    ∃ v, Spiller.spill ⟨b.catalogue.coverStmts, b.target.scratch⟩ items (b.reduced live) f u =
      .ok (pieces.flatten, mapping, f.reserve (b.reduced live).unassigned.length) v :=
  Spiller.exists_spill_of_spills (by rw [hcat]) h.known b.enoughScratch h.lists (fun r hr => h.left r hr) hspills

end

end Selected

section
variable (hcat : b.catalogue = Amd64.catalogue) (hρ : ρ.Faithful) (hlive : live.Renamed ρ live')
  (hitems : Selected items live u) (hitems' : Selected (ρ.stream items) live' u')
include hcat hρ hlive hitems hitems'

/-- Renamed registers get the same places. -/
theorem Assigns.rename (h : Assigns b items live f u allocated mapping spilled f' v) :
    ∃ v', Assigns b (ρ.stream items) live' f u' (ρ.stream allocated) (ρ.allocation mapping)
      (spilled.map ρ.register) f' v' := by
  have hreduced : b.reduced live' = ρ.allocation (b.reduced live) := color_rename hρ hlive _ _
  have hcomplete := complete_full_rename (b := b) hρ hlive
  cases h with
  | all hc =>
    have hfull : b.full live' = ρ.allocation (b.full live) := color_rename hρ hlive _ _
    rw [← hfull]
    exact ⟨u', .all (hcomplete.trans hc)⟩
  | rest hc hspill =>
    obtain ⟨pieces, rfl, rfl, hspills⟩ := hitems.spills hcat hspill
    have hspills' := hspills.rename hρ
    rw [← hreduced] at hspills'
    obtain ⟨v', hspill'⟩ := hitems'.exists_spill hcat hspills'
    have hleft : (b.reduced live').unassigned = (b.reduced live).unassigned.map ρ.register := by rw [hreduced]; rfl
    have hlength : (b.reduced live').unassigned.length = (b.reduced live).unassigned.length := by
      rw [hleft, List.length_map]
    rw [← stream_flatten, hlength] at hspill'
    rw [← hleft]
    exact ⟨v', .rest (hcomplete.trans hc) hspill'⟩

/-- Registers get places if they do after renaming. -/
theorem exists_assigns_of_rename {allocated' : Stream} {mapping' : Allocation} {spilled' : List Register}
    {v' : Supply} (h : Assigns b (ρ.stream items) live' f u' allocated' mapping' spilled' f' v') :
    ∃ allocated mapping spilled f' v, Assigns b items live f u allocated mapping spilled f' v := by
  have hreduced : b.reduced live' = ρ.allocation (b.reduced live) := color_rename hρ hlive _ _
  have hcomplete := complete_full_rename (b := b) hρ hlive
  cases h with
  | all hc => exact ⟨_, _, _, _, _, .all (hcomplete.symm.trans hc)⟩
  | rest hc hspill =>
    obtain ⟨pieces', rfl, rfl, hspills'⟩ := hitems'.spills hcat hspill
    rw [hreduced] at hspills'
    obtain ⟨pieces, hpieces⟩ := Spiller.exists_expanded (s := ⟨b.catalogue.coverStmts, b.target.scratch⟩)
      (by rw [hcat]) hitems.known b.enoughScratch hitems.lists (fun r hr => hitems.left r hr)
      ((Spiller.forall_fits_rename hρ).1 hspills'.fits)
    obtain ⟨mapping, hspills⟩ := Spiller.exists_spills_of_rename hρ hspills' hpieces
    obtain ⟨v, hspill⟩ := hitems.exists_spill hcat hspills
    exact ⟨_, _, _, _, _, .rest (hcomplete.symm.trans hc) hspill⟩

end

/-! ## Compilations -/

section
variable {body : Flow} {s t s' t' : Session} {c : Compiled}
  (hcat : b.catalogue = Amd64.catalogue) (hρ : ρ.Faithful) (hst : ρ.Carries s.supply t.supply)
  (hbody : body.Within ρ.KeepsRegister ρ.KeepsLabel) (hentry : ρ.KeepsLabel f.label)
  (hs : body.Known s.supply.registers) (ht : body.Known t.supply.registers)
include hcat hρ hst hbody hentry hs ht

/-- **A compilation from another supply gives the outcome renamed.** -/
theorem compile_rename (h : b.compile body f s = .ok (c, f') s') :
    ∃ t', b.compile body f t = .ok (ρ.compiled c, f') t' := by
  obtain ⟨g, items, u, live, hg, hlayout, hlive, hassigns, hitems⟩ := compile_eq_ok h
  rw [hcat] at hlayout
  have hlayouts := Layout.renames_layout hρ (Layout.coverable_catalogue hρ (hbody.compress hg)) hentry
    s.supply t.supply hst
  rw [hlayout] at hlayouts
  generalize hlayout' : g.layout Amd64.catalogue.coverer f.label t.supply = out at hlayouts
  cases hlayouts with
  | @ok _ _ u' hu =>
    have hlives := Liveness.alike_analyze hρ items
    rw [hlive] at hlives
    generalize hlive' : Liveness.analyze (ρ.stream items) = out at hlives
    cases hlives with
    | @ok _ live' hrenamed =>
      have hselected := selected_layout (hs.compress hg) hlayout hlive
      have hselected' := selected_layout (ht.compress hg) hlayout' hlive'
      obtain ⟨v', hassigns'⟩ := hassigns.rename hcat hρ hrenamed hselected hselected'
      obtain ⟨t', hcompile, -⟩ := exists_compile hg (hcat ▸ hlayout') hselected'.clean hlive' hassigns'
      refine ⟨t', ?_⟩
      rw [hcompile, dropNoops_allocation hρ, ← hitems]
      rfl

/-- A compilation succeeds if it does from another supply. -/
theorem exists_compile_of_rename {c' : Compiled} (h : b.compile body f t = .ok (c', f') t') :
    ∃ c f' s', b.compile body f s = .ok (c, f') s' := by
  obtain ⟨g, items', u', live', hg, hlayout', hlive', hassigns', -⟩ := compile_eq_ok h
  rw [hcat] at hlayout'
  have hlayouts := Layout.renames_layout hρ (Layout.coverable_catalogue hρ (hbody.compress hg)) hentry
    s.supply t.supply hst
  rw [hlayout'] at hlayouts
  generalize hlayout : g.layout Amd64.catalogue.coverer f.label s.supply = out at hlayouts
  cases hlayouts with
  | @ok items u _ hu =>
    have hlives := Liveness.alike_analyze hρ items
    rw [hlive'] at hlives
    generalize hlive : Liveness.analyze items = out at hlives
    cases hlives with
    | @ok live _ hrenamed =>
      have hselected := selected_layout (hs.compress hg) hlayout hlive
      have hselected' := selected_layout (ht.compress hg) hlayout' hlive'
      obtain ⟨allocated, mapping, spilled, f₁, v, hassigns⟩ :=
        exists_assigns_of_rename hcat hρ hrenamed hselected hselected' hassigns'
      obtain ⟨s', hcompile, -⟩ := exists_compile hg (hcat ▸ hlayout) hselected.clean hlive hassigns
      exact ⟨_, _, s', hcompile⟩

end

/-! ## Physical streams -/

/-- Every register of the stream that is allocated has a place. -/
theorem Assigns.placed (hcat : b.catalogue = Amd64.catalogue) (hitems : Selected items live u)
    (h : Assigns b items live f u allocated mapping spilled f' v) :
    (∀ r, .stray r ∉ allocated) ∧ ∀ i ∈ allocated.instructions,
      i.ListsPhysical ∧ ∀ r ∈ i.mentions, ∃ p, mapping.lookup r = some p := by
  cases h with
  | all hfull =>
    refine ⟨hitems.clean, fun i hi => ⟨hitems.lists i hi, fun r hr => ?_⟩⟩
    refine ((mem_registers_iff_color hitems.analyzed).1 (Stream.mem_registers.2 ⟨i, hi, hr⟩)).resolve_right
      fun hleft => ?_
    have hnil : (b.color ".Full" b.target.palette live).unassigned = [] := List.isEmpty_iff.1 hfull
    rw [hnil] at hleft
    cases hleft
  | rest hfull hspill =>
    obtain ⟨-, -, hplaces, -, pieces, rfl, hpieces⟩ := Spiller.spill_eq_ok (by rw [hcat]) hitems.known
      (fun r p hp => hitems.known_reduced r p hp) hspill
    refine ⟨fun r hr => ?_, fun i hi => ⟨?_, hplaces i hi⟩⟩
    · obtain ⟨piece, hpiece, hr⟩ := List.mem_flatten.1 hr
      obtain ⟨item, hitem, h⟩ := forall₂_exists_left hpieces hpiece
      cases h with
      | instr => simp at hr
      | other => exact hitems.clean r (List.mem_singleton.1 hr ▸ hitem)
    · obtain ⟨i₀, hi₀, code, hcode, hmem⟩ := Spiller.mem_instructions_pieces hpieces hi
      exact (hcode.from (hitems.conventional i₀ hi₀)
        (Spiller.virtual_of_slot? (fun r hr => hitems.left r hr) f) hmem).conventional.listsPhysical

/-- There are no virtual registers in the stream to which the mapping was applied. -/
theorem physical_of_compile {body : Flow} {s s' : Session} {c : Compiled} (hcat : b.catalogue = Amd64.catalogue)
    (hs : body.Known s.supply.registers) (h : b.compile body f s = .ok (c, f') s') :
    (∀ r, .stray r ∉ c.physical) ∧
      ∀ i ∈ c.physical.instructions, ∀ r ∈ i.mentions, r.isPhysical = true := by
  obtain ⟨g, items, u, live, hg, hlayout, hlive, hassigns, hitems⟩ := compile_eq_ok h
  rw [hcat] at hlayout
  obtain ⟨hclean, hplaced⟩ := hassigns.placed hcat (selected_layout (hs.compress hg) hlayout hlive)
  constructor
  · intro r hr
    rw [Compiled.physical, hitems] at hr
    obtain ⟨item, hitem, e⟩ := List.mem_map.1 hr
    cases item with
    | stray r' => cases e; exact hclean r (List.mem_filter.1 hitem).1
    | _ => cases e
  · intro i hi
    rw [Compiled.physical, hitems] at hi
    obtain ⟨i₀, hi₀, rfl⟩ := Allocation.mem_instructions_apply hi
    obtain ⟨hlists, hplaces⟩ := hplaced i₀ hi₀
    refine Instr.physical_mapRegisters hlists fun r hr => ?_
    obtain ⟨p, hp⟩ := hplaces r hr
    rw [Allocation.rename, hp]
    rfl

/-! ## Independence of what was compiled before -/

/-- The outcomes of two compilations, one from the supply `u` and one from `v`, up to the names
    of what was drawn: those after the counters of `u` correspond to those after the counters of
    `v`, in the order of drawing. -/
structure SameUpTo (u v : Supply) (c c' : Compiled) : Prop where
  forth : c' = (u.onto v).compiled c
  back : c = (v.onto u).compiled c'
  /-- In the physical streams, only generated labels differ. -/
  physical : c'.physical = (u.onto v).labels.stream c.physical

/-- Both computations fail, or they give results that correspond. -/
inductive Alike {α β : Type} (R : α → β → Prop) :
    EStateM.Result Fault Session α → EStateM.Result Fault Session β → Prop
  | ok {a : α} {a' : β} {s t : Session} (h : R a a') : Alike R (.ok a s) (.ok a' t)
  | error {e e' : Fault} {s t : Session} : Alike R (.error e s) (.error e' t)

/-- The passes from a supply to one that is ahead of it. -/
theorem compile_ahead {body : Flow} {s t : Session} (hcat : b.catalogue = Amd64.catalogue)
    (hst : s.supply.Later t.supply) (hs : s.supply.Above body f) (ht : body.Known t.supply.registers) :
    (∀ {c f' s'}, b.compile body f s = .ok (c, f') s' →
        ∃ t', b.compile body f t = .ok ((s.supply.onto t.supply).compiled c, f') t') ∧
      ∀ {c' f' t'}, b.compile body f t = .ok (c', f') t' → ∃ c f' s', b.compile body f s = .ok (c, f') s' := by
  have hρ := Supply.faithful_onto hst
  have hbody := hs.body.mono (fun r => Supply.keepsRegister_onto (v := t.supply))
    fun l => Supply.keepsLabel_onto (v := t.supply)
  have hentry : (s.supply.onto t.supply).KeepsLabel f.label := Supply.keepsLabel_onto hs.frame
  exact ⟨compile_rename hcat hρ (s.supply.carries_onto t.supply) hbody hentry hs.body.known ht,
    exists_compile_of_rename hcat hρ (s.supply.carries_onto t.supply) hbody hentry hs.body.known ht⟩

/-- **Compilation does not depend on what was compiled before.**  Of two sessions whose
    counters are above all names of the body and the frame, either both compile the body or
    both fail.  The frames that they give are the same, and so are the streams, the mapping
    and the spilled registers up to the names of what was drawn. -/
theorem compile_alike (hcat : b.catalogue = Amd64.catalogue) (body : Flow) (f : Frame) (s t : Session)
    (hs : s.supply.Above body f) (ht : t.supply.Above body f) :
    Alike (fun out out' => out'.2 = out.2 ∧ SameUpTo s.supply t.supply out.1 out'.1)
      (b.compile body f s) (b.compile body f t) := by
  -- both are compared with a session that is ahead of them
  let m : Session := { supply := s.supply.ahead t.supply }
  have hsm : s.supply.Later m.supply := s.supply.later_ahead_left t.supply
  have htm : t.supply.Later m.supply := s.supply.later_ahead_right t.supply
  have hm : body.Known m.supply.registers := Flow.Within.known
    (hs.body.mono (fun r hr => hr.mono hsm.registers) fun l hl => hl)
  obtain ⟨hforth, hback⟩ := compile_ahead hcat hsm hs hm
  obtain ⟨hforth', hback'⟩ := compile_ahead hcat htm ht hm
  cases hc : b.compile body f s with
  | ok out s' =>
    obtain ⟨c, g⟩ := out
    obtain ⟨m', hcm⟩ := hforth hc
    obtain ⟨c', g', t', hc'⟩ := hback' hcm
    obtain ⟨m'', hcm'⟩ := hforth' hc'
    have e := hcm.symm.trans hcm'
    simp only [EStateM.Result.ok.injEq, Prod.mk.injEq] at e
    rw [hc']
    refine .ok ⟨e.1.2.symm, compiled_onto_of_ahead hsm htm e.1.1, compiled_onto_of_ahead htm hsm e.1.1.symm, ?_⟩
    have hphysical := congrArg Compiled.physical e.1.1
    rw [physical_compiled (Supply.faithful_onto hsm), physical_compiled (Supply.faithful_onto htm)] at hphysical
    obtain ⟨hclean, hregisters⟩ := physical_of_compile hcat hs.body.known hc
    rw [stream_onto_of_ahead hsm htm hphysical]
    exact stream_eq_labels hclean hregisters
  | error e s' =>
    cases hc' : b.compile body f t with
    | error e' t' => exact .error
    | ok out t' =>
      obtain ⟨c', g'⟩ := out
      obtain ⟨m', hcm⟩ := hforth' hc'
      obtain ⟨c, g, s'', hcs⟩ := hback hcm
      rw [hc] at hcs
      cases hcs

theorem above_countingBody (u : Supply) :
    u.Above Compiler.countingBody.enterThrough ⟨"f", Amd64.convention, 0⟩ where
  body := by
    refine Flow.Within.enterThrough ⟨fun i body next hi op hop => ?_, fun i cond t f hi => ?_⟩
    all_goals change Fin 3 at i
    · match i with
      | 0 => cases hi; cases List.mem_singleton.1 hop; exact ⟨nofun, nofun, trivial⟩
      | 1 => cases hi
      | 2 => cases hi; cases List.mem_singleton.1 hop; trivial
    · match i with
      | 0 => cases hi
      | 1 => cases hi; exact ⟨nofun, trivial⟩
      | 2 => cases hi
  frame k e := by
    have hnumber : Label.number? "f" = some k := (congrArg Label.number? e).trans (Label.number?_generated k)
    cases (by decide : Label.number? "f" = none).symm.trans hnumber

/-- The counting function, compiled first in a session and compiled after other things. -/
theorem compile_alike_counting : ∃ c c' g s' t',
    (Backend.default "B" none).compile Compiler.countingBody.enterThrough ⟨"f", Amd64.convention, 0⟩
      { supply := ⟨0, 0⟩ } = .ok (c, g) s' ∧
    (Backend.default "B" none).compile Compiler.countingBody.enterThrough ⟨"f", Amd64.convention, 0⟩
      { supply := ⟨7, 4⟩, verbose := true } = .ok (c', g) t' ∧
    SameUpTo ⟨0, 0⟩ ⟨7, 4⟩ c c' := by
  obtain ⟨c, s', hc, -, -⟩ := Compiler.compile_counting
  have halike := compile_alike (b := .default "B" none) rfl Compiler.countingBody.enterThrough
    ⟨"f", Amd64.convention, 0⟩ { supply := ⟨0, 0⟩ } { supply := ⟨7, 4⟩, verbose := true }
    (above_countingBody _) (above_countingBody _)
  rw [hc] at halike
  generalize (Backend.default "B" none).compile Compiler.countingBody.enterThrough
    ⟨"f", Amd64.convention, 0⟩ { supply := ⟨7, 4⟩, verbose := true } = out at halike
  cases halike with
  | @ok _ out' _ t' h =>
    obtain ⟨c', g'⟩ := out'
    obtain ⟨e, hsame⟩ := h
    cases e
    exact ⟨c, c', _, s', t', hc, rfl, hsame⟩

end Backend

end Codegen
