/-
  Compilation preserves meaning.

  Whatever a body means to the interpreter, the compiled stream does on the machine:
  it returns with the same value and the same memory, except for the slots that spill
  code uses (`compile_preserves`).  The proof follows the passes: compression and layout
  keep the meaning of the body, spill code follows the stream, and an allocation without
  issues can be applied, and moves that do nothing dropped.
-/
import Codegen.Proofs.Allocation.Noops
import Codegen.Proofs.Backend.Lint
import Codegen.Proofs.Layout.Run
import Codegen.Proofs.Spill.Preserves

namespace Codegen

/-! ## Machines in a world -/

/-- The machine that runs a stream in a world. -/
def World.machine (w : World) (items : Stream) (registers : Bindings Register Word)
    (memory : Bindings Word Word) : Machine :=
  { Machine.startFrom items w.hooks registers memory with globals := w.globals }

/-- The state in which a function is entered: no virtual register has a value yet. -/
def State.entry (registers : Bindings Register Word) (memory : Bindings Word Word) : State where
  registers r :=
    match r with
    | .physical _ => some ((registers.get? r).getD 0)
    | .virtual _ => none
  memory a := (memory.get? a).getD 0

namespace World

variable {w : World} {items : Stream} {registers : Bindings Register Word} {memory : Bindings Word Word}
  {labels : Bindings Label Nat}

theorem read_physical (p : Physical) :
    Machine.read { w.machine items registers memory with labels } (.physical p) =
      .ok ((registers.get? (.physical p)).getD 0) := by
  simp only [Machine.read, machine, Machine.startFrom, Machine.start, List.not_mem_nil, if_false]
  cases registers.get? (.physical p) <;> rfl

theorem read_virtual (hvirtual : ∀ id, registers.get? (.virtual id) = none) (id : Nat) :
    ∃ t, Machine.read { w.machine items registers memory with labels } (.virtual id) = .error t :=
  ⟨.undefinedRegister (.virtual id), by
    simp [Machine.read, machine, Machine.startFrom, Machine.start, hvirtual id]⟩

theorem reflects_entry (known : Nat) : Reflects w known (State.entry registers memory)
    { w.machine items registers memory with labels } where
  hooks := rfl
  globals := rfl
  registers := fun {r x} _ hr => by
    cases r with
    | virtual id => cases hr
    | physical p => rw [read_physical, ← Option.some.inj hr]
  memory _ := rfl

/-- The labels of a stream can be defined, and steps from there are a run. -/
theorem exists_labels (w : World) (registers : Bindings Register Word) (memory : Bindings Word Word)
    (hlabels : (items.filterMap Item.label?).Nodup) :
    ∃ labels, Exec.Placed items labels ∧ ∀ {j : Nat} {n : Machine} {limit : Int}, j ≤ limit →
      Machine.Steps j { w.machine items registers memory with labels } n → n.returned = true →
        (w.machine items registers memory).run limit = (none, n) := by
  obtain ⟨m, hdefine⟩ := (Exec.forM_define_iff (k := 0) (m := w.machine items registers memory)).2
    ⟨hlabels, fun _ _ => rfl⟩
  obtain ⟨labels, rfl, hplaced⟩ := Exec.placed_of_forM rfl hdefine
  refine ⟨labels, hplaced, fun {j n limit} hlimit hsteps hn => ?_⟩
  refine Machine.run_eq_none.2 (Exec.run_eq_ok.2 ⟨_, hdefine, j, ?_, hsteps, hn⟩)
  simp only [machine, Machine.startFrom, Machine.start]
  omega

end World

/-! ## Places -/

theorem Machine.Steps.safeSteps {j : Nat} {m n : Machine} (h : Steps j m n) :
    SafeSteps (fun _ => True) m n := by
  induction h with
  | refl => exact .refl _
  | head h _ ih =>
    obtain ⟨hret, i, k, hnext, e⟩ := h
    exact .head hret hnext (safe_of_forall (fun _ => trivial) _ _) e ih

namespace Allocation

variable {a : Allocation} {items : Stream} {palette : List Physical} {labels : Bindings Label Nat}

theorem getElem?_apply_label {j : Nat} {l : Label} :
    (a.apply items)[j]? = some (.label l) ↔ items[j]? = some (.label l) := by
  rw [apply, Stream.mapRegisters, List.getElem?_map, Option.map_eq_some_iff]
  constructor
  · rintro ⟨item, hitem, e⟩
    cases item <;> cases e
    exact hitem
  · exact fun h => ⟨_, h, rfl⟩

/-- **Places without issues can be applied, and moves that do nothing dropped.** -/
theorem exists_run_physical {w : World} {registers : Bindings Register Word} {memory : Bindings Word Word}
    {n : Machine} {near : Word → Prop} (hlint : lint items a palette = .ok [])
    (hconv : ∀ i ∈ items.instructions, i.Conventional) (hlabels : (items.filterMap Item.label?).Nodup)
    (hvirtual : ∀ id, registers.get? (.virtual id) = none) (hplaced : Exec.Placed items labels)
    (hsafe : Machine.SafeSteps near { w.machine items registers memory with labels } n)
    (hn : n.returned = true) :
    ∃ (least : Int) (n' : Machine), (∀ limit ≥ least,
        (w.machine (a.apply (a.dropNoops items)) registers memory).run limit = (none, n')) ∧
      n'.memory = n.memory ∧
      ∀ k results, n.position = k + 1 → items[k]? = some (.instr (.ret results)) →
        ∀ r ∈ results, n'.read r = n.read r := by
  obtain ⟨conflict, live, hc⟩ := checked_of_lint hlint
  obtain ⟨j, hsteps⟩ := hsafe.steps
  -- the renamed stream follows step by step
  obtain ⟨n₁, hsteps₁, hfollow⟩ := hc.steps hconv (hc.follows_start
    (m := { w.machine items registers memory with labels }) rfl hplaced rfl rfl
    (World.read_virtual hvirtual)) hsteps
  have hn₁ : n₁.returned = true := hfollow.agree.returned.trans hn
  -- the stream without moves that do nothing follows the renamed one
  have hexpands := expands_noopPieces a items
  have hflat := flatten_noopPieces a items
  have hlabels' : ((a.apply (a.dropNoops items)).filterMap Item.label?).Nodup := by
    rw [← hflat, Stream.labels_flatten hexpands, labels_apply]
    exact hlabels
  obtain ⟨labels', hplaced', hrun⟩ := w.exists_labels registers memory hlabels'
  have hbeside : Machine.Beside (a.noopPieces items)
      { w.machine (a.apply items) registers memory with labels }
      { w.machine (a.apply (a.dropNoops items)) registers memory with labels := labels' } :=
    ⟨hexpands, hflat.symm, fun l j => (hplaced l j).trans getElem?_apply_label.symm, hplaced', rfl,
      Stream.Skips.refl _ _⟩
  obtain ⟨n₂, hsafe₂, hb, -, halike⟩ := (Machine.tracks_noops (fun _ => True) a items).safeSteps hbeside
    ⟨rfl, rfl, rfl, rfl, rfl, fun r => .refl r _⟩ hsteps₁.safeSteps
  obtain ⟨j₂, hsteps₂⟩ := hsafe₂.steps
  refine ⟨j₂, n₂, fun limit hlimit => hrun hlimit hsteps₂ (hb.returned.trans hn₁),
    halike.memory.trans hfollow.agree.memory.symm, fun k results hpos hk r hr => ?_⟩
  have hphysical : r.isPhysical = true :=
    (hconv _ (List.mem_filterMap.2 ⟨_, List.mem_of_getElem? hk, rfl⟩)).listsPhysical r hr
  have hpasses : ∀ {x y : Except Trouble Word}, Passes r x y → y = x := by
    rintro x y (e | ⟨hr', -⟩)
    · exact e.symm
    · rw [hphysical] at hr'
      cases hr'
  have hread := hfollow.agree.reads (r := r) (by
    rw [Needed, if_pos hn]
    exact ⟨k, results, hpos, hk, hr⟩)
  have e : a.rename r = r := hc.rename_eq (Stream.uses_subset_registers hk hr) hphysical
  simp only [Setting.ofRename, e] at hread
  exact (hpasses (halike.reads r)).trans (hpasses hread)

end Allocation

/-! ## Spill code -/

namespace Spiller

variable {items : Stream} {a : Allocation} {f : Frame}

/-- Slots that can be reached are few. -/
theorem length_unassigned_le (hnodup : a.unassigned.Nodup)
    (hmem : ∀ r ∈ a.unassigned, r ∈ items.registers)
    (hfits : ∀ i ∈ items.instructions, Fits (allocateSlots a.unassigned f).1 i) :
    a.unassigned.length ≤ 536870912 := by
  refine Frame.le_of_reach (f := f) fun k hlt hle => ?_
  obtain ⟨t, rfl⟩ := Nat.exists_eq_add_of_lt hlt
  have ht : t < a.unassigned.length := by omega
  have hget := List.getElem?_eq_getElem ht
  obtain ⟨i, hi, hr⟩ := Stream.mem_registers.1 (hmem _ (List.getElem_mem ht))
  obtain ⟨slot, hslot⟩ := exists_slot? (f := f) (List.getElem_mem ht)
  obtain ⟨t', hget', rfl⟩ := slot?_eq_some hslot
  obtain rfl : t = t' := (List.getElem?_inj ht hnodup).1 (hget.trans hget'.symm)
  have := (hfits i hi).1 _ hr _ hslot
  rwa [show f.slots + t + 1 = f.slots + 1 + t by omega]

end Spiller

/-- An instruction of a body leaves the frame pointer and the scratch registers alone. -/
theorem Instr.Legal.spillable {supply : Nat} {scratch : List Physical} {i : Instr}
    (h : i.Legal supply scratch) : i.Spillable scratch := by
  refine ⟨h.conventional.listsPhysical, h.kept, fun p hp => ⟨h.unreserved p hp, fun hdef => ?_⟩⟩
  obtain ⟨l, arguments, clobbers, rfl⟩ := h.clobbered p hp hdef
  rfl

/-! ## Compilations -/

namespace Backend

variable {b : Backend} {body g : Flow} {f f' : Frame} {s s' : Session} {u u' : Supply} {items items' : Stream}
  {live : Liveness.Result} {mapping : Allocation} {w : World} {registers : Bindings Register Word}
  {memory : Bindings Word Word} {known fuel : Nat} {reserved : List Physical} {hasValue : Bool} {st : State}

/-- **The stream of a body does what the body means.** -/
theorem exists_run_layout (hg : g.Sound known reserved) (hu : known ≤ u.registers)
    (hlabel : ∀ k, f.label ≠ Label.generated k)
    (hlayout : g.layout Amd64.catalogue.coverer f.label u = .ok items u')
    (hrun : w.run g fuel g.root (State.entry registers memory) = some (hasValue, st)) :
    (∀ i ∈ items.instructions, i.Legal u'.registers reserved) ∧
      ∃ labels n, Exec.Placed items labels ∧
        Machine.SafeSteps w.near { w.machine items registers memory with labels } n ∧
        Layout.LaidOut.Returned w known items hasValue st n := by
  obtain ⟨pieces, places, rfl, hlaid⟩ :=
    Layout.laidOut_of_layout (Amd64.steady_coverer hg.known) hlabel hu hlayout
  refine ⟨fun i hi => hlaid.legal hg hu hi, ?_⟩
  obtain ⟨labels, hplaced, -⟩ := w.exists_labels registers memory hlaid.nodup_labels
  obtain ⟨n, hsteps, hn⟩ := hlaid.run_root hg hu hrun
    (m := { w.machine (Layout.stream pieces) registers memory with labels })
    ⟨rfl, hplaced, rfl, World.reflects_entry known⟩ rfl
  exact ⟨labels, n, hplaced, hsteps, hn⟩

/-- What a compiled stream must do, if the interpreter returns. -/
def Does (w : World) (f f' : Frame) (registers : Bindings Register Word) (memory : Bindings Word Word)
    (hasValue : Bool) (st : State) (items : Stream) : Prop :=
  ∃ (least : Int) (n : Machine),
    (∀ limit ≥ least, (w.machine items registers memory).run limit = (none, n)) ∧
    (∀ a, ¬ f.Added f' ((registers.get? (.physical .rbp)).getD 0) a → n.word a = st.memory a) ∧
    (hasValue = true → ∀ x, st.registers (.physical .rax) = some x → n.read (.physical .rax) = .ok x)

/-- A stream that does what is asked for still does it with places for its registers. -/
theorem does_of_lint {near : Word → Prop} {labels : Bindings Label Nat} {n : Machine} {palette : List Physical}
    (hlint : lint items mapping palette = .ok []) (hconv : ∀ i ∈ items.instructions, i.Conventional)
    (hlabels : (items.filterMap Item.label?).Nodup) (hvirtual : ∀ id, registers.get? (.virtual id) = none)
    (hplaced : Exec.Placed items labels)
    (hsafe : Machine.SafeSteps near { w.machine items registers memory with labels } n)
    (hn : n.returned = true)
    (hmemory : ∀ a, ¬ f.Added f' ((registers.get? (.physical .rbp)).getD 0) a → n.word a = st.memory a)
    (hret : ∃ k, n.position = k + 1 ∧ items[k]? = some (.instr (.ret (Amd64.results hasValue))))
    (hresult : hasValue = true → ∀ x, st.registers (.physical .rax) = some x →
      n.read (.physical .rax) = .ok x) :
    Does w f f' registers memory hasValue st (mapping.apply (mapping.dropNoops items)) := by
  obtain ⟨least, n', hrun, hsame, hreads⟩ :=
    Allocation.exists_run_physical hlint hconv hlabels hvirtual hplaced hsafe hn
  obtain ⟨k, hpos, hk⟩ := hret
  refine ⟨least, n', hrun, fun a ha => ?_, fun hvalue x hx => ?_⟩
  · rw [Machine.word, hsame]
    exact hmemory a ha
  · subst hvalue
    rw [hreads k _ hpos hk (.physical .rax) (by decide)]
    exact hresult rfl x hx

section
variable (hcat : b.catalogue = Amd64.catalogue) (hf : f.convention = Amd64.convention)
  (hrbp : .rbp ∉ b.target.palette) (hscratch : b.target.scratch.Nodup) (hfree : .rbp ∉ b.target.scratch)
  (hvirtual : ∀ id, registers.get? (.virtual id) = none) (hitems : items.Assembled u.registers)
  (hlive : Liveness.analyze items = .ok live)
include hcat hf hrbp hscratch hfree hvirtual hitems hlive

/-- **Spilling keeps what a stream does.** -/
theorem does_of_spill
    (hspill : Spiller.spill ⟨b.catalogue.coverStmts, b.target.scratch⟩ items (b.reduced live) f u =
      .ok (items', mapping, f') u')
    (hlegal : ∀ i ∈ items.instructions, i.Legal u.registers b.target.scratch)
    (hhidden : ∀ a, f.Added f' ((registers.get? (.physical .rbp)).getD 0) a → a ∈ w.hidden)
    {labels : Bindings Label Nat} (hplaced : Exec.Placed items labels) {n : Machine}
    (hsafe : Machine.SafeSteps w.near { w.machine items registers memory with labels } n)
    (hn : Layout.LaidOut.Returned w known items hasValue st n) :
    Does w f f' registers memory hasValue st (mapping.apply (mapping.dropNoops items')) := by
  have hlint := lint_spill hcat hf hitems hlive hspill hrbp
  obtain ⟨hfits, -, -, rfl, pieces, rfl, hpieces⟩ := Spiller.spill_eq_ok (by rw [hcat]) hitems.known_registers
    (fun r p hp => hitems.known_registers r
      ((mem_registers_iff_color hlive).2 (Or.inl ⟨p, hp⟩))) hspill
  have hleft : ∀ r ∈ (b.reduced live).unassigned, r.isPhysical = false :=
    fun r hr => virtual_of_unassigned hlive hr
  have hcount : (b.reduced live).unassigned.length ≤ 536870912 :=
    Spiller.length_unassigned_le (nodup_unassigned b _ _ live)
      (fun r hr => (mem_registers_iff_color hlive).2 (Or.inr hr)) hfits
  have hu := Spiller.usable_allocateSlots hf hleft (Nat.le_trans hcount (by decide)) hscratch hfree
  have hlabels : (pieces.flatten.filterMap Item.label?).Nodup := by
    rw [Stream.labels_flatten (Spiller.expands_of_expanded hpieces)]
    exact hitems.labels
  have hconv : ∀ i ∈ Stream.instructions pieces.flatten, i.Conventional := by
    intro i hi
    obtain ⟨i₀, hi₀, code, hcode, hmem⟩ := Spiller.mem_instructions_pieces hpieces hi
    exact (hcode.from (hitems.conventional i₀ hi₀) (Spiller.virtual_of_slot? hleft f) hmem).conventional
  obtain ⟨labels', hplaced', -⟩ := w.exists_labels registers memory hlabels
  obtain ⟨n', hsafe', hn', hback, k, results, hpos, hpos', hk, hk'⟩ := Spiller.exists_run_pieces
    (m := { w.machine items registers memory with labels }) hu (fun i hi => (hlegal i hi).spillable) hpieces
    (fun a ha hcell => ha (hhidden a (Spiller.added_of_cell hcell))) rfl hplaced hplaced' rfl rfl
    (World.read_virtual hvirtual) (World.read_physical .rbp) hsafe hn.returned
  -- the return is the one that the stream came to
  obtain ⟨k₀, hpos₀, hk₀⟩ := hn.at_ret
  obtain rfl : k = k₀ := by omega
  rw [hk₀] at hk
  cases hk
  refine does_of_lint hlint hconv hlabels hvirtual hplaced' hsafe' hn' (fun a ha => ?_)
    ⟨_, hpos', hk'⟩ fun hvalue x hx => ?_
  · rw [Machine.word, hback.memory fun hcell => ha (Spiller.added_of_cell hcell)]
    exact hn.reflects.memory a
  · subst hvalue
    have hret := hlegal _ (List.mem_filterMap.2 ⟨_, List.mem_of_getElem? hk₀, rfl⟩)
    rw [hback.reads ⟨?_, fun p hp e => ?_⟩]
    · exact hn.reflects.registers (Register.known_physical _ _) hx
    · refine Option.eq_none_iff_forall_ne_some.2 fun slot hslot => ?_
      cases hu.virtual hslot
    · exact hret.unreserved p hp (by rw [← e]; decide)

end

/-- **A body is compiled unless a spilled register is set to a wide constant.** -/
theorem exists_compile_iff (hcat : b.catalogue = Amd64.catalogue)
    (hg : body.compress = .ok g)
    (hlayout : g.layout Amd64.catalogue.coverer f.label s.supply = .ok items u)
    (hitems : items.Assembled u.registers) (hlive : Liveness.analyze items = .ok live)
    (hframe : f.slots + (b.reduced live).unassigned.length < 268435456) :
    (∃ result s', b.compile body f s = .ok result s') ↔
      (b.full live).complete = true ∨ ∀ d c, .mov (.reg d) (.imm c) ∈ items.instructions →
        d ∈ (b.reduced live).unassigned → c.fits32 = true := by
  have hspill := Spiller.exists_spill_iff (s := ⟨b.catalogue.coverStmts, b.target.scratch⟩)
    (a := b.reduced live) (by rw [hcat]) hitems.known_registers
    (fun i hi => (hitems.conventional i hi).listsPhysical) (fun r hr => (mem_registers_iff_color hlive).1 hr)
    (fun r p hp => hitems.known_registers r
      ((mem_registers_iff_color hlive).2 (Or.inl ⟨p, hp⟩)))
    (fun r hr => virtual_of_unassigned hlive hr) b.enoughScratch hframe
  rw [← hcat] at hlayout
  constructor
  · rintro ⟨⟨res, f'⟩, s', h⟩
    obtain ⟨g₁, items₁, u₁, live₁, hg₁, hlayout₁, hlive₁, hassigns, -⟩ := compile_eq_ok h
    cases hg.symm.trans hg₁
    cases hlayout.symm.trans hlayout₁
    cases hlive.symm.trans hlive₁
    generalize res.allocated = allocated, res.mapping = mapping, res.spilled = spilled at hassigns
    cases hassigns with
    | all hfull => exact Or.inl hfull
    | rest _ hspilled => exact Or.inr (hspill.1 ⟨_, _, hspilled⟩)
  · intro h
    cases hfull : (b.full live).complete with
    | true =>
      obtain ⟨s', hcompile, -⟩ := exists_compile hg hlayout hitems.clean hlive (.all hfull)
      exact ⟨_, s', hcompile⟩
    | false =>
      obtain ⟨⟨items', mapping, f'⟩, u', hspilled⟩ := hspill.2 (h.resolve_left (by simp [hfull]))
      obtain ⟨s', hcompile, -⟩ := exists_compile hg hlayout hitems.clean hlive (.rest hfull hspilled)
      exact ⟨_, s', hcompile⟩

/-- **Compilation preserves meaning.**  A body that the backend is made for is compiled
    unless a register that must be spilled is set to a constant of more than 32 bits.
    If it is compiled and the interpreter returns from it, without access to the words of
    the slots, then the machine returns with the same memory outside of the slots and the
    same value. -/
theorem compile_preserves (hcat : b.catalogue = Amd64.catalogue) (hf : f.convention = Amd64.convention)
    (hlabel : ∀ k, f.label ≠ Label.generated k) (hrbp : .rbp ∉ b.target.palette)
    (hscratch : b.target.scratch.Nodup) (hfree : .rbp ∉ b.target.scratch)
    (hroot : body.root.isSome = true) (hbody : body.Sound s.supply.registers b.target.scratch) :
    (∃ g items u live, body.compress = .ok g ∧
        g.layout Amd64.catalogue.coverer f.label s.supply = .ok items u ∧
        Liveness.analyze items = .ok live ∧
        (f.slots + (b.reduced live).unassigned.length < 268435456 →
          ((∃ result s', b.compile body f s = .ok result s') ↔
            (b.full live).complete = true ∨ ∀ d c, .mov (.reg d) (.imm c) ∈ items.instructions →
              d ∈ (b.reduced live).unassigned → c.fits32 = true))) ∧
      ∀ res f' s', b.compile body f s = .ok (res, f') s' →
        ∀ (w : World) (registers : Bindings Register Word) (memory : Bindings Word Word),
          (∀ id, registers.get? (.virtual id) = none) →
          (∀ a, f.Added f' ((registers.get? (.physical .rbp)).getD 0) a → a ∈ w.hidden) →
          ∀ fuel hasValue st, w.run body fuel body.root (State.entry registers memory) = some (hasValue, st) →
            ∃ (least : Int) (n : Machine),
              (∀ limit ≥ least, (w.machine res.physical registers memory).run limit = (none, n)) ∧
              (∀ a, ¬ f.Added f' ((registers.get? (.physical .rbp)).getD 0) a → n.word a = st.memory a) ∧
              (hasValue = true → ∀ x, st.registers (.physical .rax) = some x →
                n.read (.physical .rax) = .ok x) := by
  constructor
  · obtain ⟨g, hg⟩ := hbody.exists_compress
    have hsound := hbody.compress hg
    obtain ⟨items, u, hlayout⟩ := Layout.exists_layout (Amd64.steady_coverer hsound.known)
      (Amd64.total_coverer hsound) (fun i _ => hsound.arms i) (Flow.root_compress hg hroot) f.label
      (Nat.le_refl _)
    obtain ⟨-, hitems⟩ := Layout.assembled_layout hsound.known (Nat.le_refl _) hlabel hlayout
    obtain ⟨live, hlive⟩ := Liveness.exists_analyze hitems.clean hitems.targets
    exact ⟨g, items, u, live, hg, hlayout, hlive, exists_compile_iff hcat hg hlayout hitems hlive⟩
  · intro res f' s' h w registers memory hvirtual hhidden fuel hasValue st hrun
    obtain ⟨g, items, u, live, hg, hlayout, hlive, hassigns, hkept⟩ := compile_eq_ok h
    have hsound := hbody.compress hg
    rw [hcat] at hlayout
    obtain ⟨-, hitems⟩ := Layout.assembled_layout hsound.known (Nat.le_refl _) hlabel hlayout
    obtain ⟨hlegal, labels, n, hplaced, hsafe, hn⟩ := exists_run_layout hsound (Nat.le_refl _) hlabel hlayout
      (Flow.run_compress hg hrun)
    rw [Compiled.physical, hkept]
    generalize res.allocated = allocated, res.mapping = mapping, res.spilled = spilled at hassigns ⊢
    cases hassigns with
    | all hfull =>
      exact does_of_lint (lint_full hitems hlive hfull) hitems.conventional hitems.labels hvirtual hplaced hsafe
        hn.returned (fun a _ => hn.reflects.memory a) hn.at_ret
        fun _ x hx => hn.reflects.registers (Register.known_physical _ _) hx
    | rest _ hspill =>
      exact does_of_spill hcat hf hrbp hscratch hfree hvirtual hitems hlive hspill hlegal hhidden hplaced
        hsafe hn

theorem sound_constantBody (c : Word) : (Spiller.constantBody c).Sound 1 [.r10, .r11] := by
  constructor
  · intro (i : Fin 1) cond t f hi
    obtain rfl : i = 0 := Subsingleton.elim _ _
    cases hi
  · intro (i : Fin 1) ops next hi op hop
    obtain rfl : i = 0 := Subsingleton.elim _ _
    cases hi
    have hwrite : ∀ v, Evaluable 1 [.r10, .r11] [v] → Stmt.Sound 1 [.r10, .r11] (.write (.virtual 1) v) ∧
        Stmt.Sound 1 [.r10, .r11] (.write (.physical .rax) v) := fun v hv =>
      ⟨⟨hv, fun r _ e => (by cases e; simp [Amd64.convention]), fun e => (by cases e)⟩,
        ⟨hv, fun r _ e => (by cases e; simp [Amd64.convention]), fun e => (by cases e)⟩⟩
    simp only [List.mem_cons, List.not_mem_nil, or_false] at hop
    rcases hop with rfl | rfl | rfl
    · refine (hwrite _ ⟨?_, ?_, ?_, ?_⟩).1 <;> simp [Value.Declared, Value.reads, Value.implied]
    · refine (hwrite _ ⟨?_, ?_, ?_, ?_⟩).2 <;> simp [Value.Declared, Value.reads, Value.implied, Value.hasCall]
    · refine ⟨⟨?_, ?_, ?_, ?_⟩, fun r v e => (by cases e), fun _ => by decide⟩ <;> simp [Stmt.values]
  · intro (i : Fin 1) cond t f hi
    obtain rfl : i = 0 := Subsingleton.elim _ _
    cases hi

theorem compile_preserves_constant :
    (∃ res s', spillAll.compile (Spiller.constantBody 7) ⟨"f", Amd64.convention, 0⟩ { supply := ⟨1, 0⟩ } =
        .ok (res, ⟨"f", Amd64.convention, 1⟩) s' ∧
      ∃ (least : Int) (n : Machine), (∀ limit ≥ least,
        ((⟨[], [], [-8]⟩ : World).machine res.physical [] []).run limit = (none, n)) ∧
        n.read (.physical .rax) = .ok 7) ∧
      ¬ ∃ result s', spillAll.compile (Spiller.constantBody 4294967296) ⟨"f", Amd64.convention, 0⟩
        { supply := ⟨1, 0⟩ } = .ok result s' := by
  have key := fun c => compile_preserves (b := spillAll) (f := ⟨"f", Amd64.convention, 0⟩)
    (s := { supply := ⟨1, 0⟩ }) rfl rfl (Label.ne_generated (by decide)) (by decide) (by decide) (by decide) (by rfl)
    (sound_constantBody c)
  constructor
  · obtain ⟨res, s', hcompile, -⟩ := exists_compile_constant
    refine ⟨res, s', hcompile, ?_⟩
    obtain ⟨st, hrun, hst⟩ : ∃ st, World.run ⟨[], [], [-8]⟩ (Spiller.constantBody 7) 1
        (Spiller.constantBody 7).root (State.entry [] []) = some (true, st) ∧
        st.registers (.physical .rax) = some 7 := ⟨_, rfl, rfl⟩
    have hhidden : ∀ a, Frame.Added ⟨"f", Amd64.convention, 0⟩ ⟨"f", Amd64.convention, 1⟩ 0 a →
        a ∈ ([-8] : List Word) := by
      rintro a ⟨k, hlt, hle, rfl⟩
      obtain rfl : k = 1 := Nat.le_antisymm hle hlt
      decide
    obtain ⟨least, n, hn, -, hresult⟩ := (key 7).2 res _ s' hcompile ⟨[], [], [-8]⟩ [] [] (fun _ => rfl)
      hhidden 1 true st hrun
    exact ⟨least, n, hn, hresult rfl 7 hst⟩
  · intro h
    obtain ⟨g, items, u, live, hg, hlayout, hlive, hiff⟩ := (key 4294967296).1
    obtain rfl : Spiller.constantBody 4294967296 = g := Except.ok.inj (Eq.trans (by cbv) hg)
    obtain ⟨rfl, -⟩ : .label "f" :: Spiller.constantStream 4294967296 = items ∧ _ :=
      EStateM.Result.ok.inj (Eq.trans (by cbv) hlayout)
    obtain ⟨live', hlive', hfull, hreduced⟩ := color_constant (Or.inr rfl)
    obtain rfl := Except.ok.inj (hlive'.symm.trans hlive)
    rw [hfull, hreduced] at hiff
    have := ((hiff (by decide)).1 h).resolve_left (by decide) (.virtual 1) 4294967296 (by decide) (by decide)
    revert this
    decide

end Backend

end Codegen
