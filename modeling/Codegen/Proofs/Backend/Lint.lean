/-
  What a backend compiles has no issues.

  Either all registers were colored, and the conflicts are those that the coloring
  avoided.  Or some were spilled: then the stream has changed, but spill code makes no
  new conflicts among the registers that stay, and the scratch registers and the frame
  pointer are not given to any of them (`compile_lint`).
-/
import Codegen.Proofs.Backend.Compile
import Codegen.Proofs.Coloring.Allocate
import Codegen.Proofs.Layout.Assembled
import Codegen.Proofs.Lint.Clean
import Codegen.Proofs.Spill.Fallback
import Codegen.Proofs.Spill.Interference

namespace Codegen

namespace Stream

variable {items : Stream} {i : Instr} {k : Nat} {x y : Register}

theorem mem_registers_of_clashes (hk : items[k]? = some (.instr i))
    (h : Liveness.Clashes i (items.LiveOut k) x y) : x ∈ items.registers ∧ y ∈ items.registers := by
  obtain ⟨hx, ⟨j, -, hy⟩, -⟩ := h
  exact ⟨defines_subset_registers hk hx, Liveness.mem_registers_of_liveAt hy⟩

end Stream

namespace Backend

variable {b : Backend} {f f' : Frame} {items items' : Stream} {live : Liveness.Result}
  {suffix : String} {palette : List Physical} {u u' : Supply} {mapping : Allocation}
  {x y r : Register} {p : Physical}

/-! ## Colors -/

section
variable (hlive : Liveness.analyze items = .ok live)
include hlive

theorem mem_registers_iff_color : r ∈ items.registers ↔
    (∃ p, (b.color suffix palette live).lookup r = some p) ∨
      r ∈ (b.color suffix palette live).unassigned := by
  obtain ⟨hnodes, hcopies⟩ := Liveness.nodes_analyze hlive
  refine Iff.trans ?_ (Allocator.mem_nodes_allocate _ live.interference live.copies)
  rw [hnodes, hcopies, or_self]

theorem color_physical (hr : .physical p ∈ items.registers) :
    (b.color suffix palette live).lookup (.physical p) = some p :=
  Allocator.lookup_physical_allocate _ _ _ (Or.inl ((Liveness.nodes_analyze hlive).1 ▸ hr))

omit hlive in
theorem color_virtual {id : Nat} (h : (b.color suffix palette live).lookup (.virtual id) = some p) :
    p ∈ palette := Allocator.mem_palette_of_lookup_allocate _ _ _ h

/-- Registers that clash get different colors. -/
theorem color_apart (hlabels : (items.filterMap Item.label?).Nodup) {k : Nat} {i : Instr}
    (hk : items[k]? = some (.instr i)) (h : Liveness.Clashes i (items.LiveOut k) x y)
    (hx : (b.color suffix palette live).lookup x = some p) :
    (b.color suffix palette live).lookup y ≠ some p := by
  obtain ⟨hlinked, -⟩ := Liveness.analyze_eq_ok hlive hlabels
  exact Allocator.lookup_allocate_ne_of_linked _ _ _ ((hlinked x y).2 ⟨k, i, hk, Or.inl h⟩) hx

omit hlive in
theorem nodup_unassigned (b : Backend) (suffix : String) (palette : List Physical)
    (live : Liveness.Result) : (b.color suffix palette live).unassigned.Nodup := by
  rw [color, Allocator.unassigned_allocate]
  exact (Allocator.nodup_registers _ _).filter _

/-- Only virtual registers are left without a color. -/
theorem virtual_of_unassigned (hr : r ∈ (b.color suffix palette live).unassigned) :
    r.isPhysical = false := by
  cases r with
  | virtual id => rfl
  | physical p =>
    have hlook : (b.color suffix palette live).lookup (.physical p) = some p :=
      color_physical hlive ((mem_registers_iff_color hlive).2 (Or.inr hr))
    have hnone : (b.color suffix palette live).lookup (.physical p) = none := by
      rw [color, Allocator.unassigned_allocate, List.mem_filter, Option.isNone_iff_eq_none] at hr
      exact hr.2
    rw [hlook] at hnone
    cases hnone

end

/-! ## Without spilling -/

theorem lint_full (hitems : items.Assembled u.registers) (hlive : Liveness.analyze items = .ok live)
    (hfull : (b.full live).complete = true) :
    lint items (b.full live) b.target.palette = .ok [] := by
  refine lint_eq_nil hitems.clean hitems.labels hitems.targets (fun r hr => ?_)
    fun hk hclash => color_apart hlive hitems.labels hk hclash
  rcases (mem_registers_iff_color hlive).1 hr with ⟨p, hp⟩ | hleft
  · refine ⟨p, hp, fun q e => ?_, fun id e => ?_⟩
    · subst e
      exact Option.some.inj (hp.symm.trans (color_physical hlive hr))
    · subst e
      exact color_virtual hp
  · have hnil : (b.color ".Full" b.target.palette live).unassigned = [] := List.isEmpty_iff.1 hfull
    rw [hnil] at hleft
    cases hleft

/-! ## With spilling -/

section
variable (hcat : b.catalogue = Amd64.catalogue) (hf : f.convention = Amd64.convention)
  (hitems : items.Assembled u.registers) (hlive : Liveness.analyze items = .ok live)
  (hspill : Spiller.spill ⟨b.catalogue.coverStmts, b.target.scratch⟩ items (b.reduced live) f u =
    .ok (items', mapping, f') u')
include hcat hitems hlive hspill

theorem spill_reduced : Spiller.Completes { b.reduced live with unassigned := [] } mapping ∧
    (∀ r ∈ items'.registers, ∃ p, mapping.lookup r = some p) ∧
    ∃ pieces, items' = pieces.flatten ∧
      List.Forall₂ (Spiller.ExpandedItem (Spiller.allocateSlots (b.reduced live).unassigned f).1
        b.target.scratch) items pieces := by
  have hassigned : ∀ r p, (b.reduced live).lookup r = some p → r.Known u.registers := fun r p hp =>
    hitems.known_registers r ((mem_registers_iff_color hlive).2 (Or.inl ⟨p, hp⟩))
  obtain ⟨-, hcompletes, hplaces, -, hpieces⟩ :=
    Spiller.spill_eq_ok (by rw [hcat]) hitems.known_registers hassigned hspill
  refine ⟨hcompletes, fun r hr => ?_, hpieces⟩
  obtain ⟨i, hi, hr⟩ := Stream.mem_registers.1 hr
  exact hplaces i hi r hr

/-- Physical registers keep their place. -/
theorem lookup_physical_of_spill {q : Physical} (h : mapping.lookup (.physical q) = some p) : p = q := by
  obtain ⟨hcompletes, -⟩ := spill_reduced hcat hitems hlive hspill
  rcases hcompletes.adds h with h | h
  · have hq := (mem_registers_iff_color hlive).2 (Or.inl ⟨p, h⟩)
    exact Option.some.inj (h.symm.trans (color_physical hlive hq))
  · cases h
    rfl

/-- Virtual registers are not given scratch registers. -/
theorem lookup_virtual_of_spill {id : Nat} (h : mapping.lookup (.virtual id) = some p) :
    p ∈ b.target.reduced := by
  obtain ⟨hcompletes, -⟩ := spill_reduced hcat hitems hlive hspill
  rcases hcompletes.adds h with h | h
  · exact color_virtual h
  · cases h

/-- A physical register that is not handed out shares its place with no other register. -/
theorem eq_of_lookup_of_spill {q : Physical} (hq : q ∉ b.target.reduced)
    (hx : mapping.lookup (.physical q) = some p) (hy : mapping.lookup y = some p) : y = .physical q := by
  obtain rfl := lookup_physical_of_spill hcat hitems hlive hspill hx
  cases y with
  | physical q' => rw [lookup_physical_of_spill hcat hitems hlive hspill hy]
  | virtual id => exact absurd (lookup_virtual_of_spill hcat hitems hlive hspill hy) hq

include hf in
/-- **Spilling leaves no issues.** -/
theorem lint_spill (hrbp : .rbp ∉ b.target.palette) : lint items' mapping b.target.palette = .ok [] := by
  obtain ⟨hcompletes, hplaces, pieces, rfl, hpieces⟩ := spill_reduced hcat hitems hlive hspill
  have hleft : ∀ r ∈ (b.reduced live).unassigned, r.isPhysical = false :=
    fun r hr => virtual_of_unassigned hlive hr
  have hlists : ∀ i ∈ items.instructions, i.ListsPhysical := fun i hi =>
    (hitems.conventional i hi).listsPhysical
  have hkept := Spiller.kept_of_expanded hitems.clean hlists (Spiller.virtual_of_slot? hleft f)
    (fun {r slot} hslot => by
      obtain ⟨k, -, rfl⟩ := Spiller.slot?_eq_some hslot
      rw [Frame.slot, hf]
      rfl) hpieces
  have hnotScratch : ∀ q ∈ b.target.scratch, q ∉ b.target.reduced := by
    intro q hq hmem
    have := (List.mem_filter.1 hmem).2
    simp [hq] at this
  have hnotFrame : .rbp ∉ b.target.reduced := fun hmem => hrbp (List.mem_filter.1 hmem).1
  -- a register of the new stream stays, or is a physical one that is not handed out
  have htouched : ∀ r ∈ Stream.registers pieces.flatten,
      Spiller.Untouched (Spiller.allocateSlots (b.reduced live).unassigned f).1 b.target.scratch r ∨
        ∃ q, r = .physical q ∧ q ∉ b.target.reduced := by
    intro r hr
    by_cases hrbp' : r = .physical .rbp
    · exact Or.inr ⟨.rbp, hrbp', hnotFrame⟩
    by_cases hscratch : ∃ q ∈ b.target.scratch, r = .physical q
    · obtain ⟨q, hq, e⟩ := hscratch
      exact Or.inr ⟨q, e, hnotScratch q hq⟩
    · refine Or.inl ⟨⟨Spiller.slot?_eq_none_iff.2 fun hmem => ?_, fun q hq e => hscratch ⟨q, hq, e⟩⟩, hrbp'⟩
      exact Spiller.not_mem_registers_of_expanded hlists hleft hpieces hmem hr
  refine lint_eq_nil (Stream.clean_of_kept hkept) ?_ (Stream.targets_of_kept hkept hitems.targets)
    (fun r hr => ?_) fun {j i x y p} hj hclash hx hy => ?_
  · rw [Stream.labels_flatten (Stream.expands_of_kept hkept)]
    exact hitems.labels
  · obtain ⟨p, hp⟩ := hplaces r hr
    refine ⟨p, hp, fun q e => ?_, fun id e => ?_⟩
    · subst e
      exact lookup_physical_of_spill hcat hitems hlive hspill hp
    · subst e
      exact (List.mem_filter.1 (lookup_virtual_of_spill hcat hitems hlive hspill hp)).1
  · have hne : y ≠ x := hclash.2.2.1
    obtain ⟨hmemx, hmemy⟩ := Stream.mem_registers_of_clashes hj hclash
    rcases htouched x hmemx with hstayx | ⟨q, rfl, hq⟩
    · rcases htouched y hmemy with hstayy | ⟨q, rfl, hq⟩
      · -- the conflict is an old one
        obtain ⟨k, i₀, hk, hclash₀⟩ := hclash.of_kept hkept hj hstayx hstayy
        obtain ⟨hmemx₀, hmemy₀⟩ := Stream.mem_registers_of_clashes hk hclash₀
        have hold : ∀ {r}, r ∈ items.registers → mapping.lookup r = some p →
            (b.reduced live).lookup r = some p := by
          intro r hr hp
          rcases hcompletes.adds hp with hp | rfl
          · exact hp
          · exact color_physical hlive hr
        exact color_apart hlive hitems.labels hk hclash₀ (hold hmemx₀ hx) (hold hmemy₀ hy)
      · exact hne (eq_of_lookup_of_spill hcat hitems hlive hspill hq hy hx).symm
    · exact hne (eq_of_lookup_of_spill hcat hitems hlive hspill hq hx hy)

end

/-! ## Compilations -/

/-- **What a backend compiles has no issues**, every register has a place, and after
    spilling no virtual register is in a scratch register. -/
theorem compile_lint {body : Flow} {s s' : Session} {res : Compiled}
    (hcat : b.catalogue = Amd64.catalogue) (hf : f.convention = Amd64.convention)
    (hlabel : ∀ k, f.label ≠ Label.generated k) (hrbp : .rbp ∉ b.target.palette)
    (hbody : body.Known s.supply.registers) (h : b.compile body f s = .ok (res, f') s') :
    lint res.allocated res.mapping b.target.palette = .ok [] ∧ res.mapping.complete = true ∧
      (res.spilled ≠ [] → ∀ id p, res.mapping.lookup (.virtual id) = some p → p ∈ b.target.reduced) := by
  obtain ⟨g, items, u, live, hg, hlayout, hlive, hassigns, -⟩ := compile_eq_ok h
  rw [hcat] at hlayout
  obtain ⟨-, hitems⟩ := Layout.assembled_layout (hbody.compress hg) (Nat.le_refl _) hlabel hlayout
  generalize res.allocated = allocated at *
  generalize res.mapping = mapping at *
  generalize res.spilled = spilled at *
  cases hassigns with
  | all hfull => exact ⟨lint_full hitems hlive hfull, hfull, fun hne => absurd rfl hne⟩
  | rest hfull hspill =>
    obtain ⟨hcompletes, -⟩ := spill_reduced hcat hitems hlive hspill
    refine ⟨lint_spill hcat hf hitems hlive hspill hrbp, ?_, fun _ id p hp =>
      lookup_virtual_of_spill hcat hitems hlive hspill hp⟩
    rw [Allocation.complete, hcompletes.left]
    rfl

/-- A backend that may hand out no register at all. -/
def spillAll : Backend := .default "B" (some 0)

/-- How its registers come out for a body that returns a constant. -/
theorem color_constant {c : Word} (hc : c = 7 ∨ c = 4294967296) : ∃ live,
    Liveness.analyze (.label "f" :: Spiller.constantStream c) = .ok live ∧
      (spillAll.full live).complete = false ∧
      spillAll.reduced live = ⟨[(.physical .rax, .rax)], [.virtual 1]⟩ := by
  rcases hc with rfl | rfl
  · exact ⟨_, rfl, by decide +kernel, by decide +kernel⟩
  · exact ⟨_, rfl, by decide +kernel, by decide +kernel⟩

/-- The body that returns 7 is compiled, and its register spilled. -/
theorem exists_compile_constant :
    ∃ res s', spillAll.compile (Spiller.constantBody 7) ⟨"f", Amd64.convention, 0⟩ { supply := ⟨1, 0⟩ } =
      .ok (res, ⟨"f", Amd64.convention, 1⟩) s' ∧ res.spilled = [.virtual 1] := by
  obtain ⟨live, hlive, hfull, hreduced⟩ := color_constant (Or.inl rfl)
  obtain ⟨items', mapping, hspill⟩ : ∃ items' mapping,
      Spiller.spill ⟨Amd64.catalogue.coverStmts, [.r10, .r11]⟩ (.label "f" :: Spiller.constantStream 7)
        (spillAll.reduced live) ⟨"f", Amd64.convention, 0⟩ ⟨1, 0⟩ =
        .ok (items', mapping, ⟨"f", Amd64.convention, 1⟩) ⟨1, 0⟩ := by
    rw [hreduced]
    exact ⟨_, _, rfl⟩
  have hcompress : (Spiller.constantBody 7).compress = .ok (Spiller.constantBody 7) := by cbv
  have hlayout : (Spiller.constantBody 7).layout spillAll.catalogue.coverer "f" ⟨1, 0⟩ =
      .ok (.label "f" :: Spiller.constantStream 7) ⟨1, 0⟩ := by cbv
  obtain ⟨s', hcompile, -⟩ := exists_compile (b := spillAll) (f := ⟨"f", Amd64.convention, 0⟩)
    (s := { supply := ⟨1, 0⟩ }) hcompress hlayout (by simp [Spiller.constantStream]) hlive (.rest hfull hspill)
  exact ⟨_, s', hcompile, by rw [hreduced]⟩

theorem compile_lint_constant :
    ∃ res s', spillAll.compile (Spiller.constantBody 7) ⟨"f", Amd64.convention, 0⟩ { supply := ⟨1, 0⟩ } =
        .ok (res, ⟨"f", Amd64.convention, 1⟩) s' ∧ res.spilled = [.virtual 1] ∧
      lint res.allocated res.mapping [] = .ok [] := by
  obtain ⟨res, s', hcompile, hspilled⟩ := exists_compile_constant
  obtain ⟨hlint, -⟩ := compile_lint (b := spillAll) rfl rfl (Label.ne_generated (by decide)) (by decide)
    (Spiller.known_constantBody 7) hcompile
  exact ⟨res, s', hcompile, hspilled, hlint⟩

end Backend

end Codegen
