/-
  The body of a function, to be put between frame code.

  A body is entered through a block of its own, which control does not come back to.
  So its stream is the entry label, if there is one, and code that jumps only to labels
  behind it (`Stream.Closed`).  And a register that the body does not write, and that is
  neither handed out nor overwritten by calls, is not changed by that code
  (`Backend.body_of_compile`).
-/
import Codegen.Program
import Codegen.Proofs.Allocation.Noops
import Codegen.Proofs.Backend.Lint

namespace Codegen

/-! ## Entering a graph through a block of its own -/

namespace Flow

variable {g g' : Flow} {r : Register} {known : Nat}

theorem block_enterThrough (i : Fin (g.size + 1)) :
    (∃ j : Fin g.size, g.enterThrough.block i = (g.block j).map Fin.castSucc) ∨
      g.enterThrough.block i = .straight [] (g.root.map Fin.castSucc) := by
  refine Fin.lastCases (Or.inr ?_) (fun j => Or.inl ⟨j, ?_⟩) i
  · exact Vector.getElem_push_last
  · exact (Vector.getElem_push_lt j.isLt).trans (Vector.getElem_map _ j.isLt)

/-- Control does not come back to the new block. -/
theorem root_enterThrough (g : Flow) : ∀ k, g.enterThrough.root ∉ g.enterThrough.successors k := by
  have hmap : ∀ o : Option (Fin g.size), some (Fin.last g.size) ≠ o.map Fin.castSucc := by
    intro o h
    obtain ⟨j, -, e⟩ := Option.map_eq_some_iff.1 h.symm
    exact (Fin.castSucc_lt_last j).ne e
  intro k hk
  rw [successors] at hk
  change some (Fin.last g.size) ∈ _ at hk
  rcases block_enterThrough k with ⟨j, e⟩ | e
  · rw [e] at hk
    cases hj : g.block j with
    | straight body next =>
      rw [hj] at hk
      cases next with
      | none => cases hk
      | some j' => exact hmap (some j') (List.mem_singleton.1 hk)
    | branch cond t f =>
      rw [hj] at hk
      rcases List.mem_cons.1 hk with h | h
      · exact hmap t h
      · exact hmap f (List.mem_singleton.1 h)
  · rw [e] at hk
    cases hroot : g.root with
    | none => rw [hroot] at hk; cases hk
    | some j => rw [hroot] at hk; exact hmap (some j) (List.mem_singleton.1 hk)

theorem operations_enterThrough {P : Stmt → Prop}
    (h : ∀ i body next, g.block i = .straight body next → ∀ op ∈ body, P op) :
    ∀ i body next, g.enterThrough.block i = .straight body next → ∀ op ∈ body, P op := by
  intro i body next hi op hop
  rcases block_enterThrough i with ⟨j, e⟩ | e
  · rw [e] at hi
    cases hj : g.block j with
    | straight body' next' => rw [hj] at hi; cases hi; exact h j _ _ hj op hop
    | branch cond t f => rw [hj] at hi; cases hi
  · rw [e] at hi; cases hi; cases hop

theorem conditions_enterThrough {P : Value → Prop} (h : ∀ i cond t f, g.block i = .branch cond t f → P cond) :
    ∀ i cond t f, g.enterThrough.block i = .branch cond t f → P cond := by
  intro i cond t f hi
  rcases block_enterThrough i with ⟨j, e⟩ | e
  · rw [e] at hi
    cases hj : g.block j with
    | straight body next => rw [hj] at hi; cases hi
    | branch cond' t' f' => rw [hj] at hi; cases hi; exact h j _ _ _ hj
  · rw [e] at hi; cases hi

theorem Known.enterThrough (h : g.Known known) : g.enterThrough.Known known where
  operations := operations_enterThrough h.operations
  conditions := conditions_enterThrough h.conditions

theorem Writes.of_enterThrough (h : g.enterThrough.Writes r) : g.Writes r := by
  obtain ⟨i, body, next, hi, op, hop, hr⟩ := h
  exact operations_enterThrough (P := fun op => op.Writes r → g.Writes r)
    (fun j body next hj op hop hr => ⟨j, body, next, hj, op, hop, hr⟩) i body next hi op hop hr

theorem Writes.of_compress (hg : g.compress = .ok g') (h : g'.Writes r) : g.Writes r := by
  obtain ⟨i, body, next, hi, op, hop, hr⟩ := h
  exact operations_compress (P := fun op => op.Writes r → g.Writes r) hg
    (fun j body next hj op hop hr => ⟨j, body, next, hj, op, hop, hr⟩) i body next hi op hop hr

end Flow

/-! ## Streams with an entry label -/

namespace Stream

variable {entry : Label} {items rest : Stream} {l : Label} {i : Instr}

/-- The label that a stream starts with, if it has one. -/
def front (entry : Label) : Stream := if entry = Label.none then [] else [.label entry]

/-- Jumps stay in the stream. -/
def Closed (items : Stream) : Prop :=
  ∀ i ∈ items.instructions, ∀ l, i.target? = some l → .label l ∈ items

theorem instructions_front (entry : Label) : instructions (front entry) = [] := by
  unfold front
  split <;> rfl

theorem label_mem_iff : .label l ∈ items ↔ l ∈ items.filterMap Item.label? := by
  rw [List.mem_filterMap]
  refine ⟨fun h => ⟨_, h, rfl⟩, ?_⟩
  rintro ⟨item, h, e⟩
  cases item <;> cases e
  exact h

theorem instr_mem_iff : .instr i ∈ items ↔ i ∈ items.instructions := by
  rw [instructions, List.mem_filterMap]
  refine ⟨fun h => ⟨_, h, rfl⟩, ?_⟩
  rintro ⟨item, h, e⟩
  cases item <;> cases e
  exact h

theorem mem_instructions_append {xs ys : Stream} :
    i ∈ instructions (xs ++ ys) ↔ i ∈ instructions xs ∨ i ∈ instructions ys := by
  rw [Spiller.instructions_append, List.mem_append]

/-- The entry label stays where it is. -/
theorem exists_rest_of_expands {pieces : List Stream}
    (h : List.Forall₂ Expands (front entry ++ rest) pieces) :
    ∃ rest' : Stream, pieces.flatten = front entry ++ rest' ∧
      rest'.filterMap Item.label? = rest.filterMap Item.label? := by
  unfold front at h ⊢
  split at h
  · next hnone => exact ⟨pieces.flatten, by rw [if_pos hnone]; rfl, labels_flatten h⟩
  · next hne =>
    cases h with
    | cons hx h =>
      cases hx
      exact ⟨_, by rw [if_neg hne]; rfl, labels_flatten h⟩

end Stream

namespace Layout

variable {g : Flow} {known : Nat} {u u' : Supply} {entry : Label} {labels : Labels g.size}
  {pieces : List (Piece g.size)} {i : Instr}

section
variable (h : Arranged g Amd64.catalogue.coverer entry labels u u' pieces) (hg : g.Known known)
  (hu : known ≤ u.registers)
include h hg hu

theorem Arranged.mem_defines (hi : i ∈ (stream pieces).instructions) {d : Register} (hd : d ∈ i.defines) :
    d.isPhysical = false ∨ d ∈ Amd64.callerSaved ∨ g.Writes d := by
  obtain ⟨p, hp, hi⟩ := Arranged.mem_instructions_stream hi
  rcases h.mem_piece hg hu hp hi with ⟨-, hdefines⟩ | ⟨b, l, -, -, rfl | ⟨cc, rfl⟩⟩
  · exact hdefines d hd
  · cases hd
  · cases hd

/-- The stream of a graph whose root control does not come back to. -/
theorem Arranged.exists_rest (hroot : ∀ k, g.root ∉ g.successors k) :
    ∃ rest : Stream, stream pieces = Stream.front entry ++ rest ∧ rest.Closed := by
  obtain ⟨root, hr, p, ps, rfl, rfl⟩ := h.first
  have hfront : p.front.toList.map Item.label = Stream.front entry := by
    rw [h.fronts p List.mem_cons_self, ← hr, Stream.front]
    split
    · next hnone =>
      cases hl : labels.lookup g.root with
      | none => rfl
      | some l =>
        rcases h.given _ _ hl with ⟨hne, -⟩ | ⟨q, -, hq⟩
        · exact absurd hnone hne
        · exact absurd hq (hroot _)
    · next hne => rw [h.entered hne]; rfl
  refine ⟨p.code.map Item.instr ++ stream ps, ?_, fun i hi l hl => ?_⟩
  · rw [← hfront, ← List.append_assoc]
    rfl
  · -- a label that is jumped to stands in front of a block other than the root
    have hi : i ∈ (stream (p :: ps)).instructions := by
      change i ∈ Stream.instructions (p.items ++ stream ps)
      rw [Piece.items, List.append_assoc]
      exact Stream.mem_instructions_append.2 (Or.inr hi)
    obtain ⟨q, -, j, hj, hmem, hlookup⟩ := h.exists_target hg hu hi hl
    rcases List.mem_cons.1 hmem with rfl | hmem
    · exact absurd (hr ▸ hj) (hroot _)
    · obtain ⟨q', hq', rfl⟩ := List.mem_map.1 hmem
      have hfront := h.fronts q' (List.mem_cons_of_mem _ hq')
      refine List.mem_append_right _ (List.mem_flatMap.2 ⟨q', hq', ?_⟩)
      rw [Piece.items, hfront, hlookup]
      simp

end

end Layout

/-! ## Applying an allocation -/

namespace Allocation

variable {a : Allocation} {items xs ys : Stream} {i : Instr}

theorem apply_dropNoops_append : a.apply (a.dropNoops (xs ++ ys)) =
    a.apply (a.dropNoops xs) ++ a.apply (a.dropNoops ys) := by
  simp [apply, dropNoops, Stream.mapRegisters]

theorem apply_dropNoops_front (entry : Label) :
    a.apply (a.dropNoops (Stream.front entry)) = Stream.front entry := by
  unfold Stream.front
  split <;> rfl

theorem mem_instructions_apply (h : i ∈ (a.apply (a.dropNoops items)).instructions) :
    ∃ i₀ ∈ items.instructions, i = i₀.mapRegisters a.rename := by
  obtain ⟨item, hitem, e⟩ := List.mem_map.1 (Stream.instr_mem_iff.2 h)
  have hitem := (List.mem_filter.1 hitem).1
  cases item <;> cases e
  exact ⟨_, Stream.instr_mem_iff.1 hitem, rfl⟩

theorem label_mem_apply {l : Label} (h : .label l ∈ items) : .label l ∈ a.apply (a.dropNoops items) :=
  List.mem_map.2 ⟨.label l, List.mem_filter.2 ⟨h, rfl⟩, rfl⟩

theorem closed_apply (h : items.Closed) : (a.apply (a.dropNoops items)).Closed := by
  intro i hi l hl
  obtain ⟨i₀, hi₀, rfl⟩ := mem_instructions_apply hi
  rw [Instr.target?_mapRegisters] at hl
  exact label_mem_apply (h i₀ hi₀ l hl)

end Allocation

/-! ## Compiled bodies -/

namespace Backend

variable {b : Backend} {f f' : Frame} {items allocated : Stream} {live : Liveness.Result} {u u' : Supply}
  {mapping : Allocation} {spilled : List Register} {q : Physical}

/-- The physical register is the place of no instruction's outcome. -/
structure Spared (mapping : Allocation) (q : Physical) (i : Instr) : Prop where
  conventional : i.Conventional
  physical : ∀ r ∈ i.mentions, r.isPhysical = true → mapping.rename r = r
  defines : ∀ d ∈ i.defines, mapping.rename d ≠ .physical q

theorem Spared.not_mem_changes {i : Instr} (h : Spared mapping q i) :
    .physical q ∉ Exec.changes (i.mapRegisters mapping.rename) := by
  rw [h.conventional.mapRegisters.mem_changes,
    Instr.defines_mapRegisters h.conventional.listsPhysical h.physical]
  intro hq
  obtain ⟨d, hd, e⟩ := List.mem_map.1 hq
  exact h.defines d hd e

/-- What is defined is virtual, or another register than `q`. -/
def Avoids (q : Physical) (items : Stream) : Prop :=
  ∀ i ∈ items.instructions, ∀ d ∈ i.defines, d.isPhysical = false ∨ d ≠ .physical q

theorem spared_of_lookup {i : Instr} (hi : i.Conventional)
    (hplaces : ∀ r ∈ i.mentions, ∃ p, mapping.lookup r = some p)
    (hphysical : ∀ p p', mapping.lookup (.physical p) = some p' → p' = p)
    (hvirtual : ∀ id, mapping.lookup (.virtual id) ≠ some q)
    (hdefines : ∀ d ∈ i.defines, d.isPhysical = false ∨ d ≠ .physical q) : Spared mapping q i := by
  have hrename : ∀ {r p}, mapping.lookup r = some p → mapping.rename r = .physical p := fun h => by
    rw [Allocation.rename, h]
  refine ⟨hi, fun r hr hp => ?_, fun d hd e => ?_⟩
  · obtain ⟨p, hp'⟩ := hplaces r hr
    cases r with
    | virtual id => cases hp
    | physical p₀ => rw [hrename hp', hphysical p₀ p hp']
  · obtain ⟨p, hp⟩ := hplaces d (List.mem_append_right _ hd)
    rw [hrename hp] at e
    obtain rfl : p = q := Register.physical.inj e
    cases d with
    | virtual id => exact hvirtual id hp
    | physical p₀ =>
      rw [hphysical p₀ p hp] at hdefines
      exact (hdefines _ hd).elim (fun h => by cases h) fun h => h rfl

section
variable (hcat : b.catalogue = Amd64.catalogue) (hitems : items.Assembled u.registers)
  (hlive : Liveness.analyze items = .ok live)
include hcat hitems hlive

/-- What an assignment provides: every register has a place, and physical ones are their
    own. -/
theorem places_of_assigns (h : Assigns b items live f u allocated mapping spilled f' u') :
    (∀ i ∈ allocated.instructions, i.Conventional ∧ ∀ r ∈ i.mentions, ∃ p, mapping.lookup r = some p) ∧
      (∀ p p', mapping.lookup (.physical p) = some p' → p' = p) ∧
      (∀ id p, mapping.lookup (.virtual id) = some p → p ∈ b.target.palette) := by
  cases h with
  | all hfull =>
    refine ⟨fun i hi => ⟨hitems.conventional i hi, fun r hr => ?_⟩, fun p p' hp => ?_,
      fun id p hp => color_virtual hp⟩
    · refine ((mem_registers_iff_color hlive).1
        (Stream.mem_registers.2 ⟨i, hi, hr⟩)).resolve_right fun hleft => ?_
      have hnil : (b.color ".Full" b.target.palette live).unassigned = [] := List.isEmpty_iff.1 hfull
      rw [hnil] at hleft
      cases hleft
    · have hr := (mem_registers_iff_color hlive).2 (Or.inl ⟨p', hp⟩)
      exact Option.some.inj (hp.symm.trans (color_physical hlive hr))
  | rest hfull hspill =>
    obtain ⟨-, hplaces, pieces, rfl, hpieces⟩ := spill_reduced hcat hitems hlive hspill
    refine ⟨fun i hi => ⟨?_, fun r hr => hplaces r (Stream.mem_registers.2 ⟨i, hi, hr⟩)⟩,
      fun p p' hp => lookup_physical_of_spill hcat hitems hlive hspill hp,
      fun id p hp => (List.mem_filter.1 (lookup_virtual_of_spill hcat hitems hlive hspill hp)).1⟩
    obtain ⟨i₀, hi₀, code, hcode, hmem⟩ := Spiller.mem_instructions_pieces hpieces hi
    exact (hcode.from (hitems.conventional i₀ hi₀)
      (Spiller.virtual_of_slot? (fun r hr => virtual_of_unassigned hlive hr) f) hmem).conventional

/-- What is defined was defined before, or is a scratch register. -/
theorem defines_of_assigns (h : Assigns b items live f u allocated mapping spilled f' u') {i : Instr}
    (hi : i ∈ allocated.instructions) {d : Register} (hd : d ∈ i.defines) :
    (∃ i₀ ∈ items.instructions, d ∈ i₀.defines) ∨ spilled ≠ [] ∧ ∃ p ∈ b.target.scratch, d = .physical p := by
  cases h with
  | all => exact Or.inl ⟨i, hi, hd⟩
  | rest hfull hspill =>
    obtain ⟨-, -, pieces, rfl, hpieces⟩ := spill_reduced hcat hitems hlive hspill
    obtain ⟨i₀, hi₀, code, hcode, hmem⟩ := Spiller.mem_instructions_pieces hpieces hi
    by_cases hnil : (b.reduced live).unassigned = []
    · rw [hnil] at hcode
      obtain rfl := hcode.eq_of_nil
      obtain rfl := List.mem_singleton.1 hmem
      exact Or.inl ⟨i, hi₀, hd⟩
    · have hfrom := hcode.from (hitems.conventional i₀ hi₀)
        (Spiller.virtual_of_slot? (fun r hr => virtual_of_unassigned hlive hr) f) hmem
      exact (hfrom.defines d hd).imp (fun hd => ⟨i₀, hi₀, hd⟩) fun hd => ⟨hnil, hd⟩

/-- A register that is neither defined nor handed out is spared. -/
theorem spared_of_assigns (h : Assigns b items live f u allocated mapping spilled f' u')
    (hdefines : Avoids q items) (hpalette : q ∉ b.target.palette)
    (hscratch : spilled = [] ∨ q ∉ b.target.scratch) : ∀ i ∈ allocated.instructions, Spared mapping q i := by
  intro i hi
  obtain ⟨hplaces, hphysical, hvirtual⟩ := places_of_assigns hcat hitems hlive h
  refine spared_of_lookup (hplaces i hi).1 (hplaces i hi).2 hphysical
    (fun id hp => hpalette (hvirtual id q hp)) fun d hd => ?_
  rcases defines_of_assigns hcat hitems hlive h hi hd with ⟨i₀, hi₀, hd⟩ | ⟨hne, p, hp, rfl⟩
  · exact hdefines i₀ hi₀ d hd
  · exact Or.inr fun e => hscratch.elim hne fun hq => hq (Register.physical.inj e ▸ hp)

/-- A register of the palette that is not in use is spared. -/
theorem spared_of_unused (h : Assigns b items live f u allocated mapping spilled f' u')
    (hq : q ∈ b.target.palette) (hunused : q ∉ mapping.used b.target.palette) :
    ∀ i ∈ allocated.instructions, Spared mapping q i := by
  intro i hi
  obtain ⟨hplaces, hphysical, -⟩ := places_of_assigns hcat hitems hlive h
  have hfree : ∀ r, mapping.lookup r ≠ some q := fun r hr => hunused (List.mem_filter.2 ⟨hq, by
    obtain ⟨l₁, l₂, e, -⟩ := List.lookup_eq_some_iff.1 hr
    simp [e]⟩)
  refine spared_of_lookup (hplaces i hi).1 (hplaces i hi).2 hphysical (fun id => hfree _) fun d hd => ?_
  refine Or.inr fun e => ?_
  obtain ⟨p, hp⟩ := (hplaces i hi).2 d (List.mem_append_right _ hd)
  rw [e] at hp
  exact hfree _ (hphysical q p hp ▸ hp)

/-- Jumps stay behind the entry label. -/
theorem closed_of_assigns {entry : Label} {rest rest' : Stream}
    (h : Assigns b items live f u allocated mapping spilled f' u')
    (hrest : items = Stream.front entry ++ rest) (hclosed : rest.Closed)
    (hrest' : allocated = Stream.front entry ++ rest')
    (hlabels : rest'.filterMap Item.label? = rest.filterMap Item.label?) : rest'.Closed := by
  intro i hi l hl
  rw [Stream.label_mem_iff, hlabels, ← Stream.label_mem_iff]
  have hi : i ∈ allocated.instructions := hrest' ▸ Stream.mem_instructions_append.2 (Or.inr hi)
  have hbehind : ∀ i₀ ∈ items.instructions, i₀.target? = some l → .label l ∈ rest := fun i₀ hi₀ hl => by
    rw [hrest, Stream.mem_instructions_append, Stream.instructions_front] at hi₀
    exact hclosed i₀ (hi₀.resolve_left (List.not_mem_nil)) l hl
  cases h with
  | all => exact hbehind i hi hl
  | rest hfull hspill =>
    obtain ⟨-, -, pieces, e, hpieces⟩ := spill_reduced hcat hitems hlive hspill
    rw [e] at hi
    obtain ⟨i₀, hi₀, code, hcode, hmem⟩ := Spiller.mem_instructions_pieces hpieces hi
    have hfrom := hcode.from (hitems.conventional i₀ hi₀)
      (Spiller.virtual_of_slot? (fun r hr => virtual_of_unassigned hlive hr) f) hmem
    exact hbehind i₀ hi₀ (hfrom.target l hl)

end

theorem exists_rest_of_assigns {entry : Label} {rest : Stream}
    (h : Assigns b items live f u allocated mapping spilled f' u')
    (hrest : items = Stream.front entry ++ rest) :
    ∃ rest', allocated = Stream.front entry ++ rest' ∧
      rest'.filterMap Item.label? = rest.filterMap Item.label? := by
  cases h with
  | all => exact ⟨rest, hrest, rfl⟩
  | rest hfull hspill =>
    obtain ⟨pieces, rfl, hpieces⟩ := Spiller.expands_of_spill hspill
    exact Stream.exists_rest_of_expands (hrest ▸ hpieces)

/-- **The stream of a body.**  If no label stands twice in it, its jumps stay behind the
    entry label, and a register that is neither written nor handed out stays as it is. -/
theorem body_of_compile {body : Flow} {s s' : Session} {res : Compiled}
    (hcat : b.catalogue = Amd64.catalogue) (hbody : body.Known s.supply.registers)
    (h : b.compile body.enterThrough f s = .ok (res, f') s') :
    ∃ rest, res.physical = Stream.front f.label ++ rest ∧
      ((res.physical.filterMap Item.label?).Nodup → rest.Closed ∧
        ∀ q : Physical, .physical q ∉ Amd64.callerSaved → q ∉ b.target.palette → q ∉ b.target.scratch →
          ¬ body.Writes (.physical q) → ∀ i ∈ rest.instructions, .physical q ∉ Exec.changes i) := by
  obtain ⟨g, items, u, live, hg, hlayout, hlive, hassigns, hitems⟩ := compile_eq_ok h
  rw [hcat] at hlayout
  have hknown : g.Known s.supply.registers := hbody.enterThrough.compress hg
  obtain ⟨pieces, labels, rfl, harranged, -⟩ :=
    Layout.arranged_of_layout (Amd64.steady_coverer hknown) (Nat.le_refl _) hlayout
  obtain ⟨rest, hrest, hclosed⟩ := harranged.exists_rest hknown (Nat.le_refl _)
    (Flow.successors_compress hg (Flow.root_enterThrough body))
  obtain ⟨rest', hrest', hlabels⟩ := exists_rest_of_assigns hassigns hrest
  have hphysical : res.physical = Stream.front f.label ++ res.mapping.apply (res.mapping.dropNoops rest') := by
    rw [Compiled.physical, hitems, hrest', Allocation.apply_dropNoops_append,
      Allocation.apply_dropNoops_front]
  refine ⟨_, hphysical, fun hnodup => ?_⟩
  have hassembled := harranged.assembled hknown (Nat.le_refl _) (by
    rw [hrest, List.filterMap_append, ← hlabels]
    rwa [hphysical, List.filterMap_append, Allocation.labels_apply_dropNoops] at hnodup)
  refine ⟨Allocation.closed_apply
    (closed_of_assigns hcat hassembled hlive hassigns hrest hclosed hrest' hlabels), ?_⟩
  intro q hcalls hpalette hscratch hwrites i hi
  obtain ⟨i₀, hi₀, rfl⟩ := Allocation.mem_instructions_apply hi
  have havoids : Avoids q (Layout.stream pieces) := fun i hi d hd => by
    rcases harranged.mem_defines hknown (Nat.le_refl _) hi hd with hd | hd | hd
    · exact Or.inl hd
    · exact Or.inr fun e => hcalls (e ▸ hd)
    · exact Or.inr fun e => hwrites (e ▸ (hd.of_compress hg).of_enterThrough)
  refine (spared_of_assigns hcat hassembled hlive hassigns havoids hpalette (Or.inr hscratch) i₀ ?_).not_mem_changes
  exact hrest' ▸ Stream.mem_instructions_append.2 (Or.inr hi₀)

end Backend

end Codegen
