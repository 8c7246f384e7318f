/-
  What the stream of a graph consists of, whatever the graph computes.

  The calls and returns of the stream follow the convention, its registers were
  drawn from the supply, and every jump goes to a label that stands in it once
  (`assembled_layout`).  The registers of the graph need to be known beforehand;
  compression keeps that.
-/
import Codegen.Proofs.Layout.Walk
import Codegen.Proofs.Meaning.Compress
import Codegen.Proofs.Selection.Plain

namespace Codegen

/-- Some operation of the graph writes the register. -/
def Flow.Writes (g : Flow) (r : Register) : Prop :=
  ∃ i body next, g.block i = .straight body next ∧ ∃ op ∈ body, op.Writes r

/-- The virtual registers of the graph are among the first `known`. -/
structure Flow.Known (g : Flow) (known : Nat) : Prop where
  operations : ∀ i body next, g.block i = .straight body next → ∀ op ∈ body, op.Known known
  conditions : ∀ i cond t f, g.block i = .branch cond t f → ∀ r ∈ cond.reads, r.Known known

theorem Flow.Known.compress {g g' : Flow} {known : Nat} (hg : g.Known known) (h : g.compress = .ok g') :
    g'.Known known where
  operations := operations_compress h hg.operations
  conditions := branches_compress (Q := fun cond _ _ => ∀ r ∈ cond.reads, r.Known known) h hg.conditions

theorem Stmt.Sound.known {known : Nat} {reserved : List Physical} {op : Stmt}
    (h : op.Sound known reserved) : op.Known known where
  reads v hv _ hr id e := h.values.known v hv id (e ▸ hr)
  writes r v e id hid := (h.written r v e).2.1 id hid

theorem Flow.Sound.known {g : Flow} {known : Nat} {reserved : List Physical}
    (hg : g.Sound known reserved) : g.Known known where
  operations i body next hi op hop := (hg.operations i body next hi op hop).known
  conditions i cond t f hi _ hr id e :=
    (hg.conditions i cond t f hi).known cond List.mem_cons_self id (e ▸ hr)

/-- A stream whose registers are among the first `supply`, and whose jumps can be
    followed. -/
structure Stream.Assembled (supply : Nat) (items : Stream) : Prop where
  clean : ∀ r, .stray r ∉ items
  conventional : ∀ i ∈ items.instructions, i.Conventional
  known : ∀ i ∈ items.instructions, ∀ r ∈ i.mentions, r.Known supply
  labels : (items.filterMap Item.label?).Nodup
  targets : ∀ i ∈ items.instructions, ∀ l, i.target? = some l → .label l ∈ items

theorem Stream.Assembled.known_registers {supply : Nat} {items : Stream} (h : items.Assembled supply) :
    ∀ r ∈ items.registers, r.Known supply := by
  intro r hr
  obtain ⟨i, hi, hr⟩ := List.mem_flatMap.1 (List.mem_eraseDups.1 hr)
  exact h.known i hi r hr

namespace Amd64

variable {known : Nat} {g : Flow} {ops : List Stmt} {l : Label} {u u' : Supply} {code : List Instr}

/-- The code of a sequential block is plain, but for a jump at its end. -/
theorem generated_coverSequence (hops : ∀ op ∈ ops, op.Known u.registers)
    (h : catalogue.coverSequence ops l u = .ok code u') :
    ∃ c, code = c ++ jumpTo l ∧ Generated (fun r => ∃ op ∈ ops, op.Writes r) u u' c := by
  obtain ⟨c, u₁, hc, h⟩ := EStateM.bind_eq_ok.1 h
  cases h
  exact ⟨c, rfl, generated_coverStmts hops hc⟩

/-- Covering blocks over known registers draws from the supply. -/
theorem steady_coverer (hg : g.Known known) : Layout.Steady catalogue.coverer g known := by
  constructor
  · intro i body next hi l u code u' hu hcode
    obtain ⟨c, -, hc⟩ := generated_coverSequence
      (fun op hop => (hg.operations i body next hi op hop).mono hu) hcode
    exact ⟨hc.grows, Nat.le_of_eq hc.labels.symm⟩
  · intro i cond t f hi lt lf u code u' hu hcode
    obtain ⟨pre, cc, -, hpre⟩ := generated_coverBranch
      (fun r hr => (hg.conditions i cond t f hi r hr).mono hu) hcode
    exact ⟨hpre.grows, Nat.le_of_eq hpre.labels.symm⟩

end Amd64

namespace Layout

open Amd64

variable {known : Nat} {g : Flow} {entry : Label} {labels : Labels g.size} {u u' : Supply}
  {pieces : List (Piece g.size)} {i : Instr}

/-- What the code of a piece consists of: plain code, and jumps to the blocks that control
    continues with. -/
theorem Arranged.mem_piece (h : Arranged g catalogue.coverer entry labels u u' pieces)
    (hg : g.Known known) (hu : known ≤ u.registers) {p : Piece g.size} (hp : p ∈ pieces)
    (hi : i ∈ p.code) :
    (i.Plain u'.registers ∧
        ∀ d ∈ i.defines, d.isPhysical = false ∨ d ∈ callerSaved ∨ g.Writes d) ∨
      ∃ b l, b ∈ g.successors p.block ∧ labels.lookup b = some l ∧ (i = .jmp l ∨ ∃ cc, i = .jcc cc l) := by
  have hplain : ∀ {written : Register → Prop} {u₁ u₂ : Supply} {c : List Instr}, Generated written u₁ u₂ c →
      u₂.Later u' → (∀ r, written r → g.Writes r) → i ∈ c → i.Plain u'.registers ∧
        ∀ d ∈ i.defines, d.isPhysical = false ∨ d ∈ callerSaved ∨ g.Writes d :=
    fun hc h₂ hw hi => ⟨(hc.plain i hi).mono h₂.registers, (hc.mono hw).defines i hi⟩
  obtain ⟨u₁, u₂, h₁, hcall, h₂⟩ := h.covered p hp
  cases hcall with
  | @last body hblock hcover =>
    obtain ⟨c, e, hc⟩ := generated_coverSequence (fun op hop =>
      (hg.operations _ body none hblock op hop).mono (Nat.le_trans hu h₁.registers)) hcover
    rw [e, jumpTo, if_pos rfl, List.append_nil] at hi
    exact Or.inl (hplain hc h₂ (fun r ⟨op, hop, hr⟩ => ⟨_, _, _, hblock, op, hop, hr⟩) hi)
  | @next body j l hblock hl hcover =>
    obtain ⟨c, e, hc⟩ := generated_coverSequence (fun op hop =>
      (hg.operations _ body (some j) hblock op hop).mono (Nat.le_trans hu h₁.registers)) hcover
    rw [e, List.mem_append] at hi
    rcases hi with hi | hi
    · exact Or.inl (hplain hc h₂ (fun r ⟨op, hop, hr⟩ => ⟨_, _, _, hblock, op, hop, hr⟩) hi)
    · refine Or.inr ⟨some j, l, ?_, hl, Or.inl (eq_jmp_of_mem_jumpTo hi)⟩
      rw [Flow.successors, hblock]
      exact List.mem_cons_self
  | @branch cond t f lt lf hblock hlt hlf hcover =>
    obtain ⟨pre, cc, e, hpre⟩ := generated_coverBranch (fun r hr =>
      (hg.conditions _ cond t f hblock r hr).mono (Nat.le_trans hu h₁.registers)) hcover
    have hsucc : g.successors p.block = [t, f] := by rw [Flow.successors, hblock]; rfl
    rw [e] at hi
    simp only [List.mem_append, List.mem_cons, List.not_mem_nil, or_false] at hi
    rcases hi with hi | rfl | rfl
    · exact Or.inl (hplain hpre h₂ (fun _ => False.elim) hi)
    · exact Or.inr ⟨t, lt, by simp [hsucc], hlt, Or.inr ⟨cc, rfl⟩⟩
    · exact Or.inr ⟨f, lf, by simp [hsucc], hlf, Or.inl rfl⟩

/-- The target of a jump is the label of a block that control continues with. -/
theorem Arranged.exists_target (h : Arranged g catalogue.coverer entry labels u u' pieces)
    (hg : g.Known known) (hu : known ≤ u.registers) {l : Label}
    (hi : i ∈ (stream pieces).instructions) (hl : i.target? = some l) :
    ∃ p ∈ pieces, ∃ j, some j ∈ g.successors p.block ∧ j ∈ pieces.map Piece.block ∧
      labels.lookup (some j) = some l := by
  obtain ⟨p, hp, hi⟩ := Arranged.mem_instructions_stream hi
  rcases h.mem_piece hg hu hp hi with ⟨hplain, -⟩ | ⟨b, l', hb, hlookup, e⟩
  · rw [hplain.noTarget] at hl
    cases hl
  · obtain ⟨j, rfl, hj⟩ := h.closed p hp b hb
    obtain rfl : l' = l := by rcases e with rfl | ⟨cc, rfl⟩ <;> cases hl <;> rfl
    exact ⟨p, hp, j, hb, hj, hlookup⟩

theorem clean_stream (pieces : List (Piece g.size)) (r : Register) : .stray r ∉ stream pieces := by
  intro hr
  obtain ⟨p, -, hr⟩ := List.mem_flatMap.1 hr
  simp [Piece.items] at hr

/-- The instructions of the pieces are conventional, and their registers were drawn. -/
theorem Arranged.conventional_known (h : Arranged g catalogue.coverer entry labels u u' pieces)
    (hg : g.Known known) (hu : known ≤ u.registers) (hi : i ∈ (stream pieces).instructions) :
    i.Conventional ∧ ∀ r ∈ i.mentions, r.Known u'.registers := by
  obtain ⟨p, hp, hi⟩ := Arranged.mem_instructions_stream hi
  rcases h.mem_piece hg hu hp hi with ⟨hi, -⟩ | ⟨b, l, -, -, rfl | ⟨cc, rfl⟩⟩
  · exact ⟨hi.conventional, hi.known⟩
  · exact ⟨⟨trivial, trivial⟩, List.forall_mem_nil _⟩
  · exact ⟨⟨trivial, trivial⟩, List.forall_mem_nil _⟩

/-- The pieces of a graph over known registers are assembled, if no label stands twice. -/
theorem Arranged.assembled (h : Arranged g catalogue.coverer entry labels u u' pieces)
    (hg : g.Known known) (hu : known ≤ u.registers)
    (hlabels : ((stream pieces).filterMap Item.label?).Nodup) :
    (stream pieces).Assembled u'.registers where
  clean := clean_stream pieces
  conventional i hi := (h.conventional_known hg hu hi).1
  known i hi := (h.conventional_known hg hu hi).2
  labels := hlabels
  targets i hi l hl := by
    obtain ⟨p, -, j, -, hj, hlookup⟩ := h.exists_target hg hu hi hl
    exact h.label_mem_stream hj hlookup

/-- The instructions of a graph over known registers are conventional, whatever its entry
    label is. -/
theorem conventional_layout {items : Stream} (hg : g.Known known) (hu : known ≤ u.registers)
    (h : g.layout catalogue.coverer entry u = .ok items u') :
    ∀ i ∈ items.instructions, i.Conventional ∧ ∀ r ∈ i.mentions, r.Known u'.registers := by
  obtain ⟨pieces, labels, rfl, harranged, -⟩ := arranged_of_layout (steady_coverer hg) hu h
  exact fun i hi => harranged.conventional_known hg hu hi

/-- **The stream of a graph over known registers is assembled.** -/
theorem assembled_layout {items : Stream} (hg : g.Known known) (hu : known ≤ u.registers)
    (hentry : ∀ k, entry ≠ Label.generated k)
    (h : g.layout catalogue.coverer entry u = .ok items u') :
    u.Later u' ∧ items.Assembled u'.registers := by
  obtain ⟨pieces, labels, rfl, hlaid⟩ := laidOut_of_layout (steady_coverer hg) hentry hu h
  exact ⟨hlaid.later, hlaid.assembled hg hu hlaid.nodup_labels⟩

end Layout

end Codegen
