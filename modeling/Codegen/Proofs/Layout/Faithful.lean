/-
  Layouts are faithful, whatever covers the blocks.

  Every reachable block is covered once, by a call that is given the labels of the
  blocks that control continues with, and its code stands in one piece.  A label stands
  once, right before the code of its block.  The root comes first, with a label if the
  graph has an entry label or some block continues with the root (`layout_faithful`).
  The coverer may draw names of its own.
-/
import Codegen.Proofs.Flow.Trace
import Codegen.Proofs.Layout.Walk

namespace Codegen

/-- A coverer draws names from the supply and never gives one back. -/
structure Coverer.Draws (cover : Coverer) : Prop where
  sequence : ∀ {i body l u code u'}, cover.sequence i body l u = .ok code u' → u.Later u'
  branch : ∀ {i cond lt lf u code u'}, cover.branch i cond lt lf u = .ok code u' → u.Later u'

/-- The coverer has code for the block of a number, whatever labels it is given. -/
def Coverer.Returns {ι : Type} (cover : Coverer) (i : Nat) : Block ι → Prop
  | .straight body _ => ∀ l u, ∃ code u', cover.sequence i body l u = .ok code u'
  | .branch cond _ _ => ∀ lt lf u, ∃ code u', cover.branch i cond lt lf u = .ok code u'

/-- A label stands in a stream as often as it is among its labels. -/
theorem Stream.count_label (items : Stream) (l : Label) :
    items.count (.label l) = (items.filterMap Item.label?).count l := by
  induction items with
  | nil => rfl
  | cons item items ih =>
    cases item with
    | label l' =>
      have hlabel : Item.label? (.label l') = some l' := rfl
      rw [List.filterMap_cons_some hlabel, List.count_cons, List.count_cons, ih]
      simp
    | instr i =>
      have hne : Item.instr i ≠ Item.label l := nofun
      rw [List.filterMap_cons_none rfl, List.count_cons_of_ne hne, ih]
    | stray r =>
      have hne : Item.stray r ≠ Item.label l := nofun
      rw [List.filterMap_cons_none rfl, List.count_cons_of_ne hne, ih]

namespace Layout

variable {g : Flow} {cover : Coverer} {entry : Label} {labels : Labels g.size} {u u' : Supply}
  {pieces : List (Piece g.size)}

/-- The pieces lay the graph out as it is. -/
structure Faithful (g : Flow) (cover : Coverer) (entry : Label) (u u' : Supply)
    (labels : Labels g.size) (pieces : List (Piece g.size)) : Prop where
  /-- There is one piece for each reachable block. -/
  once : (pieces.map Piece.block).Perm g.reachable
  /-- The coverer is called once for each piece, with the labels of its successors. -/
  calls : Calls g cover labels u pieces u'
  /-- No label stands twice. -/
  distinct : ((stream pieces).filterMap Item.label?).Nodup
  /-- The label of a successor stands once, right before the code of the successor. -/
  placed : ∀ p ∈ pieces, ∀ b ∈ g.successors p.block, ∃ q ∈ pieces, b = some q.block ∧
    ∃ l, labels.lookup b = some l ∧ l ≠ Label.none ∧ q.front = some l ∧
      (stream pieces).count (.label l) = 1
  /-- The root comes first, with a label if there is an entry label or some block
      continues with the root. -/
  first : ∃ p rest, pieces = p :: rest ∧ g.root = some p.block ∧
    (p.front.isSome = true ↔ entry ≠ Label.none ∨ ∃ i ∈ g.reachable, g.root ∈ g.successors i) ∧
    (entry ≠ Label.none → p.front = some entry)

theorem Arranged.perm_reachable (h : Arranged g cover entry labels u u' pieces) :
    (pieces.map Piece.block).Perm g.reachable := by
  refine (List.perm_ext_iff_of_nodup h.once (Flow.nodup_reachable g)).2 fun j => ?_
  rw [Flow.mem_reachable]
  constructor
  · intro hj
    obtain ⟨p, hp, rfl⟩ := List.mem_map.1 hj
    exact h.reached p hp
  · rintro ⟨n, hn⟩
    induction hn with
    | root hr =>
      obtain ⟨root, hroot, p, rest, rfl, hp⟩ := h.first
      cases hr.symm.trans hroot
      exact hp ▸ List.mem_cons_self
    | step _ hj ih =>
      obtain ⟨p, hp, rfl⟩ := List.mem_map.1 ih
      obtain ⟨j, e, hmem⟩ := h.closed p hp _ hj
      cases e
      exact hmem

/-- Every successor of a piece has a label. -/
theorem CallOf.exists_label {i : Fin g.size} {code : List Instr}
    (h : CallOf g cover labels i code u u') :
    ∀ b ∈ g.successors i, ∃ l, labels.lookup b = some l := by
  intro b hb
  cases h with
  | last hi => rw [Flow.successors, hi] at hb; cases hb
  | next hi hl =>
    rw [Flow.successors, hi] at hb
    rw [List.mem_singleton.1 hb]
    exact ⟨_, hl⟩
  | branch hi ht hf =>
    rw [Flow.successors, hi] at hb
    simp only [Block.successors, List.mem_cons, List.not_mem_nil, or_false] at hb
    rcases hb with rfl | rfl
    · exact ⟨_, ht⟩
    · exact ⟨_, hf⟩

theorem Calls.callOf (h : Calls g cover labels u pieces u') :
    ∀ p ∈ pieces, ∃ u₁ u₂, CallOf g cover labels p.block p.code u₁ u₂ := by
  induction h with
  | nil => exact fun _ hp => by cases hp
  | cons _ _ hcall _ ih =>
    intro p hp
    rcases List.mem_cons.1 hp with rfl | hp
    · exact ⟨_, _, hcall⟩
    · exact ih p hp

/-- The root has a label in front if one was given to it. -/
theorem Arranged.front_root {root : Fin g.size} (h : Arranged g cover entry labels u u' pieces)
    (hroot : g.root = some root) :
    (labels.lookup (some root)).isSome = true ↔
      entry ≠ Label.none ∨ ∃ i ∈ g.reachable, g.root ∈ g.successors i := by
  constructor
  · intro hsome
    obtain ⟨l, hl⟩ := Option.isSome_iff_exists.1 hsome
    rcases h.given _ l hl with ⟨hne, -⟩ | ⟨p, hp, hmem⟩
    · exact Or.inl hne
    · exact Or.inr ⟨p.block, Flow.mem_reachable.2 (h.reached p hp), hroot ▸ hmem⟩
  · rintro (hne | ⟨i, hi, hmem⟩)
    · rw [← hroot, h.entered hne]; rfl
    · obtain ⟨p, hp, rfl⟩ := List.mem_map.1 (h.perm_reachable.mem_iff.2 hi)
      obtain ⟨u₁, u₂, hcall⟩ := h.calls.callOf p hp
      obtain ⟨l, hl⟩ := hcall.exists_label _ hmem
      rw [← hroot, hl]; rfl

theorem LaidOut.faithful (h : LaidOut g cover entry labels u u' pieces) :
    Faithful g cover entry u u' labels pieces where
  once := h.perm_reachable
  calls := h.calls
  distinct := h.nodup_labels
  placed := by
    intro p hp b hb
    obtain ⟨j, rfl, hj⟩ := h.closed p hp b hb
    obtain ⟨q, hq, rfl⟩ := List.mem_map.1 hj
    obtain ⟨u₁, u₂, hcall⟩ := h.calls.callOf p hp
    obtain ⟨l, hl⟩ := hcall.exists_label _ hb
    refine ⟨q, hq, rfl, l, hl, h.distinct.named hl, (h.fronts q hq).trans hl, ?_⟩
    rw [Stream.count_label]
    refine List.count_eq_one_of_mem h.nodup_labels ?_
    exact List.mem_filterMap.2 ⟨.label l, h.label_mem_stream hj hl, rfl⟩
  first := by
    obtain ⟨root, hroot, p, rest, rfl, rfl⟩ := h.first
    refine ⟨p, rest, rfl, hroot, ?_, fun hne => ?_⟩
    · rw [h.fronts p List.mem_cons_self]
      exact h.front_root hroot
    · rw [h.fronts p List.mem_cons_self, ← hroot]
      exact h.entered hne

/-- **A graph is laid out faithfully by any coverer.**  The layout succeeds if the
    coverer has code for every reachable block. -/
theorem layout_faithful (g : Flow) (cover : Coverer) (entry : Label) (u : Supply)
    (hcover : cover.Draws) (harms : g.HasArms) (hroot : g.root.isSome = true)
    (hentry : ∀ k, entry ≠ Label.generated k) :
    ((∀ i ∈ g.reachable, cover.Returns i (g.block i)) →
        ∃ items u', g.layout cover entry u = .ok items u') ∧
      ∀ items u', g.layout cover entry u = .ok items u' →
        ∃ labels pieces, items = stream pieces ∧ Faithful g cover entry u u' labels pieces := by
  have hsteady : Steady cover g 0 :=
    ⟨fun _ _ _ _ _ _ h => hcover.sequence h, fun _ _ _ _ _ _ _ h => hcover.branch h⟩
  constructor
  · intro hreturns
    refine exists_layout hsteady ⟨fun hi hblock l u _ => ?_, fun hi hblock lt lf u _ => ?_⟩ harms
      hroot entry (Nat.zero_le _)
    · have h := hreturns _ (Flow.mem_reachable.2 hi)
      rw [hblock] at h
      exact h l u
    · have h := hreturns _ (Flow.mem_reachable.2 hi)
      rw [hblock] at h
      exact h lt lf u
  · intro items u' hlayout
    obtain ⟨pieces, labels, hitems, h⟩ := laidOut_of_layout hsteady hentry (Nat.zero_le _) hlayout
    exact ⟨labels, pieces, hitems, h.faithful⟩

/-- A coverer that draws a register and a label for each block, and only jumps. -/
def jumpCoverer : Coverer where
  sequence _ _ next := do
    let r ← Fresh.register
    let _ ← Fresh.label
    return [.clear r, .jmp next]
  branch _ _ onTrue onFalse := do
    let r ← Fresh.register
    return [.binary "cmp" (.reg r) (.imm 0), .jcc "ne" onTrue, .jmp onFalse]

theorem draws_jumpCoverer : jumpCoverer.Draws :=
  ⟨fun h => by cases h; exact ⟨Nat.le_succ _, Nat.le_succ _⟩,
    fun h => by cases h; exact ⟨Nat.le_succ _, Nat.le_refl _⟩⟩

theorem layout_faithful_loop : ∃ items u',
    Flow.loopSample.layout jumpCoverer "main" ⟨0, 0⟩ = .ok items u' ∧
      ∃ labels pieces, items = stream pieces ∧
        Faithful Flow.loopSample jumpCoverer "main" ⟨0, 0⟩ u' labels pieces := by
  have hentry : ∀ k, ("main" : Label) ≠ Label.generated k := Label.ne_generated (by decide)
  have hreturns :
      ∀ i ∈ Flow.loopSample.reachable, jumpCoverer.Returns i (Flow.loopSample.block i) := by
    intro i _
    cases Flow.loopSample.block i with
    | straight body next => exact fun l u => ⟨_, _, rfl⟩
    | branch cond t f => exact fun lt lf u => ⟨_, _, rfl⟩
  obtain ⟨hexists, hfaithful⟩ := layout_faithful Flow.loopSample jumpCoverer "main" ⟨0, 0⟩
    draws_jumpCoverer Flow.hasArms_loopSample rfl hentry
  obtain ⟨items, u', hlayout⟩ := hexists hreturns
  exact ⟨items, u', hlayout, hfaithful items u' hlayout⟩

end Layout

end Codegen
