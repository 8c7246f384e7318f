/-
  When the checks find nothing.

  A stream whose labels are in order, with a place for every register and different
  places for registers that are live together, has no issues (`lint_eq_nil`).
-/
import Codegen.Lint
import Codegen.Proofs.Liveness.Exact
import Codegen.Proofs.Spill.Complete

namespace Codegen

namespace Lint

variable {items : Stream} {a : Allocation} {palette : List Physical} {u : Mention} {l : Label}

theorem mem_mentions_of_firstMentions (h : u ∈ firstMentions items) : u ∈ mentions items := by
  have key : ∀ us seen : List Mention,
      u ∈ List.eraseDupsBy.loop (fun a b : Mention => decide (a.register = b.register)) us seen →
        u ∈ us ∨ u ∈ seen := by
    intro us
    induction us with
    | nil => exact fun seen h => Or.inr (List.mem_reverse.1 h)
    | cons x us ih =>
      intro seen h
      rw [List.eraseDupsBy.loop] at h
      split at h
      · exact (ih seen h).imp_left (List.mem_cons_of_mem _)
      · rcases ih (x :: seen) h with h | h
        · exact Or.inl (List.mem_cons_of_mem _ h)
        · rcases List.mem_cons.1 h with rfl | h
          · exact Or.inl List.mem_cons_self
          · exact Or.inr h
  exact (key _ _ h).resolve_right (by simp)

/-- What is mentioned is a register of the stream. -/
theorem mem_registers_of_firstMentions (h : u ∈ firstMentions items) : u.register ∈ items.registers := by
  obtain ⟨⟨item, k⟩, hitem, hu⟩ := List.mem_flatMap.1 (mem_mentions_of_firstMentions h)
  have hitem := List.mem_of_getElem? (List.mem_zipIdx_iff_getElem?.1 hitem)
  cases item with
  | instr i =>
    obtain ⟨r, hr, rfl⟩ := List.mem_map.1 hu
    exact Stream.mem_registers.2 ⟨i, List.mem_filterMap.2 ⟨_, hitem, rfl⟩, List.mem_eraseDups.1 hr⟩
  | label l => cases hu
  | stray r => cases hu

theorem checkMapping_eq_nil (hplaced : ∀ r ∈ items.registers, ∃ p, a.lookup r = some p ∧
    (∀ q, r = .physical q → p = q) ∧ ∀ id, r = .virtual id → p ∈ palette) :
    checkMapping items a palette = [] := by
  refine List.filterMap_eq_nil_iff.2 fun u hu => ?_
  obtain ⟨p, hp, hown, hpalette⟩ := hplaced u.register (mem_registers_of_firstMentions hu)
  unfold checkRegister
  rw [hp]
  cases hr : u.register with
  | physical q => simp only [hown q hr, if_true]
  | virtual id => simp [hpalette id hr]

theorem firstDefinition?_isSome (h : .label l ∈ items) : ∃ k, firstDefinition? items l = some k := by
  obtain ⟨k, hk⟩ := Option.isSome_iff_exists.1 (List.isSome_idxOf?.2 h)
  exact ⟨k, hk⟩

theorem checkLabels_eq_nil (hlabels : (items.filterMap Item.label?).Nodup)
    (htargets : ∀ i ∈ items.instructions, ∀ l, i.target? = some l → .label l ∈ items) :
    checkLabels items = [] := by
  refine List.append_eq_nil_iff.2 ⟨List.filterMap_eq_nil_iff.2 ?_, List.filterMap_eq_nil_iff.2 ?_⟩
  · rintro ⟨item, k⟩ hitem
    have hk := List.mem_zipIdx_iff_getElem?.1 hitem
    cases item with
    | instr i => rfl
    | stray r => rfl
    | label l =>
      obtain ⟨first, hfirst⟩ := firstDefinition?_isSome (List.mem_of_getElem? hk)
      obtain ⟨hlt, he, -⟩ := List.idxOf?_eq_some_iff.1 hfirst
      have hsame : first = k := Stream.eq_of_label hlabels
        ((List.getElem?_eq_getElem hlt).trans (congrArg some he)) hk
      simp [checkDefinition, hfirst, hsame]
  · rintro ⟨item, k⟩ hitem
    have hmem := List.mem_of_getElem? (List.mem_zipIdx_iff_getElem?.1 hitem)
    cases item with
    | label l => rfl
    | stray r => rfl
    | instr i =>
      cases hl : i.target? with
      | none => simp [checkTarget, hl]
      | some l =>
        obtain ⟨first, hfirst⟩ := firstDefinition?_isSome
          (htargets i (List.mem_filterMap.2 ⟨_, hmem, rfl⟩) l hl)
        simp [checkTarget, hl, hfirst]

end Lint

/-- **A stream in order with registers kept apart has no issues.** -/
theorem lint_eq_nil {items : Stream} {a : Allocation} {palette : List Physical}
    (hclean : ∀ r, .stray r ∉ items) (hlabels : (items.filterMap Item.label?).Nodup)
    (htargets : ∀ i ∈ items.instructions, ∀ l, i.target? = some l → .label l ∈ items)
    (hplaced : ∀ r ∈ items.registers, ∃ p, a.lookup r = some p ∧
      (∀ q, r = .physical q → p = q) ∧ ∀ id, r = .virtual id → p ∈ palette)
    (hapart : ∀ {k i x y p}, items[k]? = some (.instr i) → Liveness.Clashes i (items.LiveOut k) x y →
      a.lookup x = some p → a.lookup y ≠ some p) :
    lint items a palette = .ok [] := by
  obtain ⟨result, hresult⟩ := Liveness.exists_analyze hclean htargets
  obtain ⟨hlinked, -⟩ := Liveness.analyze_eq_ok hresult hlabels
  have hedges : result.interference.edgeList.filterMap (Lint.checkEdge a) = [] := by
    refine List.filterMap_eq_nil_iff.2 fun e he => ?_
    obtain ⟨k, i, hk, h⟩ := (hlinked _ _).1 (Graph.linked_of_mem_edgeList he)
    have hne : ∀ p, a.lookup e.1 = some p → a.lookup e.2 ≠ some p := fun p hp hp' =>
      h.elim (fun h => hapart hk h hp hp') fun h => hapart hk h hp' hp
    unfold Lint.checkEdge
    cases hx : a.lookup e.1 with
    | none => rfl
    | some p =>
      cases hy : a.lookup e.2 with
      | none => rfl
      | some q =>
        refine if_neg fun hpq => hne p hx ?_
        rw [hy, hpq]
  unfold lint
  simp only [Lint.checkMapping_eq_nil hplaced, Lint.checkLabels_eq_nil hlabels htargets]
  exact Except.bind_eq_ok.2 ⟨[], Except.bind_eq_ok.2 ⟨result, hresult, congrArg Except.ok hedges⟩, rfl⟩

end Codegen
