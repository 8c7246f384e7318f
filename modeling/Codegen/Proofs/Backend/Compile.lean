/-
  The passes of a compilation.

  A compilation that succeeds went through its passes one after the other
  (`compile_eq_ok`): compression, layout, analysis, coloring, and spilling if the
  palette did not suffice.  Records and displays leave the supply as it is.
-/
import Codegen.Backend
import Codegen.Proofs.Outcomes
import Codegen.Proofs.Spill.Complete

namespace Codegen

namespace Build

variable {α : Type} {s s' : Session} {a : α}

theorem fresh_eq_ok {x : Fresh α} :
    fresh x s = .ok a s' ↔ ∃ u, x s.supply = .ok a u ∧ s' = { s with supply := u } := by
  unfold fresh
  cases x s.supply with
  | ok b u =>
    constructor
    · intro h; cases h; exact ⟨u, rfl, rfl⟩
    · rintro ⟨u', h, rfl⟩; cases h; rfl
  | error e u =>
    constructor
    · intro h; cases h
    · rintro ⟨u', h, -⟩; cases h

theorem ofExcept_eq_ok {x : Except Fault α} : ofExcept x s = .ok a s' ↔ x = .ok a ∧ s' = s := by
  rw [ofExcept, fresh_eq_ok]
  constructor
  · rintro ⟨u, hu, rfl⟩
    obtain ⟨hx, rfl⟩ := Fresh.ofExcept_eq_ok.1 hu
    exact ⟨hx, rfl⟩
  · rintro ⟨hx, rfl⟩
    exact ⟨_, Fresh.ofExcept_eq_ok.2 ⟨hx, rfl⟩, rfl⟩

/-- Records do not touch the supply. -/
theorem supply_trace {message : String} {fields : List (String × String)}
    (h : trace message fields s = .ok () s') : s'.supply = s.supply := by
  cases h
  rfl

/-- What is displayed does not touch the supply. -/
theorem supply_display {text : Unit → Except Fault String} (h : display text s = .ok () s') :
    s'.supply = s.supply := by
  unfold display at h
  obtain ⟨s₁, s₂, hget, hrest⟩ := EStateM.bind_eq_ok.1 h
  cases hget
  cases hv : s.verbose with
  | false => simp only [hv] at hrest; cases hrest; rfl
  | true =>
    simp only [hv, if_true] at hrest
    obtain ⟨t, s₃, ht, hmodify⟩ := EStateM.bind_eq_ok.1 hrest
    have hs₃ := (ofExcept_eq_ok.1 ht).2
    cases hmodify
    rw [hs₃]

theorem exists_display (text : Unit → Except Fault String) {t : String} (ht : text () = .ok t)
    (s : Session) : ∃ s', display text s = .ok () s' := by
  cases hv : s.verbose with
  | false => exact ⟨s, EStateM.bind_eq_ok.2 ⟨s, s, rfl, by simp only [hv]; rfl⟩⟩
  | true =>
    refine ⟨{ s with shown := s.shown ++ t }, EStateM.bind_eq_ok.2 ⟨s, s, rfl, ?_⟩⟩
    rw [if_pos hv]
    exact EStateM.bind_eq_ok.2 ⟨t, s, ofExcept_eq_ok.2 ⟨ht, rfl⟩, rfl⟩

end Build

/-- A stream without stray items can be printed. -/
theorem Stream.exists_listing {items : Stream} (h : ∀ r, .stray r ∉ items) :
    ∃ text, items.listing = .ok text := by
  obtain ⟨lines, hlines⟩ : ∃ lines, items.mapM line = .ok lines := by
    induction items with
    | nil => exact ⟨[], rfl⟩
    | cons item items ih =>
      obtain ⟨lines, hlines⟩ := ih fun r hr => h r (List.mem_cons_of_mem _ hr)
      obtain ⟨first, hfirst⟩ : ∃ first, line item = .ok first := by
        cases item with
        | label l => exact ⟨_, rfl⟩
        | instr i => exact ⟨_, rfl⟩
        | stray r => exact absurd List.mem_cons_self (h r)
      refine ⟨first :: lines, ?_⟩
      rw [List.mapM_cons]
      exact Except.bind_eq_ok.2 ⟨first, hfirst, Except.bind_eq_ok.2 ⟨lines, hlines, rfl⟩⟩
  exact ⟨_, Except.bind_eq_ok.2 ⟨lines, hlines, rfl⟩⟩

namespace Backend

variable {b : Backend} {body : Flow} {f f' : Frame} {s s' : Session} {res : Compiled}
  {items items' : Stream} {live : Liveness.Result} {mapping : Allocation} {spilled : List Register}

/-- The allocation that is tried first. -/
def full (b : Backend) (live : Liveness.Result) : Allocation := b.color ".Full" b.target.palette live

/-- The allocation that leaves the scratch registers to spill code. -/
def reduced (b : Backend) (live : Liveness.Result) : Allocation := b.color ".Reduced" b.target.reduced live

/-- How the registers of a stream get their places. -/
inductive Assigns (b : Backend) (items : Stream) (live : Liveness.Result) (f : Frame) (u : Supply) :
    Stream → Allocation → List Register → Frame → Supply → Prop
  | all (h : (b.full live).complete = true) : Assigns b items live f u items (b.full live) [] f u
  | rest {items' : Stream} {mapping : Allocation} {f' : Frame} {u' : Supply}
      (h : (b.full live).complete = false)
      (hspill : Spiller.spill ⟨b.catalogue.coverStmts, b.target.scratch⟩ items (b.reduced live) f u =
        .ok (items', mapping, f') u') :
    Assigns b items live f u items' mapping (b.reduced live).unassigned f' u'

theorem assign_eq_ok (h : b.assign items live f s = .ok (items', mapping, spilled, f') s') :
    Assigns b items live f s.supply items' mapping spilled f' s'.supply := by
  unfold assign at h
  obtain ⟨_, s₁, htrace₁, h₁⟩ := EStateM.bind_eq_ok.1 h
  have hs₁ : s₁.supply = s.supply := Build.supply_trace htrace₁
  cases hfull : (b.full live).complete with
  | true =>
    have hcomplete := hfull
    rw [full] at hcomplete
    simp only [hcomplete, if_true] at h₁
    cases h₁
    rw [hs₁]
    exact .all hfull
  | false =>
    have hcomplete := hfull
    rw [full] at hcomplete
    simp only [hcomplete] at h₁
    obtain ⟨_, s₂, htrace₂, h₂⟩ := EStateM.bind_eq_ok.1 h₁
    obtain ⟨⟨items₁, mapping₁, f₁⟩, s₃, hfresh, h₃⟩ := EStateM.bind_eq_ok.1 h₂
    obtain ⟨u, hspill, hs₃⟩ := Build.fresh_eq_ok.1 hfresh
    obtain ⟨_, s₄, htrace₄, h₄⟩ := EStateM.bind_eq_ok.1 h₃
    have hs₄ : s₄.supply = u := by rw [Build.supply_trace htrace₄, hs₃]
    cases h₄
    rw [hs₄]
    refine .rest hfull ?_
    rw [← hs₁, ← Build.supply_trace htrace₂]
    exact hspill

theorem select_eq_ok (h : b.select body f s = .ok items s') :
    ∃ g, body.compress = .ok g ∧ g.layout b.catalogue.coverer f.label s.supply = .ok items s'.supply := by
  unfold select at h
  obtain ⟨g, s₁, hg, h₁⟩ := EStateM.bind_eq_ok.1 h
  obtain ⟨hcompress, hs₁⟩ := Build.ofExcept_eq_ok.1 hg
  obtain ⟨_, s₂, htrace₂, h₂⟩ := EStateM.bind_eq_ok.1 h₁
  obtain ⟨items₁, s₃, hfresh, h₃⟩ := EStateM.bind_eq_ok.1 h₂
  obtain ⟨u, hlayout, hs₃⟩ := Build.fresh_eq_ok.1 hfresh
  obtain ⟨_, s₄, htrace₄, h₄⟩ := EStateM.bind_eq_ok.1 h₃
  cases h₄
  refine ⟨g, hcompress, ?_⟩
  rw [Build.supply_trace htrace₄, hs₃, ← hs₁, ← Build.supply_trace htrace₂]
  exact hlayout

/-- **The passes of a compilation that succeeds.** -/
theorem compile_eq_ok (h : b.compile body f s = .ok (res, f') s') :
    ∃ g items u live, body.compress = .ok g ∧
      g.layout b.catalogue.coverer f.label s.supply = .ok items u ∧
      Liveness.analyze items = .ok live ∧
      Assigns b items live f u res.allocated res.mapping res.spilled f' s'.supply ∧
      res.items = res.mapping.dropNoops res.allocated := by
  unfold compile at h
  obtain ⟨items, s₁, hselect, h₁⟩ := EStateM.bind_eq_ok.1 h
  obtain ⟨g, hg, hlayout⟩ := select_eq_ok hselect
  obtain ⟨_, s₂, hshow₂, h₂⟩ := EStateM.bind_eq_ok.1 h₁
  obtain ⟨live, s₃, hanalyze, h₃⟩ := EStateM.bind_eq_ok.1 h₂
  obtain ⟨hlive, hs₃⟩ := Build.ofExcept_eq_ok.1 hanalyze
  obtain ⟨_, s₄, htrace₄, h₄⟩ := EStateM.bind_eq_ok.1 h₃
  obtain ⟨_, s₅, hshow₅, h₅⟩ := EStateM.bind_eq_ok.1 h₄
  obtain ⟨⟨allocated, mapping, spilled, f₁⟩, s₆, hassign, h₆⟩ := EStateM.bind_eq_ok.1 h₅
  obtain ⟨_, s₇, htrace₇, h₇⟩ := EStateM.bind_eq_ok.1 h₆
  obtain ⟨_, s₈, hshow₈, h₈⟩ := EStateM.bind_eq_ok.1 h₇
  cases h₈
  have hs₅ : s₅.supply = s₁.supply := by
    rw [Build.supply_display hshow₅, Build.supply_trace htrace₄, hs₃, Build.supply_display hshow₂]
  refine ⟨g, items, s₁.supply, live, hg, hlayout, hlive, ?_, rfl⟩
  rw [Build.supply_display hshow₈, Build.supply_trace htrace₇, ← hs₅]
  exact assign_eq_ok hassign

/-! ## Success -/

theorem exists_assign {u' : Supply} (h : Assigns b items live f s.supply items' mapping spilled f' u') :
    ∃ s', b.assign items live f s = .ok (items', mapping, spilled, f') s' ∧ s'.supply = u' := by
  obtain ⟨s₁, htrace₁⟩ : ∃ s₁, b.traceColors f b.target.palette (b.full live) s = .ok () s₁ := ⟨_, rfl⟩
  have hs₁ : s₁.supply = s.supply := Build.supply_trace htrace₁
  cases h with
  | all hfull =>
    refine ⟨s₁, EStateM.bind_eq_ok.2 ⟨(), s₁, htrace₁, ?_⟩, hs₁⟩
    rw [full] at hfull
    simp only [hfull, if_true]
    rfl
  | rest hfull hspill =>
    obtain ⟨s₂, htrace₂⟩ : ∃ s₂, b.traceColors f b.target.reduced (b.reduced live) s₁ = .ok () s₂ := ⟨_, rfl⟩
    have hs₂ : s₂.supply = s.supply := (Build.supply_trace htrace₂).trans hs₁
    obtain ⟨s₃, htrace₃⟩ : ∃ s₃, b.trace f' "Spill" [("Slots", f'.slots), ("Items", items'.length)]
      { s₂ with supply := u' } = .ok () s₃ := ⟨_, rfl⟩
    refine ⟨s₃, EStateM.bind_eq_ok.2 ⟨(), s₁, htrace₁, ?_⟩, Build.supply_trace htrace₃⟩
    rw [full] at hfull
    simp only [hfull]
    refine EStateM.bind_eq_ok.2 ⟨(), s₂, htrace₂, EStateM.bind_eq_ok.2 ⟨_, _,
      Build.fresh_eq_ok.2 ⟨u', hs₂.symm ▸ hspill, rfl⟩, ?_⟩⟩
    exact EStateM.bind_eq_ok.2 ⟨(), s₃, htrace₃, rfl⟩

/-- **A compilation succeeds if its passes do.** -/
theorem exists_compile {g : Flow} {u u' : Supply} (hg : body.compress = .ok g)
    (hlayout : g.layout b.catalogue.coverer f.label s.supply = .ok items u)
    (hclean : ∀ r, .stray r ∉ items) (hlive : Liveness.analyze items = .ok live)
    (hassigns : Assigns b items live f u items' mapping spilled f' u') :
    ∃ s', b.compile body f s =
      .ok (⟨mapping.dropNoops items', items', mapping, spilled⟩, f') s' ∧ s'.supply = u' := by
  obtain ⟨s₁, hselect, hs₁⟩ : ∃ s₁, b.select body f s = .ok items s₁ ∧ s₁.supply = u :=
    ⟨_, EStateM.bind_eq_ok.2 ⟨g, s, Build.ofExcept_eq_ok.2 ⟨hg, rfl⟩, EStateM.bind_eq_ok.2 ⟨(), _, rfl,
      EStateM.bind_eq_ok.2 ⟨items, _, Build.fresh_eq_ok.2 ⟨u, hlayout, rfl⟩, rfl⟩⟩⟩, rfl⟩
  obtain ⟨text, htext⟩ := Stream.exists_listing hclean
  obtain ⟨s₂, hshow₂⟩ := Build.exists_display (fun _ => Display.stream f.label items)
    (Except.bind_eq_ok.2 ⟨text, htext, rfl⟩) s₁
  obtain ⟨s₃, htrace₃⟩ : ∃ s₃, b.trace f "Liveness" [("Registers", live.interference.size),
    ("Interference", live.interference.edges), ("Copies", live.copies.edges)] s₂ = .ok () s₃ := ⟨_, rfl⟩
  obtain ⟨s₄, hshow₄⟩ := Build.exists_display (fun _ => .ok (Display.liveness f.label live)) rfl s₃
  have hs₄ : s₄.supply = u := by
    rw [Build.supply_display hshow₄, Build.supply_trace htrace₃, Build.supply_display hshow₂, hs₁]
  obtain ⟨s₅, hassign, hs₅⟩ := exists_assign (hs₄.symm ▸ hassigns)
  obtain ⟨s₆, htrace₆⟩ : ∃ s₆, b.trace f' "Finish" [("Items", (mapping.dropNoops items').length),
    ("Dropped", items'.length - (mapping.dropNoops items').length)] s₅ = .ok () s₆ := ⟨_, rfl⟩
  obtain ⟨s₇, hshow₇⟩ := Build.exists_display
    (fun _ => .ok (Display.allocation f'.label mapping (mapping.dropNoops items').registers)) rfl s₆
  refine ⟨s₇, ?_, by rw [Build.supply_display hshow₇, Build.supply_trace htrace₆, hs₅]⟩
  refine EStateM.bind_eq_ok.2 ⟨items, s₁, hselect, EStateM.bind_eq_ok.2 ⟨(), s₂, hshow₂, ?_⟩⟩
  refine EStateM.bind_eq_ok.2 ⟨live, s₂, Build.ofExcept_eq_ok.2 ⟨hlive, rfl⟩, ?_⟩
  refine EStateM.bind_eq_ok.2 ⟨(), s₃, htrace₃, EStateM.bind_eq_ok.2 ⟨(), s₄, hshow₄, ?_⟩⟩
  refine EStateM.bind_eq_ok.2 ⟨_, s₅, hassign, EStateM.bind_eq_ok.2 ⟨(), s₆, htrace₆, ?_⟩⟩
  exact EStateM.bind_eq_ok.2 ⟨(), s₇, hshow₇, rfl⟩

end Backend

end Codegen
