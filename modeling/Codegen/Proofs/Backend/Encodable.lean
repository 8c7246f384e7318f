/-
  The code that a backend emits can be encoded.

  What covers the operations of a graph can be encoded, unless they overreach; spill
  code and frame code go through the same rules and never overreach; and registers do
  not matter.  So everything that is compiled can be encoded, unless the body overreaches
  (`code_encodable`).
-/
import Codegen.Proofs.Frame.Discipline
import Codegen.Proofs.Selection.Encodable

namespace Codegen

/-! ## Layouts -/

namespace Layout

variable {g : Flow} {cover : Coverer} {P : Instr → Prop} {u u' : Supply} {items : Stream}

section
variable
  (hsequence : ∀ {i body next}, g.block i = .straight body next → ∀ {l u code u'},
    cover.sequence i body l u = .ok code u' → ∀ j ∈ code, P j)
  (hbranch : ∀ {i cond t f}, g.block i = .branch cond t f → ∀ {lt lf u code u'},
    cover.branch i cond lt lf u = .ok code u' → ∀ j ∈ code, P j)
include hsequence hbranch

/-- What is true of the code of every block is true of the code of a walk. -/
theorem forall_walk (pending : List (Pending g.size)) (done : List (Fin g.size)) (labels : Labels g.size) :
    ∀ {u u' : Supply} {items : Stream} {labels' : Labels g.size},
      walk g cover pending done labels u = .ok (items, labels') u' → ∀ j ∈ items.instructions, P j := by
  have hpiece : ∀ {place : Option Label} {code : List Instr} {items : Stream}, (∀ j ∈ code, P j) →
      (∀ j ∈ items.instructions, P j) → ∀ j ∈
        Stream.instructions (place.toList.map Item.label ++ code.map Item.instr ++ items), P j := by
    intro place code items hcode hitems j hj
    have hfront : Stream.instructions (place.toList.map Item.label) = [] := by cases place <;> rfl
    rw [Spiller.instructions_append, Spiller.instructions_append, hfront, Spiller.instructions_map] at hj
    exact (List.mem_append.1 hj).elim (hcode j) (hitems j)
  induction pending, done, labels using walk.induct with
  | case1 done labels =>
    intro u u' items labels' h
    rw [walk] at h
    cases h
    exact List.forall_mem_nil _
  | case2 done labels label tail =>
    intro u u' items labels' h
    rw [walk] at h
    cases h
  | case3 done labels place i rest hi ih =>
    intro u u' items labels' h
    rw [walk, dif_pos hi] at h
    exact ih h
  | case4 done labels place i rest hi body hblock ih =>
    intro u u' items labels' h
    rw [walk, dif_neg hi] at h
    simp only [hblock] at h
    obtain ⟨code, u₁, hcode, h⟩ := EStateM.bind_eq_ok.1 h
    obtain ⟨⟨items₁, labels₁⟩, u₂, hwalk, h⟩ := EStateM.bind_eq_ok.1 h
    cases h
    exact hpiece (hsequence hblock hcode) (ih hwalk)
  | case5 done labels place i rest hi body j hblock ih =>
    intro u u' items labels' h
    rw [walk, dif_neg hi] at h
    simp only [hblock] at h
    obtain ⟨⟨l, labels₁⟩, u₁, -, h⟩ := EStateM.bind_eq_ok.1 h
    obtain ⟨code, u₂, hcode, h⟩ := EStateM.bind_eq_ok.1 h
    obtain ⟨⟨items₁, labels₂⟩, u₃, hwalk, h⟩ := EStateM.bind_eq_ok.1 h
    cases h
    exact hpiece (hsequence hblock hcode) (ih l labels₁ hwalk)
  | case6 done labels place i rest hi cond t f hblock ih =>
    intro u u' items labels' h
    rw [walk, dif_neg hi] at h
    simp only [hblock] at h
    obtain ⟨⟨lt, labels₁⟩, u₁, -, h⟩ := EStateM.bind_eq_ok.1 h
    obtain ⟨⟨lf, labels₂⟩, u₂, -, h⟩ := EStateM.bind_eq_ok.1 h
    obtain ⟨code, u₃, hcode, h⟩ := EStateM.bind_eq_ok.1 h
    obtain ⟨⟨items₁, labels₃⟩, u₄, hwalk, h⟩ := EStateM.bind_eq_ok.1 h
    cases h
    exact hpiece (hbranch hblock hcode) (ih lt lf labels₂ hwalk)

theorem forall_layout {entry : Label} (h : g.layout cover entry u = .ok items u') :
    ∀ j ∈ items.instructions, P j := by
  obtain ⟨⟨items₀, labels⟩, u₁, hwalk, hfront⟩ := EStateM.bind_eq_ok.1 h
  have hitems := forall_walk hsequence hbranch _ _ _ hwalk
  cases hroot : labels.lookup g.root <;> simp only [hroot] at hfront <;> cases hfront <;> exact hitems

end

end Layout

/-- An operation or a condition of the graph overreaches. -/
def Flow.Overreaches (g : Flow) : Prop :=
  (∃ i body next, g.block i = .straight body next ∧ ∃ op ∈ body, op.Overreaches) ∨
    ∃ i cond t f, g.block i = .branch cond t f ∧ cond.Overreaches

namespace Flow

variable {g g' : Flow}

theorem Overreaches.of_compress (hg : g.compress = .ok g') (h : g'.Overreaches) : g.Overreaches := by
  rcases h with ⟨i, body, next, hi, op, hop, hover⟩ | ⟨i, cond, t, f, hi, hover⟩
  · exact operations_compress (P := fun op => op.Overreaches → g.Overreaches) hg
      (fun j body next hj op hop hover => Or.inl ⟨j, body, next, hj, op, hop, hover⟩) i body next hi op hop hover
  · exact branches_compress (Q := fun cond _ _ => cond.Overreaches → g.Overreaches) hg
      (fun j cond t f hj hover => Or.inr ⟨j, cond, t, f, hj, hover⟩) i cond t f hi hover

theorem Overreaches.of_enterThrough (h : g.enterThrough.Overreaches) : g.Overreaches := by
  rcases h with ⟨i, body, next, hi, op, hop, hover⟩ | ⟨i, cond, t, f, hi, hover⟩
  · exact operations_enterThrough (P := fun op => op.Overreaches → g.Overreaches)
      (fun j body next hj op hop hover => Or.inl ⟨j, body, next, hj, op, hop, hover⟩) i body next hi op hop hover
  · exact conditions_enterThrough (P := fun cond => cond.Overreaches → g.Overreaches)
      (fun j cond t f hj hover => Or.inr ⟨j, cond, t, f, hj, hover⟩) i cond t f hi hover

end Flow

theorem Amd64.encodable_layout {g : Flow} {entry : Label} {u u' : Supply} {items : Stream}
    (h : g.layout catalogue.coverer entry u = .ok items u') :
    ∀ i ∈ items.instructions, i.Encodable g.Overreaches := by
  refine Layout.forall_layout (fun {i body next} hi _ _ _ _ hcode j hj => ?_)
    (fun {i cond t f} hi _ _ _ _ _ hcode j hj => ?_) h
  · exact (encodable_coverSequence hcode j hj).mono fun ⟨op, hop, hover⟩ =>
      Or.inl ⟨i, body, next, hi, op, hop, hover⟩
  · exact (encodable_coverBranch hcode j hj).mono fun hover => Or.inr ⟨i, cond, t, f, hi, hover⟩

/-! ## Slots -/

/-- The constant in the address of a slot is subtracted only if it is positive. -/
theorem Slot.not_isLeastOffset (s : Slot) : ¬ s.address.IsLeastOffset := by
  rintro ⟨b, d, e, hd⟩
  unfold address at e
  simp only at e
  split at e
  · next hneg =>
    cases e
    have hneg : s.offset.toInt < 0 := Int64.lt_iff_toInt_lt.1 hneg
    have hlo := s.offset.le_toInt
    rw [Int64.toInt_neg, Int.bmod_def] at hd
    split at hd <;> omega
  · cases e

theorem Slot.not_overreaches_address (s : Slot) : ¬ s.address.Overreaches := by
  unfold address
  simp only
  split <;> simp [Value.Overreaches]

theorem Slot.not_overreaches_read (s : Slot) : ¬ s.read.Overreaches := fun h =>
  h.elim s.not_isLeastOffset s.not_overreaches_address

theorem Slot.not_overreaches_write (s : Slot) {v : Value} (hv : ¬ v.Overreaches) :
    ¬ (s.write v).Overreaches := by
  rintro (⟨x, hx, hover⟩ | ⟨a, w, e, hleast⟩)
  · simp only [write, Stmt.values, List.mem_cons, List.not_mem_nil, or_false] at hx
    rcases hx with rfl | rfl
    · exact s.not_overreaches_address hover
    · exact hv hover
  · cases e
    exact s.not_isLeastOffset hleast

theorem Stmt.not_overreaches_write (r : Register) {v : Value} (hv : ¬ v.Overreaches) :
    ¬ (Stmt.write r v).Overreaches := by
  rintro (⟨x, hx, hover⟩ | ⟨a, w, e, -⟩)
  · exact hv (List.mem_singleton.1 hx ▸ hover)
  · cases e

/-! ## Spill code -/

namespace Spiller

variable {s : Spiller} {slots : Slots} {wide : Prop} {u u' : Supply} {items : Stream}

/-- A move between a spilled register and a register or an immediate does not overreach. -/
theorem not_overreaches_direct? {i : Instr} {op : Stmt} (h : direct? slots i = some op) : ¬ op.Overreaches := by
  rcases direct?_cases slots i with ⟨hnone, -⟩ | ⟨slot, a, hsome, -⟩
  · rw [h] at hnone; cases hnone
  · cases h.symm.trans hsome
    cases a with
    | load d => exact Stmt.not_overreaches_write d slot.not_overreaches_read
    | store r => exact slot.not_overreaches_write id
    | set w => exact slot.not_overreaches_write id

section
variable (hs : s.cover = Amd64.catalogue.coverStmts)
include hs

theorem encodable_cover {op : Stmt} {code : List Instr} (hop : ¬ op.Overreaches)
    (h : s.cover [op] u = .ok code u') : ∀ i ∈ code, i.Encodable wide := fun i hi => by
  rw [hs] at h
  refine (Amd64.encodable_coverStmts h i hi).mono ?_
  rintro ⟨op', hop', hover⟩
  exact absurd (List.mem_singleton.1 hop' ▸ hover) hop

theorem encodable_transfers {scratch : List (Register × Physical)} {op : Slot → Physical → Stmt}
    (hop : ∀ slot h, ¬ (op slot h).Overreaches) {rs : List Register} {codes : List (List Instr)}
    (h : rs.mapM (s.transfer slots scratch op) u = .ok codes u') :
    ∀ i ∈ codes.flatten, i.Encodable wide := by
  intro i hi
  obtain ⟨code, hcode, hi⟩ := List.mem_flatten.1 hi
  obtain ⟨r, -, u₁, u₂, htransfer⟩ := forall₂_exists_left (EStateM.mapM_eq_ok h) hcode
  cases hslot : slots.slot? r with
  | none => simp only [transfer, hslot] at htransfer; cases htransfer; cases hi
  | some slot =>
    cases hplace : scratch.lookup r with
    | none => simp only [transfer, hslot, hplace] at htransfer; cases htransfer; cases hi
    | some p =>
      simp only [transfer, hslot, hplace] at htransfer
      exact encodable_cover hs (hop slot p) htransfer i hi

/-- The code of an instruction that can be encoded can be encoded. -/
theorem encodable_expand {i : Instr} {code : List Instr} (hi : i.Encodable wide)
    (h : s.expand slots i u = .ok code u') : ∀ j ∈ code, j.Encodable wide := by
  by_cases hspilled : spilledIn slots i.registers = []
  · simp only [expand, hspilled, List.isEmpty_nil, if_true] at h
    cases h
    exact List.forall_mem_singleton.2 hi
  · have hroom := room_of_expand h
    cases hdirect : direct? slots i with
    | some op =>
      simp only [expand, List.isEmpty_iff, if_neg hspilled, hdirect] at h
      exact encodable_cover hs (not_overreaches_direct? hdirect) h
    | none =>
      simp only [expand, List.isEmpty_iff, if_neg hspilled, hdirect, if_neg (Nat.not_lt.2 (hroom hdirect))] at h
      obtain ⟨loads, u₁, hloads, h⟩ := EStateM.bind_eq_ok.1 h
      obtain ⟨stores, u₂, hstores, h⟩ := EStateM.bind_eq_ok.1 h
      cases h
      refine List.forall_mem_append.2 ⟨List.forall_mem_append.2 ⟨encodable_transfers hs ?_ hloads,
        List.forall_mem_singleton.2 (hi.mapRegisters _)⟩, encodable_transfers hs ?_ hstores⟩
      · exact fun slot p => Stmt.not_overreaches_write p slot.not_overreaches_read
      · exact fun slot p => slot.not_overreaches_write id

theorem encodable_pieces {pieces : List Stream} (hitems : ∀ i ∈ items.instructions, i.Encodable wide)
    (h : items.mapM (s.expandItem slots) u = .ok pieces u') :
    ∀ i ∈ Stream.instructions pieces.flatten, i.Encodable wide := by
  intro i hi
  obtain ⟨item', hitem', e⟩ := List.mem_filterMap.1 hi
  obtain ⟨piece, hpiece, hmem⟩ := List.mem_flatten.1 hitem'
  obtain ⟨item, hitem, u₁, u₂, hexpand⟩ := forall₂_exists_left (EStateM.mapM_eq_ok h) hpiece
  cases item with
  | label l => cases hexpand; rw [List.mem_singleton.1 hmem] at e; cases e
  | stray r => cases hexpand; rw [List.mem_singleton.1 hmem] at e; cases e
  | instr i₀ =>
    obtain ⟨code, u₃, hcode, heq⟩ := EStateM.bind_eq_ok.1 hexpand
    cases heq
    obtain ⟨i', hi', rfl⟩ := List.mem_map.1 hmem
    cases e
    exact encodable_expand hs (hitems i₀ (List.mem_filterMap.2 ⟨_, hitem, rfl⟩)) hcode i hi'

theorem encodable_spill {a b : Allocation} {f f' : Frame} {items' : Stream}
    (hitems : ∀ i ∈ items.instructions, i.Encodable wide)
    (h : s.spill items a f u = .ok (items', b, f') u') : ∀ i ∈ items'.instructions, i.Encodable wide := by
  obtain ⟨pieces, u₁, hpieces, h⟩ := EStateM.bind_eq_ok.1 h
  obtain ⟨b', u₂, -, h⟩ := EStateM.bind_eq_ok.1 h
  cases h
  exact encodable_pieces hs hitems hpieces

end

end Spiller

/-! ## Frame code -/

namespace Frame

theorem not_overreaches_prologue {f : Frame} {saved : List Saved} {op : Stmt} (h : op ∈ f.prologue saved) :
    ¬ op.Overreaches := by
  have hdrop : ∀ w : Word, ¬ (Stmt.write f.convention.stackPointer
      (.binary .sub (.read f.convention.stackPointer) (.const w))).Overreaches := fun w =>
    Stmt.not_overreaches_write _ (by simp [Value.Overreaches])
  simp only [prologue, List.mem_append, List.mem_cons, List.not_mem_nil, or_false, List.mem_map] at h
  rcases h with ((rfl | rfl | rfl) | h) | ⟨s, -, rfl⟩
  · exact hdrop _
  · rintro (⟨x, hx, hover⟩ | ⟨a, w, e, b, d, e', -⟩)
    · simp only [Stmt.values, List.mem_cons, List.not_mem_nil, or_false] at hx
      rcases hx with rfl | rfl <;> exact hover
    · cases e; cases e'
  · exact Stmt.not_overreaches_write _ id
  · split at h
    · rw [List.mem_singleton.1 h]; exact hdrop _
    · cases h
  · exact s.slot.not_overreaches_write id

theorem not_overreaches_epilogue {f : Frame} {saved : List Saved} {op : Stmt} (h : op ∈ f.epilogue saved) :
    ¬ op.Overreaches := by
  simp only [epilogue, List.mem_append, List.mem_cons, List.not_mem_nil, or_false, List.mem_map] at h
  rcases h with ⟨s, -, rfl⟩ | rfl | rfl | rfl
  · exact Stmt.not_overreaches_write _ s.slot.not_overreaches_read
  · exact Stmt.not_overreaches_write _ id
  · refine Stmt.not_overreaches_write _ ?_
    rintro (⟨b, d, e, -⟩ | h)
    · cases e
    · exact h
  · exact Stmt.not_overreaches_write _ (by simp [Value.Overreaches])

end Frame

/-! ## Compiled code -/

namespace Backend

variable {b : Backend} {body : Flow} {f f' : Frame} {s s' : Session} {res : Compiled}

/-- The streams of a compiled body can be encoded. -/
theorem encodable_compile (hcat : b.catalogue = Amd64.catalogue)
    (h : b.compile body f s = .ok (res, f') s') :
    ∀ i ∈ Stream.instructions (res.allocated ++ res.items ++ res.physical), i.Encodable body.Overreaches := by
  obtain ⟨g, items, u, live, hg, hlayout, -, hassigns, hitems⟩ := compile_eq_ok h
  rw [hcat] at hlayout
  have hselected : ∀ i ∈ items.instructions, i.Encodable body.Overreaches := fun i hi =>
    (Amd64.encodable_layout hlayout i hi).mono (Flow.Overreaches.of_compress hg)
  have hallocated : ∀ i ∈ res.allocated.instructions, i.Encodable body.Overreaches := by
    generalize res.allocated = allocated, res.mapping = mapping, res.spilled = spilled at hassigns ⊢
    cases hassigns with
    | all => exact hselected
    | rest _ hspill => exact Spiller.encodable_spill (by rw [hcat]) hselected hspill
  have hkept : ∀ i ∈ res.items.instructions, i.Encodable body.Overreaches := fun i hi => by
    rw [hitems] at hi
    exact hallocated i (Stream.instr_mem_iff.1 (List.mem_filter.1 (Stream.instr_mem_iff.2 hi)).1)
  intro i hi
  rw [Stream.mem_instructions_append, Stream.mem_instructions_append] at hi
  rcases hi with (hi | hi) | hi
  · exact hallocated i hi
  · exact hkept i hi
  · rw [Compiled.physical, hitems] at hi
    obtain ⟨i₀, hi₀, rfl⟩ := Allocation.mem_instructions_apply hi
    exact (hallocated i₀ hi₀).mapRegisters _

end Backend

namespace Compiler

variable {c : Compiler} {fn : Function} {s s' : Session} {out : CompiledFunction}

theorem mem_instructions_assemble {body : Stream} {entry : Label} {prologue epilogue : List Instr} {i : Instr}
    (h : i ∈ (assemble body entry prologue epilogue).instructions) :
    i ∈ prologue ∨ i ∈ epilogue ∨ i ∈ body.instructions := by
  have hbody : ∀ {items : Stream}, i ∈ Stream.instructions (withEpilogue epilogue items) →
      i ∈ epilogue ∨ i ∈ items.instructions := by
    intro items h
    obtain ⟨item, hitem, hi⟩ := List.mem_flatMap.1 (Stream.instr_mem_iff.2 h)
    split at hi
    · rcases List.mem_append.1 hi with hi | hi
      · obtain ⟨j, hj, e⟩ := List.mem_map.1 hi
        cases e
        exact Or.inl hj
      · cases List.mem_singleton.1 hi
        exact Or.inr (Stream.instr_mem_iff.1 hitem)
    · cases List.mem_singleton.1 hi
      exact Or.inr (Stream.instr_mem_iff.1 hitem)
  have hall : ∀ {items : Stream}, i ∈ Stream.instructions (prologue.map Item.instr ++ withEpilogue epilogue items) →
      i ∈ prologue ∨ i ∈ epilogue ∨ i ∈ items.instructions := fun h => by
    rw [Stream.mem_instructions_append, Spiller.instructions_map] at h
    exact h.imp_right hbody
  unfold assemble at h
  split at h
  · split at h
    · exact (hall h).imp_right fun h => h
    · exact hall h
  · exact hall h

theorem encodable_compileFunction (hcat : c.backend.catalogue = Amd64.catalogue)
    (h : c.compileFunction fn s = .ok out s') :
    ∀ i ∈ out.items.instructions, i.Encodable fn.body.Overreaches := by
  obtain ⟨f, body, f', s₁, prologue, epilogue, u₁, u₂, u₃, u₄, -, hbody, -, -, hprologue, -, hepilogue, hitems⟩ :=
    compileFunction_eq_ok h
  rw [hcat] at hprologue hepilogue
  intro i hi
  rw [hitems] at hi
  rcases mem_instructions_assemble hi with hi | hi | hi
  · refine (Amd64.encodable_coverStmts hprologue i hi).mono ?_
    exact fun ⟨op, hop, hover⟩ => absurd hover (Frame.not_overreaches_prologue hop)
  · refine (Amd64.encodable_coverStmts hepilogue i hi).mono ?_
    exact fun ⟨op, hop, hover⟩ => absurd hover (Frame.not_overreaches_epilogue hop)
  · refine (Backend.encodable_compile hcat hbody i ?_).mono Flow.Overreaches.of_enterThrough
    exact Stream.mem_instructions_append.2 (Or.inr hi)

/-- **Every instruction that is emitted can be encoded**, unless what it comes from loads
    or stores at a register minus the least constant of 32 bits: at most one memory
    operand, displacements of 32 bits, immediates of 32 bits except in a move into a
    register.  Where such an address stands, a displacement may be one too large, and
    nothing else is wrong. -/
theorem code_encodable (ops : List Stmt) (cond : Value) (body : Flow) (fn : Function) :
    (∀ {u u' : Supply} {code : List Instr},
      Amd64.catalogue.coverStmts ops u = .ok code u' →
      ∀ i ∈ code, i.Encodable (∃ op ∈ ops, op.Overreaches)) ∧
    (∀ {onTrue onFalse : Label} {u u' : Supply} {code : List Instr},
      Amd64.catalogue.coverBranch cond onTrue onFalse u = .ok code u' →
      ∀ i ∈ code, i.Encodable cond.Overreaches) ∧
    (∀ {b : Backend} {f f' : Frame} {s s' : Session} {res : Compiled},
      b.catalogue = Amd64.catalogue → b.compile body f s = .ok (res, f') s' →
      ∀ i ∈ Stream.instructions (res.allocated ++ res.items ++ res.physical), i.Encodable body.Overreaches) ∧
    ∀ {c : Compiler} {s s' : Session} {out : CompiledFunction},
      c.backend.catalogue = Amd64.catalogue → c.compileFunction fn s = .ok out s' →
      ∀ i ∈ out.items.instructions, i.Encodable fn.body.Overreaches :=
  ⟨Amd64.encodable_coverStmts, Amd64.encodable_coverBranch, Backend.encodable_compile,
    encodable_compileFunction⟩

theorem not_overreaches_countingBody : ¬ countingBody.Overreaches := by
  rintro (⟨i, body, next, hi, op, hop, hover⟩ | ⟨i, cond, t, f, hi, hover⟩)
  all_goals change Fin 3 at i
  · match i with
    | 0 =>
      cases hi
      cases List.mem_singleton.1 hop
      exact Stmt.not_overreaches_write _ (by simp [Value.Overreaches]) hover
    | 1 => cases hi
    | 2 =>
      cases hi
      cases List.mem_singleton.1 hop
      rcases hover with ⟨v, hv, -⟩ | ⟨a, v, e, -⟩
      · cases hv
      · cases e
  · match i with
    | 0 => cases hi
    | 1 => cases hi; simp [Value.Overreaches] at hover
    | 2 => cases hi

/-- A load at a register minus the least constant has a displacement that is one too large.
    All code of the counting function can be encoded. -/
theorem code_encodable_counting :
    (∃ code u, Amd64.catalogue.coverStmts [.write (.physical .r10) (.load (.binary .sub (.read (.physical .rbp))
        (.const (-2147483648))))] ⟨0, 0⟩ = .ok code u ∧
      code = [.mov (.reg (.physical .r10)) (.mem ⟨"", some (.physical .rbp), 2147483648⟩)] ∧
      ∀ i ∈ code, i.Encodable True ∧ ¬ i.Encodable False) ∧
    (∃ code u, Amd64.catalogue.coverBranch (.binary .lt (.read (.physical .rax)) (.const 4294967296)) ".L1" ".L2"
        ⟨0, 0⟩ = .ok code u ∧ ∀ i ∈ code, i.Encodable False) ∧
    ∃ res f s out s', (Backend.default "B" none).compile countingBody.enterThrough ⟨"f", Amd64.convention, 0⟩
        { supply := ⟨0, 0⟩ } = .ok (res, f) s ∧
      (∀ i ∈ Stream.instructions (res.allocated ++ res.items ++ res.physical), i.Encodable False) ∧
      compileFunction ⟨"D", .default "B" none⟩ ⟨"f", some ⟨"f", Amd64.convention, 0⟩, countingBody⟩
        { supply := ⟨0, 0⟩ } = .ok out s' ∧
      ∀ i ∈ out.items.instructions, i.Encodable False := by
  obtain ⟨hstmts, hbranch, hcompile, hfunction⟩ := code_encodable
    [.write (.physical .r10) (.load (.binary .sub (.read (.physical .rbp)) (.const (-2147483648))))]
    (.binary .lt (.read (.physical .rax)) (.const 4294967296)) countingBody.enterThrough
    ⟨"f", some ⟨"f", Amd64.convention, 0⟩, countingBody⟩
  have hload : Amd64.catalogue.coverStmts [.write (.physical .r10) (.load (.binary .sub (.read (.physical .rbp))
      (.const (-2147483648))))] ⟨0, 0⟩ =
      .ok [.mov (.reg (.physical .r10)) (.mem ⟨"", some (.physical .rbp), 2147483648⟩)] ⟨0, 0⟩ := by cbv
  have hless : Amd64.catalogue.coverBranch (.binary .lt (.read (.physical .rax)) (.const 4294967296)) ".L1" ".L2"
      ⟨0, 0⟩ = .ok [.mov (.reg (.virtual 1)) (.imm 4294967296),
        .binary "cmp" (.reg (.physical .rax)) (.reg (.virtual 1)), .jcc "l" ".L1", .jmp ".L2"] ⟨1, 0⟩ := by cbv
  refine ⟨⟨_, _, hload, rfl, fun i hi => ⟨(hstmts hload i hi).mono fun _ => trivial, fun h => ?_⟩⟩,
    ⟨_, _, hless, fun i hi => (hbranch hless i hi).mono (by simp [Value.Overreaches])⟩, ?_⟩
  · cases List.mem_singleton.1 hi
    rcases h.displacement _ (List.mem_cons_of_mem _ List.mem_cons_self) with h | h
    · exact absurd h.2 (by decide)
    · exact h.1
  · obtain ⟨res, s₁, hrun, -, -⟩ := compile_counting
    obtain ⟨out, s', hout, -, -⟩ := compileFunction_counting
    refine ⟨_, _, s₁, out, s', hrun, fun i hi => (hcompile rfl hrun i hi).mono fun h => ?_, hout,
      fun i hi => (hfunction rfl hout i hi).mono not_overreaches_countingBody⟩
    exact not_overreaches_countingBody (Flow.Overreaches.of_enterThrough h)

end Compiler

end Codegen
