/-
  Moves that do nothing can be dropped.

  A move between registers that live in one place writes what is there already.
  The stream without such moves follows the stream with them (`tracks_noops`).
-/
import Codegen.Allocation
import Codegen.Proofs.Machine.Expand

namespace Codegen

namespace Allocation

variable {a : Allocation} {i : Instr} {item : Item}

/-- What an item of a renamed stream becomes. -/
def noopPiece (a : Allocation) (item : Item) : Stream :=
  if a.isNoop item then [] else [item.mapRegisters a.rename]

/-- What the items of a renamed stream become. -/
def noopPieces (a : Allocation) (items : Stream) : List Stream := items.map a.noopPiece

theorem flatten_noopPieces (a : Allocation) (items : Stream) :
    (a.noopPieces items).flatten = a.apply (a.dropNoops items) := by
  induction items with
  | nil => rfl
  | cons item items ih =>
    rw [noopPieces, List.map_cons, List.flatten_cons, ← noopPieces, ih, noopPiece, dropNoops, dropNoops,
      List.filter_cons]
    by_cases h : a.isNoop item = true
    · simp only [h, if_true, Bool.not_true, Bool.false_eq_true, if_false]; rfl
    · simp only [h, Bool.false_eq_true, if_false, Bool.not_false, if_true]; rfl

theorem labels_apply (a : Allocation) (items : Stream) :
    (a.apply items).filterMap Item.label? = items.filterMap Item.label? := by
  rw [apply, Stream.mapRegisters, List.filterMap_map]
  refine List.filterMap_congr fun item _ => ?_
  cases item <;> rfl

/-- Both sides of a move that does nothing are one register in the end. -/
theorem move_of_isNoop (h : a.isNoop (.instr i) = true) : ∃ r, i.mapRegisters a.rename = .move r r := by
  unfold isNoop at h
  cases hc : i.copy? with
  | none => simp [Item.instr?, hc] at h
  | some c =>
    obtain ⟨d, s⟩ := c
    obtain rfl : i = .move d s := by
      unfold Instr.copy? at hc
      split at hc
      · cases hc; rfl
      · cases hc
    simp only [Item.instr?, Option.bind_some, hc, Bool.or_eq_true, decide_eq_true_eq] at h
    have hsame : a.rename d = a.rename s := by
      rcases h with rfl | h
      · rfl
      · cases hd : a.lookup d <;> cases hs : a.lookup s <;> simp [hd, hs] at h
        simp [rename, hd, hs, h]
    exact ⟨a.rename s, by simp [Instr.move, Instr.mapRegisters, Operand.mapRegisters, hsame]⟩

theorem expands_noopPieces (a : Allocation) (items : Stream) :
    List.Forall₂ Stream.Expands (a.apply items) (a.noopPieces items) := by
  induction items with
  | nil => exact .nil
  | cons item items ih =>
    refine .cons ?_ ih
    cases item with
    | label l => exact .other rfl
    | stray r => exact .other rfl
    | instr i =>
      unfold noopPiece
      split
      · exact .instr _ []
      · exact .instr _ [i.mapRegisters a.rename]

theorem labels_apply_dropNoops (a : Allocation) (items : Stream) :
    (a.apply (a.dropNoops items)).filterMap Item.label? = items.filterMap Item.label? := by
  rw [← flatten_noopPieces, Stream.labels_flatten (a.expands_noopPieces items), labels_apply]

/-- A piece is the instruction, or nothing where it does nothing. -/
theorem noopPieces_cases {items : Stream} {k : Nat} {code : List Instr}
    (hk : (a.apply items)[k]? = some (.instr i))
    (hcode : (a.noopPieces items)[k]? = some (code.map Item.instr)) :
    code = [i] ∨ code = [] ∧ ∃ r, i = .move r r := by
  rw [apply, Stream.mapRegisters, List.getElem?_map] at hk
  rw [noopPieces, List.getElem?_map] at hcode
  obtain ⟨item, hitem, e⟩ := Option.map_eq_some_iff.1 hk
  rw [hitem, Option.map_some, Option.some.injEq] at hcode
  cases item with
  | label l => cases e
  | stray r => cases e
  | instr i₀ =>
    cases e
    unfold noopPiece at hcode
    split at hcode
    · next h => exact Or.inr ⟨List.map_eq_nil_iff.1 hcode.symm, move_of_isNoop h⟩
    · obtain ⟨i', rest, rfl, e, hrest⟩ := List.map_eq_cons_iff.1 hcode.symm
      cases e
      rw [List.map_eq_nil_iff.1 hrest]
      exact Or.inl rfl

end Allocation

namespace Machine

variable {m m' n : Machine} {pieces : List Stream} {i : Instr}

/-- The machines have the same contents, but for virtual registers that cannot be
    read. -/
structure Alike (m m' : Machine) : Prop where
  hooks : m'.hooks = m.hooks
  globals : m'.globals = m.globals
  compared : m'.compared = m.compared
  memory : m'.memory = m.memory
  reads : ∀ r, Passes r (m.read r) (m'.read r)

/-- Registers and memory are the same; positions are those of the expanded stream. -/
def expandedSetting (pieces : List Stream) : Setting :=
  { Setting.ofRename id with place := fun p p' => p' = Stream.start pieces p }

theorem Alike.agree (h : Alike m m') (hb : Beside pieces m m')
    (hposition : m'.position + 1 = Stream.start pieces (m.position + 1)) (mems : List Mem) :
    Agree (expandedSetting pieces) (fun _ => True) mems m.tick m'.tick where
  hooks := h.hooks
  globals := h.globals
  compared := h.compared
  returned := hb.returned
  labels hj := ⟨_, hb.label hj, rfl⟩
  position := hposition
  memory := h.memory.symm
  reads _ := h.reads _
  safe := Exec.near_of_forall (fun _ => trivial) _ _

/-- The second machine can execute the same instruction. -/
theorem Alike.execute (h : Alike m m') (hb : Beside pieces m m')
    (hposition : m'.position + 1 = Stream.start pieces (m.position + 1))
    (e : Exec.execute i m.tick = .ok () n) :
    ∃ n', Exec.execute i m'.tick = .ok () n' ∧ n'.returned = n.returned ∧
      n'.position = Stream.start pieces n.position ∧ Alike n n' := by
  have hsteady : Exec.Steady (expandedSetting pieces).rename i := by
    cases i with
    | call l arguments clobbers => exact ⟨fun _ _ => rfl, fun _ _ => rfl, rfl⟩
    | _ => trivial
  have hapart : ∀ r, True → r ∉ Exec.changes i → True ∧ ∀ d ∈ Exec.changes i,
      (expandedSetting pieces).rename r = (expandedSetting pieces).rename d →
        i.copy? = some (d, r) := fun r _ hr =>
    ⟨trivial, fun d hd hrd => absurd ((show r = d from hrd) ▸ hd) hr⟩
  obtain ⟨n', e', hn⟩ :=
    Exec.simulates_execute hsteady (fun _ _ => trivial) hapart (h.agree hb hposition i.memories) e
  rw [show (expandedSetting pieces).rename = id from rfl, Instr.mapRegisters_id] at e'
  exact ⟨n', e', hn.returned, hn.position, hn.hooks, hn.globals, hn.compared, hn.memory.symm,
    fun r => hn.reads trivial⟩

/-- A move of a register into itself changes nothing. -/
theorem Alike.move {r : Register} (h : Alike m m') (e : Exec.execute (.move r r) m = .ok () n) :
    Alike n m' := by
  obtain ⟨w, m₁, e₁, e₂⟩ := EStateM.bind_eq_ok.1 e
  obtain ⟨rfl, hw⟩ := Exec.read_eq_ok.1 e₁
  have e₂ : m.write r w = n := by cases e₂; rfl
  subst e₂
  refine { h with reads := fun r' => ?_ }
  rw [read_write]
  split
  · next hr => subst hr; rw [← hw]; exact h.reads r'
  · exact h.reads r'

/-- **The stream without moves that do nothing follows the stream with them.** -/
theorem tracks_noops (near : Word → Prop) (a : Allocation) (items : Stream) :
    Tracks near (fun _ => True) (a.noopPieces items) fun m m' => m.items = a.apply items ∧ Alike m m' where
  moves h := ⟨h.1, h.2.hooks, h.2.globals, h.2.compared, h.2.memory, h.2.reads⟩
  skips _ _ h := ⟨h.1, h.2.hooks, h.2.globals, h.2.compared, h.2.memory, h.2.reads⟩
  follows := by
    rintro m m' n i code hb hposition hret hk hpiece ⟨hitems, halike⟩ - e
    have hframe := (Step.frame ⟨hret, i, m.position,
      Stream.firstInstr_iff.2 ⟨.refl _ _, hk⟩, e⟩).1.trans hitems
    rw [hitems] at hk
    have hnext := Stream.start_succ hpiece
    rcases Allocation.noopPieces_cases hk hpiece with rfl | ⟨rfl, r, rfl⟩
    · -- the instruction is there, and the second machine executes it, too
      have hcode : m'.items.At m'.position [i] := by
        rw [hb.items, hposition]; exact Stream.at_start hpiece
      obtain ⟨n', e', hreturned, hposition', hn⟩ :=
        halike.execute hb (by rw [hnext, hposition]; rfl) e
      exact ⟨n', .single hcode (hb.returned.trans hret) (safe_of_forall (fun _ => trivial) _ _) e', hreturned,
        hposition', hframe, hn⟩
    · -- the instruction is not there
      have hs := Instr.Straight.sameControl (i := .move r r) ⟨rfl, rfl⟩ e
      refine ⟨m', .refl m', hb.returned.trans hs.returned.symm, ?_, hframe, Alike.move ?_ e⟩
      · rw [hposition, hs.position]
        exact hnext.symm
      · exact ⟨halike.hooks, halike.globals, halike.compared, halike.memory, halike.reads⟩

end Machine

end Codegen
