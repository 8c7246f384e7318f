/-
  Streams expanded item by item.

  Each instruction of a stream is replaced by a list of instructions; labels stay.
  All positions move, but a run of the stream is followed by one of the expanded
  stream if every instruction is followed by its list (`Tracks.safeSteps`).
-/
import Codegen.Proofs.Machine.Code

namespace Codegen

namespace Stream

variable {items : Stream} {p q k : Nat} {i : Instr}

/-- No instruction stands between two positions. -/
def Skips (items : Stream) (p q : Nat) : Prop :=
  p ≤ q ∧ ∀ j, p ≤ j → j < q → ∃ item, items[j]? = some item ∧ item.instr? = none

theorem Skips.refl (items : Stream) (p : Nat) : items.Skips p p :=
  ⟨Nat.le_refl p, fun _ h h' => absurd h (by omega)⟩

theorem Skips.trans (h : items.Skips p q) (h' : items.Skips q k) : items.Skips p k :=
  ⟨Nat.le_trans h.1 h'.1, fun j hp hk =>
    if hq : j < q then h.2 j hp hq else h'.2 j (Nat.le_of_not_lt hq) hk⟩

theorem skips_succ {item : Item} (h : items[p]? = some item) (hitem : item.instr? = none) :
    items.Skips p (p + 1) :=
  ⟨Nat.le_succ p, fun j hj hj' => by
    obtain rfl : j = p := by omega
    exact ⟨item, h, hitem⟩⟩

/-- The next instruction is the one behind what is skipped. -/
theorem firstInstr_iff :
    Exec.firstInstr p (items.drop p) = some (i, k) ↔ items.Skips p k ∧ items[k]? = some (.instr i) := by
  constructor
  · intro h
    obtain ⟨hle, hk, hskip⟩ := Exec.firstInstr_eq_some h
    rw [List.getElem?_drop, Nat.add_sub_cancel' hle] at hk
    refine ⟨⟨hle, fun j hj hjk => ?_⟩, hk⟩
    obtain ⟨item, hitem, hnone⟩ := hskip j hj hjk
    rw [List.getElem?_drop, Nat.add_sub_cancel' hj] at hitem
    exact ⟨item, hitem, hnone⟩
  · rintro ⟨⟨hle, hskip⟩, hk⟩
    -- by induction on the number of items that are skipped
    obtain ⟨t, rfl⟩ := Nat.exists_eq_add_of_le hle
    clear hle
    induction t generalizing p with
    | zero =>
      rw [List.drop_eq_getElem?_toList_append, show items[p]? = _ from hk]
      rfl
    | succ t ih =>
      obtain ⟨item, hitem, hnone⟩ := hskip p (Nat.le_refl p) (by omega)
      have e : p + (t + 1) = p + 1 + t := by omega
      rw [e] at hskip hk ⊢
      have hrest := ih hk fun j hj hj' => hskip j (by omega) hj'
      rw [List.drop_eq_getElem?_toList_append, hitem]
      cases item with
      | instr i' => cases hnone
      | label l => exact hrest
      | stray r => exact hrest

/-! ## Positions -/

/-- What an item may be replaced with. -/
inductive Expands : Item → Stream → Prop
  | instr (i : Instr) (code : List Instr) : Expands (.instr i) (code.map Item.instr)
  | other {item : Item} (h : item.instr? = none) : Expands item [item]

/-- Where the piece of the item at position `k` starts. -/
def start (pieces : List Stream) (k : Nat) : Nat := (pieces.take k).flatten.length

variable {pieces : List Stream} {piece : Stream} {item : Item}

theorem start_succ (h : pieces[k]? = some piece) :
    start pieces (k + 1) = start pieces k + piece.length := by
  simp [start, List.take_add_one, h]

theorem drop_start (h : pieces[k]? = some piece) :
    pieces.flatten.drop (start pieces k) = piece ++ (pieces.drop (k + 1)).flatten := by
  have e : pieces.flatten = (pieces.take k).flatten ++ (pieces.drop k).flatten := by
    rw [← List.flatten_append, List.take_append_drop]
  rw [e, start, List.drop_left, List.drop_eq_getElem?_toList_append, h]
  rfl

theorem at_start {code : List Instr} (h : pieces[k]? = some (code.map Item.instr)) :
    Stream.At pieces.flatten (start pieces k) code := ⟨_, (drop_start h).symm⟩

section
variable (h : List.Forall₂ Expands items pieces)
include h

theorem exists_piece (hk : items[k]? = some item) :
    ∃ piece, pieces[k]? = some piece ∧ Expands item piece := by
  induction h generalizing k with
  | nil => cases hk
  | @cons x piece _ _ hx _ ih =>
    cases k with
    | zero => cases hk; exact ⟨piece, rfl, hx⟩
    | succ k => exact ih hk

/-- An instruction is replaced with instructions. -/
theorem exists_code {i : Instr} (hk : items[k]? = some (.instr i)) :
    ∃ code : List Instr, pieces[k]? = some (code.map Item.instr) := by
  obtain ⟨piece, hpiece, hexp⟩ := exists_piece h hk
  cases hexp with
  | instr _ code => exact ⟨code, hpiece⟩
  | other hnone => cases hnone

/-- An item that is no instruction stands at its new position. -/
theorem piece_of_other (hk : items[k]? = some item) (hitem : item.instr? = none) :
    pieces[k]? = some [item] := by
  obtain ⟨piece, hpiece, hexp⟩ := exists_piece h hk
  cases hexp with
  | instr => cases hitem
  | other => exact hpiece

theorem getElem?_start (hk : items[k]? = some item) (hitem : item.instr? = none) :
    pieces.flatten[start pieces k]? = some item := by
  have e := drop_start (piece_of_other h hk hitem)
  have : (pieces.flatten.drop (start pieces k))[0]? = some item := by rw [e]; rfl
  rwa [List.getElem?_drop, Nat.add_zero] at this

theorem skips_start (hskip : items.Skips p q) :
    Skips pieces.flatten (start pieces p) (start pieces q) := by
  obtain ⟨hle, hskip⟩ := hskip
  obtain ⟨t, rfl⟩ := Nat.exists_eq_add_of_le hle
  clear hle
  induction t with
  | zero => exact Skips.refl _ _
  | succ t ih =>
    obtain ⟨item, hitem, hnone⟩ := hskip (p + t) (by omega) (by omega)
    refine (ih fun j hj hj' => hskip j hj (by omega)).trans ?_
    rw [← Nat.add_assoc, start_succ (piece_of_other h hitem hnone)]
    exact skips_succ (getElem?_start h hitem hnone) hnone

theorem labels_flatten :
    pieces.flatten.filterMap Item.label? = items.filterMap Item.label? := by
  induction h with
  | nil => rfl
  | cons hx _ ih =>
    rw [List.flatten_cons, List.filterMap_append, ih]
    cases hx with
    | instr i code =>
      have e : (code.map Item.instr).filterMap Item.label? = [] := by
        simp [List.filterMap_map, Function.comp_def, Item.label?]
      rw [e]
      rfl
    | other => rw [List.filterMap_cons, List.filterMap_cons]; split <;> rfl

end

end Stream

/-! ## Renamed instructions -/

section
variable (f g : Register → Register)

@[simp] theorem Mem.mapRegisters_id (o : Mem) : o.mapRegisters id = o := by
  cases o; simp [mapRegisters]

@[simp] theorem Operand.mapRegisters_id (o : Operand) : o.mapRegisters id = o := by
  cases o <;> simp [mapRegisters]

@[simp] theorem Instr.mapRegisters_id (i : Instr) : i.mapRegisters id = i := by
  cases i <;> simp [mapRegisters]

theorem Mem.registers_mapRegisters (o : Mem) : (o.mapRegisters f).registers = o.registers.map f := by
  cases h : o.base <;> simp [mapRegisters, registers, h]

theorem Operand.registers_mapRegisters (o : Operand) :
    (o.mapRegisters f).registers = o.registers.map f := by
  cases o <;> simp [mapRegisters, registers, Mem.registers_mapRegisters]

theorem Operand.addressUses_mapRegisters (o : Operand) :
    (o.mapRegisters f).addressUses = o.addressUses.map f := by
  cases o <;> simp [mapRegisters, addressUses, Mem.registers_mapRegisters]

theorem Operand.defined_mapRegisters (o : Operand) : (o.mapRegisters f).defined = o.defined.map f := by
  cases o <;> simp [mapRegisters, defined, register?]

end

theorem Instr.target?_mapRegisters {f : Register → Register} (i : Instr) :
    (i.mapRegisters f).target? = i.target? := by cases i <;> rfl

theorem Instr.Conventional.mapRegisters {f : Register → Register} {i : Instr} (h : i.Conventional) :
    (i.mapRegisters f).Conventional := by
  cases i with
  | call | ret => exact h
  | _ => exact ⟨trivial, trivial⟩

section
variable {f : Register → Register} {i : Instr} (hi : i.ListsPhysical)
  (hf : ∀ r ∈ i.mentions, r.isPhysical = true → f r = r)
include hi hf

theorem Instr.uses_mapRegisters : (i.mapRegisters f).uses = i.uses.map f := by
  cases i with
  | call l arguments clobbers =>
    exact (List.map_congr_left fun r hr => hf r (List.mem_append_left _ hr) (hi.1 r hr)).trans
      (List.map_id _) |>.symm
  | ret results =>
    exact (List.map_congr_left fun r hr => hf r (List.mem_append_left _ hr) (hi r hr)).trans
      (List.map_id _) |>.symm
  | _ => simp [mapRegisters, uses, Operand.registers_mapRegisters, Operand.addressUses_mapRegisters,
      Mem.registers_mapRegisters]

theorem Instr.defines_mapRegisters : (i.mapRegisters f).defines = i.defines.map f := by
  cases i with
  | call l arguments clobbers =>
    exact (List.map_congr_left fun r hr => hf r (List.mem_append_right _ hr) (hi.2 r hr)).trans
      (List.map_id _) |>.symm
  | binary op dst src =>
    simp only [mapRegisters, defines]
    split
    · rfl
    · exact Operand.defined_mapRegisters f dst
  | _ => simp [mapRegisters, defines, Operand.defined_mapRegisters]

theorem Instr.mentions_mapRegisters : (i.mapRegisters f).mentions = i.mentions.map f := by
  rw [mentions, uses_mapRegisters hi hf, defines_mapRegisters hi hf, mentions, List.map_append]

end

/-! ## Runs -/

namespace Machine

variable {near near' : Word → Prop} {m m' n n' : Machine} {pieces : List Stream} {q : Nat}

theorem SafeSteps.frame (h : SafeSteps near m n) :
    n.items = m.items ∧ n.hooks = m.hooks ∧ n.labels = m.labels := by
  induction h with
  | refl => exact ⟨rfl, rfl, rfl⟩
  | head hret hnext _ e _ ih =>
    obtain ⟨hitems, hhooks, hlabels, -⟩ := Step.frame ⟨hret, _, _, hnext, e⟩
    exact ⟨ih.1.trans hitems, ih.2.1.trans hhooks, ih.2.2.trans hlabels⟩

/-- Steps from behind what is skipped are steps from before it. -/
theorem SafeSteps.of_skips (hskip : m.items.Skips m.position q)
    (h : SafeSteps near { m with position := q } n) :
    n = { m with position := q } ∨ SafeSteps near m n := by
  cases h with
  | refl => exact Or.inl rfl
  | head hret hnext hsafe e hs =>
    obtain ⟨hskip', hk⟩ := Stream.firstInstr_iff.1 hnext
    exact Or.inr (.head hret (Stream.firstInstr_iff.2 ⟨hskip.trans hskip', hk⟩) hsafe e hs)

/-- The second machine is at the same place of the expanded stream. -/
structure Beside (pieces : List Stream) (m m' : Machine) : Prop where
  expands : List.Forall₂ Stream.Expands m.items pieces
  items : m'.items = pieces.flatten
  placed : Exec.Placed m.items m.labels
  placed' : Exec.Placed m'.items m'.labels
  returned : m'.returned = m.returned
  position : m'.items.Skips m'.position (Stream.start pieces m.position)

theorem Beside.label {l : Label} {j : Nat} (h : Beside pieces m m') (hj : m.labels.get? l = some j) :
    m'.labels.get? l = some (Stream.start pieces j) := by
  rw [h.placed' l, h.items]
  exact Stream.getElem?_start h.expands ((h.placed l j).1 hj) rfl

/-- The machines are beside each other again after they went on. -/
theorem Beside.after (h : Beside pieces m m') (hitems : n.items = m.items) (hlabels : n.labels = m.labels)
    (hitems' : n'.items = m'.items) (hlabels' : n'.labels = m'.labels) (hreturned : n'.returned = n.returned)
    (hposition : n'.items.Skips n'.position (Stream.start pieces n.position)) : Beside pieces n n' where
  expands := hitems ▸ h.expands
  items := hitems'.trans h.items
  placed := hitems ▸ hlabels ▸ h.placed
  placed' := hitems' ▸ hlabels' ▸ h.placed'
  returned := hreturned
  position := hposition

/-- A relation between machines that is kept if an instruction is replaced by its
    piece.  It may depend on the position of the first machine only. -/
structure Tracks (near near' : Word → Prop) (pieces : List Stream) (R : Machine → Machine → Prop) :
    Prop where
  moves : ∀ {m m' q}, R m m' → R m { m' with position := q }
  skips : ∀ {m m' k}, m.returned = false → m.items.Skips m.position k → R m m' →
    R { m with position := k } m'
  follows : ∀ {m m' n i} {code : List Instr}, Beside pieces m m' → m'.position = Stream.start pieces m.position →
    m.returned = false → m.items[m.position]? = some (.instr i) →
    pieces[m.position]? = some (code.map Item.instr) → R m m' → Safe near i m.tick →
    Exec.execute i m.tick = .ok () n →
    ∃ n', SafeSteps near' m' n' ∧ n'.returned = n.returned ∧
      n'.position = Stream.start pieces n.position ∧ R n n'

/-- **The expanded stream follows a run.** -/
theorem Tracks.safeSteps {R : Machine → Machine → Prop} (ht : Tracks near near' pieces R)
    (h : Beside pieces m m') (hR : R m m') (hs : SafeSteps near m n) :
    ∃ n', SafeSteps near' m' n' ∧ Beside pieces n n' ∧ R n n' := by
  induction hs generalizing m' with
  | refl => exact ⟨m', .refl m', h, hR⟩
  | @head m₁ m₂ m₃ i k hret hnext hsafe e _ ih =>
    obtain ⟨hskip, hk⟩ := Stream.firstInstr_iff.1 hnext
    obtain ⟨code, hpiece⟩ := Stream.exists_code h.expands hk
    -- both machines move to the instruction
    have hskip' : m'.items.Skips m'.position (Stream.start pieces k) :=
      h.position.trans (h.items ▸ Stream.skips_start h.expands hskip)
    have hmoved : Beside pieces { m₁ with position := k }
        { m' with position := Stream.start pieces k } :=
      { h with position := Stream.Skips.refl _ _ }
    obtain ⟨n', hs', hreturned, hposition, hn⟩ :=
      ht.follows hmoved rfl hret hk hpiece (ht.moves (ht.skips hret hskip hR)) hsafe e
    obtain ⟨hitems, -, hlabels, -⟩ := Step.frame ⟨hret, _, _, hnext, e⟩
    obtain ⟨hitems', -, hlabels'⟩ := hs'.frame
    have hbeside : Beside pieces m₂ n' :=
      h.after hitems hlabels hitems' hlabels' hreturned (hposition ▸ Stream.Skips.refl _ _)
    rcases SafeSteps.of_skips hskip' hs' with e' | hs'
    · -- nothing was executed, so the second machine need not move
      subst e'
      have hstay : R m₂ { { m' with position := Stream.start pieces k } with
          position := m'.position } := ht.moves hn
      exact ih { hbeside with position := hskip'.trans hbeside.position } hstay
    · obtain ⟨n'', hs'', hb, hr⟩ := ih hbeside hn
      exact ⟨n'', hs'.trans hs'', hb, hr⟩

end Machine

end Codegen
