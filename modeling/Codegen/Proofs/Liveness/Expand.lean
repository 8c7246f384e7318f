/-
  Liveness in a stream that is expanded item by item.

  Each instruction is replaced by a list of instructions, of which one stands for it
  (`Stands`): the others do not touch the registers that stay.  Then a register that
  stays is live in the expanded stream only where it was live before, and registers
  that stay interfere only if they did before (`Clashes.of_kept`).
-/
import Codegen.Proofs.Liveness.Exact
import Codegen.Proofs.Machine.Expand

namespace Codegen

/-- The instruction goes on to the next one and does not touch certain registers. -/
structure Instr.Passes (stay : Register → Prop) (i : Instr) : Prop where
  falls : i.fallsThrough = true
  noTarget : i.target? = none
  uses : ∀ r, stay r → r ∉ i.uses
  defines : ∀ r, stay r → r ∉ i.defines

/-- Among the instructions that replace `i`, `main` stands for it. -/
structure Instr.Stands (stay : Register → Prop) (i : Instr) (pre : List Instr) (main : Instr)
    (post : List Instr) : Prop where
  front : ∀ i' ∈ pre, i'.Passes stay
  back : ∀ i' ∈ post, i'.Passes stay
  falls : main.fallsThrough = i.fallsThrough
  target : main.target? = i.target?
  uses : ∀ r, stay r → r ∈ main.uses → r ∈ i.uses
  defines : ∀ r, stay r → (r ∈ main.defines ↔ r ∈ i.defines)
  copy : ∀ d s, stay d → stay s → i.copy? = some (d, s) → main.copy? = some (d, s)
  /-- Only an instruction that goes on can have others behind it. -/
  last : post ≠ [] → i.fallsThrough = true

/-- One instruction stands for another if it does the same to the registers that stay. -/
theorem Instr.Stands.alone {stay : Register → Prop} {i main : Instr}
    (falls : main.fallsThrough = i.fallsThrough) (target : main.target? = i.target?)
    (uses : ∀ r, stay r → r ∈ main.uses → r ∈ i.uses)
    (defines : ∀ r, stay r → (r ∈ main.defines ↔ r ∈ i.defines))
    (copy : ∀ d s, stay d → stay s → i.copy? = some (d, s) → main.copy? = some (d, s)) :
    i.Stands stay [] main [] :=
  ⟨List.forall_mem_nil _, List.forall_mem_nil _, falls, target, uses, defines, copy, fun h => absurd rfl h⟩

namespace Stream

/-- What an item may be replaced with while the registers stay. -/
inductive Kept (stay : Register → Prop) : Item → Stream → Prop
  | instr {i main : Instr} {pre post : List Instr} (h : i.Stands stay pre main post) :
    Kept stay (.instr i) ((pre ++ main :: post).map Item.instr)
  | label (l : Label) : Kept stay (.label l) [.label l]

theorem Kept.single {stay : Register → Prop} {i main : Instr} (h : i.Stands stay [] main []) :
    Kept stay (.instr i) [.instr main] := .instr h

/-- Where a position is, seen from the instruction that stands for the item. -/
inductive Phase where
  | before | main | after

variable {stay : Register → Prop} {items : Stream} {pieces : List Stream} {piece : Stream}
  {item : Item} {i : Instr} {j j' k : Nat} {r d : Register} {phase : Phase}

/-- Position `j` of the expanded stream belongs to the item at position `k`. -/
inductive Spot (stay : Register → Prop) (items : Stream) (pieces : List Stream) :
    Nat → Nat → Phase → Prop
  | label {k : Nat} {l : Label} (hk : items[k]? = some (.label l)) (hp : pieces[k]? = some [.label l]) :
    Spot stay items pieces (start pieces k) k .main
  | before {k t : Nat} {i main : Instr} {pre post : List Instr} (hk : items[k]? = some (.instr i))
      (hp : pieces[k]? = some ((pre ++ main :: post).map Item.instr))
      (h : i.Stands stay pre main post) (ht : t < pre.length) :
    Spot stay items pieces (start pieces k + t) k .before
  | main {k : Nat} {i main : Instr} {pre post : List Instr} (hk : items[k]? = some (.instr i))
      (hp : pieces[k]? = some ((pre ++ main :: post).map Item.instr))
      (h : i.Stands stay pre main post) :
    Spot stay items pieces (start pieces k + pre.length) k .main
  | after {k t : Nat} {i main : Instr} {pre post : List Instr} (hk : items[k]? = some (.instr i))
      (hp : pieces[k]? = some ((pre ++ main :: post).map Item.instr))
      (h : i.Stands stay pre main post) (ht : t < post.length) :
    Spot stay items pieces (start pieces k + pre.length + 1 + t) k .after

/-! ## Positions -/

theorem getElem?_start_add (h : pieces[k]? = some piece) {t : Nat} (ht : t < piece.length) :
    pieces.flatten[start pieces k + t]? = piece[t]? := by
  rw [← List.getElem?_drop, drop_start h, List.getElem?_append_left ht]

/-- Every position belongs to a piece. -/
theorem exists_start (h : pieces.flatten[j]? = some item) :
    ∃ k piece t, pieces[k]? = some piece ∧ piece[t]? = some item ∧ j = start pieces k + t := by
  induction pieces generalizing j with
  | nil => simp at h
  | cons p pieces ih =>
    rw [List.flatten_cons] at h
    by_cases hj : j < p.length
    · rw [List.getElem?_append_left hj] at h
      exact ⟨0, p, j, rfl, h, by simp [start]⟩
    · rw [List.getElem?_append_right (Nat.le_of_not_lt hj)] at h
      obtain ⟨k, piece, t, hk, ht, e⟩ := ih h
      refine ⟨k + 1, piece, t, hk, ht, ?_⟩
      simp only [start, List.take_succ_cons, List.flatten_cons, List.length_append] at e ⊢
      omega

/-- If something comes after a piece, then another piece does. -/
theorem exists_next_piece (h : pieces[k]? = some piece)
    (hj : pieces.flatten[start pieces (k + 1)]? = some item) : ∃ piece', pieces[k + 1]? = some piece' := by
  rw [start_succ h, ← List.getElem?_drop, drop_start h, List.getElem?_append_right (by simp),
    Nat.sub_self] at hj
  by_contra hnone
  have hle : pieces.length ≤ k + 1 := by
    refine Nat.le_of_not_lt fun hlt => hnone ⟨_, List.getElem?_eq_getElem hlt⟩
  rw [List.drop_eq_nil_of_le hle] at hj
  cases hj

section
variable (h : List.Forall₂ (Kept stay) items pieces)
include h

theorem exists_item (hk : pieces[k]? = some piece) : ∃ item, items[k]? = some item ∧ Kept stay item piece := by
  induction h generalizing k with
  | nil => cases hk
  | @cons item _ _ _ hx _ ih =>
    cases k with
    | zero => cases hk; exact ⟨item, rfl, hx⟩
    | succ k => exact ih hk

/-- A piece is entered in front of the instruction that stands for its item, or there. -/
theorem spot_start (hk : pieces[k]? = some piece) :
    Spot stay items pieces (start pieces k) k .before ∨ Spot stay items pieces (start pieces k) k .main := by
  obtain ⟨item, hitem, hkept⟩ := exists_item h hk
  cases hkept with
  | label l => exact Or.inr (.label hitem hk)
  | @instr i main pre post hi =>
    cases pre with
    | nil => exact Or.inr (.main hitem hk hi)
    | cons => exact Or.inl (.before (t := 0) hitem hk hi (by simp))

/-- A label of the expanded stream stands for itself. -/
theorem spot_label {l : Label} (hj : pieces.flatten[j]? = some (.label l)) :
    ∃ k, items[k]? = some (.label l) ∧ Spot stay items pieces j k .main := by
  obtain ⟨k, piece, t, hk, ht, rfl⟩ := exists_start hj
  obtain ⟨item, hitem, hkept⟩ := exists_item h hk
  cases hkept with
  | label l' =>
    cases t with
    | zero => cases ht; exact ⟨k, hitem, .label hitem hk⟩
    | succ t => simp at ht
  | instr =>
    rw [List.getElem?_map, Option.map_eq_some_iff] at ht
    obtain ⟨i, -, e⟩ := ht
    cases e

/-- The instruction at a position is the one that stands for its item, or it passes. -/
theorem exists_spot (hj : pieces.flatten[j]? = some (.instr i)) :
    (∃ k i₀ pre post, items[k]? = some (.instr i₀) ∧ i₀.Stands stay pre i post ∧
      Spot stay items pieces j k .main) ∨ i.Passes stay := by
  obtain ⟨k, piece, t, hk, ht, rfl⟩ := exists_start hj
  obtain ⟨item, hitem, hkept⟩ := exists_item h hk
  cases hkept with
  | label l =>
    cases t with
    | zero => cases ht
    | succ t => simp at ht
  | @instr i₀ main pre post hi =>
    rw [List.getElem?_map, Option.map_eq_some_iff] at ht
    obtain ⟨i', hi', e⟩ := ht
    cases e
    rcases Nat.lt_trichotomy t pre.length with hlt | rfl | hgt
    · rw [List.getElem?_append_left hlt] at hi'
      exact Or.inr (hi.front _ (List.mem_of_getElem? hi'))
    · rw [List.getElem?_append_right (Nat.le_refl _), Nat.sub_self] at hi'
      cases hi'
      exact Or.inl ⟨k, i₀, pre, post, hitem, hi, .main hitem hk hi⟩
    · obtain ⟨s, rfl⟩ := Nat.exists_eq_add_of_lt hgt
      rw [List.getElem?_append_right (by omega), show pre.length + s + 1 - pre.length = s + 1 by omega] at hi'
      exact Or.inr (hi.back _ (List.mem_of_getElem? hi'))

theorem expands_of_kept : List.Forall₂ Expands items pieces :=
  h.imp fun _ _ hitem => by
    cases hitem with
    | instr => exact .instr _ _
    | label l => exact .other rfl

theorem clean_of_kept (r : Register) : .stray r ∉ pieces.flatten := by
  intro hr
  obtain ⟨j, hj⟩ := List.mem_iff_getElem?.1 hr
  obtain ⟨k, piece, t, hk, ht, -⟩ := exists_start hj
  obtain ⟨item, -, hkept⟩ := exists_item h hk
  cases hkept with
  | instr => simpa using List.mem_of_getElem? ht
  | label l => simpa using List.mem_of_getElem? ht

/-- The jumps of the expanded stream are those of the stream. -/
theorem targets_of_kept (htargets : ∀ i ∈ items.instructions, ∀ l, i.target? = some l → .label l ∈ items) :
    ∀ i ∈ Stream.instructions pieces.flatten, ∀ l, i.target? = some l → .label l ∈ pieces.flatten := by
  intro i hi l hl
  obtain ⟨item, hitem, e⟩ := List.mem_filterMap.1 hi
  obtain rfl : item = .instr i := by cases item <;> cases e; rfl
  obtain ⟨j, hj⟩ := List.mem_iff_getElem?.1 hitem
  rcases exists_spot h hj with ⟨k, i₀, pre, post, hk, hstands, -⟩ | hpasses
  · have hmem := htargets i₀ (List.mem_filterMap.2 ⟨_, List.mem_of_getElem? hk, rfl⟩) l
      (hstands.target ▸ hl)
    obtain ⟨k', hk'⟩ := List.mem_iff_getElem?.1 hmem
    exact List.mem_of_getElem? (getElem?_start (expands_of_kept h) hk' rfl)
  · rw [hpasses.noTarget] at hl
    cases hl

end

/-! ## Steps -/

/-- The item at a position in front of the main instruction, or behind it, passes. -/
theorem Spot.passes (h : Spot stay items pieces j k phase) (hphase : phase ≠ .main) :
    ∃ i, pieces.flatten[j]? = some (.instr i) ∧ i.Passes stay := by
  cases h with
  | label | main => exact absurd rfl hphase
  | @before k t i main pre post hk hp h ht =>
    rw [getElem?_start_add hp (by simp; omega), List.getElem?_map, List.getElem?_append_left ht,
      List.getElem?_eq_getElem ht]
    exact ⟨_, rfl, h.front _ (List.getElem_mem ht)⟩
  | @after k t i main pre post hk hp h ht =>
    rw [show start pieces k + pre.length + 1 + t = start pieces k + (pre.length + 1 + t) by omega,
      getElem?_start_add hp (by simp; omega), List.getElem?_map,
      List.getElem?_append_right (by omega), show pre.length + 1 + t - pre.length = t + 1 by omega,
      List.getElem?_cons_succ, List.getElem?_eq_getElem ht]
    exact ⟨_, rfl, h.back _ (List.getElem_mem ht)⟩

theorem getElem?_main {main : Instr} {pre post : List Instr}
    (hp : pieces[k]? = some ((pre ++ main :: post).map Item.instr)) :
    pieces.flatten[start pieces k + pre.length]? = some (.instr main) := by
  rw [getElem?_start_add hp (by simp), List.getElem?_map,
    List.getElem?_append_right (Nat.le_refl _), Nat.sub_self]
  rfl

theorem Successor.of_passes (hpasses : i.Passes stay) (hj : items[j]? = some (.instr i))
    (h : items.Successor j j') : j' = j + 1 := by
  obtain ⟨item, hitem, h⟩ := h
  rw [hj] at hitem
  cases hitem
  rcases h with ⟨-, rfl⟩ | ⟨l, hl, -⟩
  · rfl
  · rw [hpasses.noTarget] at hl
    cases hl

/-- In front of the main instruction, control goes on to it. -/
theorem Spot.before_step (h : Spot stay items pieces j k .before)
    (hs : Successor pieces.flatten j j') :
    Spot stay items pieces j' k .before ∨ Spot stay items pieces j' k .main := by
  obtain ⟨i', hi', hpasses⟩ := h.passes (by simp)
  obtain rfl := hs.of_passes hpasses hi'
  cases h with
  | @before k t i main pre post hk hp h ht =>
    rcases Nat.lt_or_eq_of_le (Nat.succ_le_of_lt ht) with hlt | e
    · exact Or.inl (.before hk hp h hlt)
    · have := Spot.main hk hp h
      rw [← e] at this
      exact Or.inr this

/-- From the main instruction on, control stays behind it or goes where it went before. -/
theorem Spot.step (hkept : List.Forall₂ (Kept stay) items pieces) (h : Spot stay items pieces j k phase)
    (hphase : phase ≠ .before) (hs : Successor pieces.flatten j j')
    (hj' : pieces.flatten[j']? = some item) :
    Spot stay items pieces j' k .after ∨ ∃ k', items.Successor k k' ∧
      (Spot stay items pieces j' k' .before ∨ Spot stay items pieces j' k' .main) := by
  have hnext : ∀ {piece}, pieces[k]? = some piece → j' = start pieces k + piece.length →
      items.Successor k (k + 1) → ∃ k', items.Successor k k' ∧
        (Spot stay items pieces j' k' .before ∨ Spot stay items pieces j' k' .main) := by
    intro piece hp e hsucc
    rw [← start_succ hp] at e
    subst e
    obtain ⟨piece', hp'⟩ := exists_next_piece hp hj'
    exact ⟨k + 1, hsucc, spot_start hkept hp'⟩
  have hbehind : ∀ {i main : Instr} {pre post : List Instr} (t : Nat), items[k]? = some (.instr i) →
      pieces[k]? = some ((pre ++ main :: post).map Item.instr) → i.Stands stay pre main post →
      i.fallsThrough = true → t ≤ post.length → j' = start pieces k + pre.length + 1 + t →
      Spot stay items pieces j' k .after ∨ ∃ k', items.Successor k k' ∧
        (Spot stay items pieces j' k' .before ∨ Spot stay items pieces j' k' .main) := by
    intro i main pre post t hk hp hi hfalls ht e
    rcases Nat.lt_or_eq_of_le ht with hlt | rfl
    · exact Or.inl (e ▸ .after hk hp hi hlt)
    · refine Or.inr (hnext hp ?_ ⟨_, hk, Or.inl ⟨hfalls, rfl⟩⟩)
      simp only [List.length_map, List.length_append, List.length_cons]
      omega
  cases h with
  | before => exact absurd rfl hphase
  | @label k l hk hp =>
    obtain ⟨item', hitem', hs⟩ := hs
    have hstart := getElem?_start_add hp (t := 0) (by simp)
    rw [Nat.add_zero, hitem'] at hstart
    cases hstart
    exact Or.inr (hnext hp hs ⟨_, hk, rfl⟩)
  | @main k i main pre post hk hp hi =>
    obtain ⟨item', hitem', hs⟩ := hs
    rw [getElem?_main hp] at hitem'
    cases hitem'
    rcases hs with ⟨hfalls, rfl⟩ | ⟨l, hl, hlabel⟩
    · exact hbehind 0 hk hp hi (hi.falls ▸ hfalls) (Nat.zero_le _) rfl
    · obtain ⟨k', hk', hspot⟩ := spot_label hkept hlabel
      exact Or.inr ⟨k', ⟨_, hk, Or.inr ⟨l, hi.target ▸ hl, hk'⟩⟩, Or.inr hspot⟩
  | @after k t i main pre post hk hp hi ht =>
    obtain ⟨i', hi', hpasses⟩ := (Spot.after hk hp hi ht).passes (by simp)
    have e := hs.of_passes hpasses hi'
    exact hbehind (t + 1) hk hp hi (hi.last (List.ne_nil_of_length_pos (by omega))) (by omega) (by omega)

/-! ## Liveness -/

theorem exists_item_of_liveAt (h : items.LiveAt r j) : ∃ item, items[j]? = some item := by
  cases h with
  | use hk _ => exact ⟨_, hk⟩
  | step h _ _ => obtain ⟨item, hitem, -⟩ := h; exact ⟨item, hitem⟩

/-- What a register that is live at a position of the expanded stream was. -/
def WasLive (items : Stream) (r : Register) (k : Nat) : Phase → Prop
  | .before | .main => items.LiveAt r k
  | .after => items.LiveOut k r

/-- What is live behind the main instruction was live behind the item. -/
theorem liveOut_of_step (hkept : List.Forall₂ (Kept stay) items pieces)
    (h : Spot stay items pieces j k phase) (hphase : phase ≠ .before)
    (hs : Successor pieces.flatten j j') (hlive : LiveAt pieces.flatten r j')
    (hwas : ∀ {k phase}, Spot stay items pieces j' k phase → WasLive items r k phase) :
    items.LiveOut k r := by
  obtain ⟨item, hitem⟩ := exists_item_of_liveAt hlive
  rcases h.step hkept hphase hs hitem with h | ⟨k', hs', h | h⟩
  · exact hwas h
  · exact ⟨k', hs', hwas h⟩
  · exact ⟨k', hs', hwas h⟩

/-- **A register that stays is live only where it was.** -/
theorem LiveAt.wasLive (hkept : List.Forall₂ (Kept stay) items pieces) (hr : stay r)
    (hlive : LiveAt pieces.flatten r j) {k : Nat} {phase : Phase}
    (h : Spot stay items pieces j k phase) : WasLive items r k phase := by
  induction hlive generalizing k phase with
  | @use j i' hj hused =>
    -- only the main instruction uses the register
    cases h with
    | label hk hp =>
      have := getElem?_start_add hp (t := 0) (by simp)
      rw [Nat.add_zero, hj] at this
      cases this
    | main hk hp hi =>
      rw [getElem?_main hp] at hj
      cases hj
      exact .use hk (hi.uses r hr hused)
    | before hk hp hi ht =>
      obtain ⟨i'', hi'', hpasses⟩ := (Spot.before hk hp hi ht).passes (by simp)
      rw [hj] at hi''
      cases hi''
      exact absurd hused (hpasses.uses r hr)
    | after hk hp hi ht =>
      obtain ⟨i'', hi'', hpasses⟩ := (Spot.after hk hp hi ht).passes (by simp)
      rw [hj] at hi''
      cases hi''
      exact absurd hused (hpasses.uses r hr)
  | @step j j' hs hdef hlive ih =>
    cases phase with
    | before =>
      rcases h.before_step hs with h' | h'
      · exact ih h'
      · exact show WasLive items r k .main from ih h'
    | after => exact liveOut_of_step hkept h (by simp) hs hlive ih
    | main =>
      obtain ⟨k', hs', hlive'⟩ := liveOut_of_step hkept h (by simp) hs hlive ih
      refine .step hs' (fun i hi => ?_) hlive'
      cases h with
      | label hk hp => rw [hk] at hi; cases hi
      | main hk hp hstands =>
        rw [hk] at hi
        cases hi
        exact fun hd => hdef _ (getElem?_main hp) ((hstands.defines r hr).2 hd)

end Stream

namespace Liveness

variable {stay : Register → Prop} {items : Stream} {pieces : List Stream} {i : Instr} {j : Nat}
  {r d : Register}

/-- **Registers that stay interfere only if they did before.** -/
theorem Clashes.of_kept (hkept : List.Forall₂ (Stream.Kept stay) items pieces)
    (hj : pieces.flatten[j]? = some (.instr i)) (hd : stay d) (hr : stay r)
    (h : Clashes i (Stream.LiveOut pieces.flatten j) d r) :
    ∃ k i₀, items[k]? = some (.instr i₀) ∧ Clashes i₀ (items.LiveOut k) d r := by
  obtain ⟨hdef, ⟨j', hs, hlive⟩, hne, hcopy⟩ := h
  rcases Stream.exists_spot hkept hj with ⟨k, i₀, pre, post, hk, hi, hspot⟩ | hpasses
  · have hout : items.LiveOut k r := Stream.liveOut_of_step hkept hspot (by simp) hs hlive
      fun h => hlive.wasLive hkept hr h
    refine ⟨k, i₀, hk, (hi.defines d hd).1 hdef, hout, hne, fun d' hcopy' => ?_⟩
    -- the copy would be one of registers that stay
    obtain rfl : d = d' := by
      have := (hi.defines d hd).1 hdef
      rw [Instr.defines_of_copy? hcopy'] at this
      exact List.mem_singleton.1 this
    exact hcopy d (hi.copy d r hd hr hcopy')
  · exact absurd hdef (hpasses.defines d hd)

end Liveness

end Codegen
