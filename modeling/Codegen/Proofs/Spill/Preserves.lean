/-
  Spill code preserves meaning.

  If spilling succeeds, then the new stream returns whenever the old one does, from
  the same return, and the machines agree on memory and on the registers, except for
  the new slots and for spilled and scratch registers (`spill_preserves`).
-/
import Codegen.Proofs.Lint.Sound
import Codegen.Proofs.Spill.Follow

namespace Codegen

/-! ## Returns -/

/-- The results of a return. -/
def Instr.results? : Instr → Option (List Register)
  | .ret results => some results
  | _ => none

/-- The returns of a stream, in order. -/
def Stream.returns (items : Stream) : List (List Register) := items.instructions.filterMap Instr.results?

theorem Stream.returns_append (xs ys : Stream) :
    Stream.returns (xs ++ ys) = xs.returns ++ ys.returns := by
  rw [returns, Spiller.instructions_append, List.filterMap_append]
  rfl

namespace Machine

variable {m n : Machine}

/-- A machine that returned is right behind a return. -/
theorem Steps.ended {j : Nat} (h : Steps j m n) (hm : m.returned = false) (hn : n.returned = true) :
    ∃ k results, n.position = k + 1 ∧ n.items[k]? = some (.instr (.ret results)) := by
  induction h with
  | refl => rw [hm] at hn; cases hn
  | @head j m₁ m₂ m₃ h hs ih =>
    cases hret : m₂.returned with
    | false => exact ih hret hn
    | true =>
      -- nothing happens after a return
      obtain rfl : m₂ = m₃ := by
        cases hs with
        | refl => rfl
        | head h' _ => rw [h'.1] at hret; cases hret
      obtain ⟨-, i, k, hnext, e⟩ := h
      cases (Exec.control_execute e).1 with
      | falls hsame _ => rw [hsame.returned] at hret; rw [show m₁.returned = true from hret] at hm; cases hm
      | jumps _ _ he => subst he; rw [show m₁.returned = true from hret] at hm; cases hm
      | @returns results hi he =>
        subst he hi
        exact ⟨k, results, rfl, (Stream.firstInstr_iff.1 hnext).2⟩

/-- The instructions that a machine comes to access near addresses only. -/
def Within (near : Word → Prop) (m : Machine) : Prop :=
  ∀ j n i k, Steps j m n → n.returned = false →
    Exec.firstInstr n.position (n.items.drop n.position) = some (i, k) → Safe near i (n.fetch k)

theorem Within.safeSteps {near : Word → Prop} (hm : m.Within near) {j : Nat} (h : Steps j m n) :
    SafeSteps near m n := by
  induction h with
  | refl => exact .refl _
  | @head j m₁ m₂ m₃ h _ ih =>
    obtain ⟨hret, i, k, hnext, e⟩ := h
    refine .head hret hnext (hm 0 m₁ i k (.refl m₁) hret hnext) e (ih fun j n i' k' hs => ?_)
    exact hm (j + 1) n i' k' (.head ⟨hret, i, k, hnext, e⟩ hs)

/-- A run of the machine accesses near addresses only. -/
def RunsWithin (near : Word → Prop) (m : Machine) : Prop :=
  ∀ m₁, m.items.zipIdx.forM Exec.define m = .ok () m₁ → m₁.Within near

/-- A machine beside one that is right behind a return is behind the same return. -/
theorem Beside.ended {pieces : List Stream} {m' : Machine} {k k' : Nat} {results results' : List Register}
    (h : Beside pieces m m') (hm : m.position = k + 1) (hm' : m'.position = k' + 1)
    (hk' : m'.items[k']? = some (.instr (.ret results')))
    (hpiece : pieces[k]? = some [.instr (.ret results)]) :
    k' = Stream.start pieces k ∧ results' = results := by
  have hat : m'.items[Stream.start pieces k]? = some (.instr (.ret results)) := by
    have := Stream.drop_start hpiece
    have hget : (pieces.flatten.drop (Stream.start pieces k))[0]? = some (.instr (.ret results)) := by
      rw [this]; rfl
    rwa [List.getElem?_drop, Nat.add_zero, ← h.items] at hget
  obtain ⟨hle, hskip⟩ := h.position
  rw [hm, hm', Stream.start_succ hpiece, List.length_singleton] at hle hskip
  -- no instruction is skipped, so the return is not ahead
  have hge : Stream.start pieces k ≤ k' := by
    refine Nat.le_of_not_lt fun hlt => ?_
    obtain ⟨item, hitem, hnone⟩ := hskip (Stream.start pieces k) hlt (Nat.lt_succ_self _)
    rw [hat] at hitem
    cases hitem
    cases hnone
  obtain rfl : k' = Stream.start pieces k := by omega
  rw [hat] at hk'
  cases hk'
  exact ⟨rfl, rfl⟩

end Machine

/-! ## Spill code -/

namespace Spiller

open Machine

variable {slots : Slots} {scratch : List Physical} {i : Instr} {code : List Instr} {items : Stream}
  {pieces : List Stream}

theorem Expanded.returns (h : Expanded slots scratch i code) (hi : i.ListsPhysical)
    (hvirtual : ∀ r slot, slots.slot? r = some slot → r.isPhysical = false) :
    code.filterMap Instr.results? = [i].filterMap Instr.results? := by
  cases h with
  | same => rfl
  | direct h => cases h <;> rfl
  | through hspilled _ =>
    have htransfers : ∀ {access : Register → Access} {rs} places,
        (transfers slots places access rs).filterMap Instr.results? = [] := fun {access rs} places => by
      refine List.filterMap_eq_nil_iff.2 fun i' hi' => ?_
      obtain ⟨-, -, slot, p, -, -, rfl⟩ := mem_transfers hi'
      cases access (.physical p) <;> rfl
    obtain ⟨r, hr, slot, hslot⟩ := hspilled
    have hstraight := (hi.of_virtual hr (hvirtual r slot hslot)).1
    rw [List.filterMap_append, List.filterMap_append, htransfers, htransfers, List.append_nil]
    cases i with
    | ret => cases hstraight.2
    | _ => rfl

theorem Expanded.eq_of_ret {results : List Register} (h : Expanded slots scratch (.ret results) code)
    (hi : (Instr.ret results).ListsPhysical)
    (hvirtual : ∀ r slot, slots.slot? r = some slot → r.isPhysical = false) : code = [.ret results] := by
  cases h with
  | same => rfl
  | direct h => cases h
  | through hspilled _ =>
    obtain ⟨r, hr, slot, hslot⟩ := hspilled
    cases (hi.of_virtual hr (hvirtual r slot hslot)).1.2

/-- The expanded stream has the same returns. -/
theorem returns_pieces (h : List.Forall₂ (ExpandedItem slots scratch) items pieces)
    (hlists : ∀ i ∈ items.instructions, i.ListsPhysical)
    (hvirtual : ∀ r slot, slots.slot? r = some slot → r.isPhysical = false) (k : Nat) :
    Stream.returns (pieces.flatten.take (Stream.start pieces k)) = Stream.returns (items.take k) := by
  have htake : pieces.flatten.take (Stream.start pieces k) = (pieces.take k).flatten := by
    have e : pieces.flatten = (pieces.take k).flatten ++ (pieces.drop k).flatten := by
      rw [← List.flatten_append, List.take_append_drop]
    rw [Stream.start, e, List.take_left]
  rw [htake]
  clear htake
  induction h generalizing k with
  | nil => simp
  | @cons item piece items pieces hitem _ ih =>
    rw [forall_instructions_cons] at hlists
    cases k with
    | zero => rfl
    | succ k =>
      have hpiece : Stream.returns piece = Stream.returns [item] := by
        cases hitem with
        | @instr i code h =>
          rw [Stream.returns, instructions_map]
          exact h.returns (hlists.1 i rfl) hvirtual
        | other => rfl
      rw [List.take_succ_cons, List.flatten_cons, Stream.returns_append, ih hlists.2 k, hpiece]
      exact (Stream.returns_append [item] (items.take k)).symm

variable {s : Spiller} {u u' : Supply} {items' : Stream} {a b : Allocation} {f f' : Frame}

/-- The slots of a frame can be used. -/
theorem usable_allocateSlots (hf : f.convention = Amd64.convention)
    (hleft : ∀ r ∈ a.unassigned, r.isPhysical = false) (hcount : a.unassigned.length ≤ 2 ^ 61)
    (hscratch : scratch.Nodup) (hfree : .rbp ∉ scratch) :
    (allocateSlots a.unassigned f).1.Usable scratch where
  virtual hslot := virtual_of_slot? hleft f _ _ hslot
  framePointer hslot := by
    obtain ⟨k, -, rfl⟩ := slot?_eq_some hslot
    rw [Frame.slot, hf]
    rfl
  apart hslot hslot' e := by
    obtain ⟨k, hk, rfl⟩ := slot?_eq_some hslot
    obtain ⟨k', hk', rfl⟩ := slot?_eq_some hslot'
    have hlt := (List.getElem?_eq_some_iff.1 hk).1
    have hlt' := (List.getElem?_eq_some_iff.1 hk').1
    have := Frame.slot_injective (by omega) (by omega) e
    obtain rfl : k = k' := by omega
    exact Option.some.inj (hk.symm.trans hk')
  distinct := hscratch
  free := hfree

/-- **The stream with spill code follows a run to a return**: spilled registers end up
    in their slots, and the return is the same one. -/
theorem exists_run_pieces {near : Word → Prop} {base : Word} {m n : Machine} {labels : Bindings Label Nat}
    (hu : slots.Usable scratch) (hitems : ∀ i ∈ items.instructions, i.Spillable scratch)
    (hpieces : List.Forall₂ (ExpandedItem slots scratch) items pieces)
    (hnear : ∀ a, near a → ¬ Cell slots base a) (hm : m.items = items) (hplaced : Exec.Placed items m.labels)
    (hplaced' : Exec.Placed pieces.flatten labels) (hposition : m.position = 0)
    (hret : m.returned = false) (hvirtual : ∀ id, ∃ t, m.read (.virtual id) = .error t)
    (hbase : m.read (.physical .rbp) = .ok base) (hsafe : SafeSteps near m n) (hn : n.returned = true) :
    ∃ n', SafeSteps (fun _ => True) { m with items := pieces.flatten, labels } n' ∧ n'.returned = true ∧
      Backed slots scratch base [] n n' ∧ ∃ k results, n.position = k + 1 ∧
        n'.position = Stream.start pieces k + 1 ∧ items[k]? = some (.instr (.ret results)) ∧
        pieces.flatten[Stream.start pieces k]? = some (.instr (.ret results)) := by
  subst hm
  have hexpands := expands_of_expanded hpieces
  have hvirtual' : ∀ r slot, slots.slot? r = some slot → r.isPhysical = false := fun _ _ h => hu.virtual h
  -- the machines start beside each other
  have hbeside : Beside pieces m { m with items := pieces.flatten, labels } :=
    ⟨hexpands, rfl, hplaced, hplaced', rfl, by rw [hposition]; exact Stream.Skips.refl _ _⟩
  have hbacked : Backed slots scratch base [] m { m with items := pieces.flatten, labels } :=
    { hooks := rfl, globals := rfl, compared := rfl, reads := fun _ => rfl, memory := fun _ => rfl
      frame := hbase
      held := fun {r slot w} _ hslot hr => by
        cases r with
        | physical p => cases hu.virtual hslot
        | virtual id =>
          obtain ⟨t, ht⟩ := hvirtual id
          rw [ht] at hr
          cases hr }
  obtain ⟨n', hsafe', hb, -, hback⟩ :=
    (tracks_spill hu hitems hpieces hnear).safeSteps hbeside ⟨rfl, hbacked⟩ hsafe
  have hn' := hb.returned.trans hn
  obtain ⟨j, hsteps⟩ := hsafe.steps
  obtain ⟨j', hsteps'⟩ := hsafe'.steps
  obtain ⟨k, results, hpos, hk⟩ := hsteps.ended hret hn
  obtain ⟨k', results', hpos', hk'⟩ := hsteps'.ended hret hn'
  rw [hsafe.frame.1] at hk
  -- the return is a piece of its own
  have hpiece : pieces[k]? = some [.instr (.ret results)] := by
    obtain ⟨piece, hpiece, hexp⟩ := Stream.exists_piece hexpands hk
    cases hexp with
    | other hnone => cases hnone
    | instr _ code =>
      have hi := hitems _ (List.mem_filterMap.2 ⟨_, List.mem_of_getElem? hk, rfl⟩)
      rw [(expanded_of_piece hpieces hk hpiece).eq_of_ret hi.1 hvirtual'] at hpiece
      exact hpiece
  obtain ⟨rfl, rfl⟩ := hb.ended hpos hpos' hk' hpiece
  rw [hb.items] at hk'
  exact ⟨n', hsafe', hn', hback, k, results', hpos, hpos', hk, hk'⟩

end Spiller

/-- The address of a slot that one frame has and another does not have yet. -/
def Frame.Added (f f' : Frame) (base a : Word) : Prop :=
  ∃ k, f.slots < k ∧ k ≤ f'.slots ∧ a = base + (f.slot k).offset

theorem Spiller.added_of_cell {registers : List Register} {f : Frame} {base a : Word}
    (h : Cell (allocateSlots registers f).1 base a) :
    f.Added (f.reserve registers.length) base a := by
  obtain ⟨r, slot, hslot, rfl⟩ := h
  obtain ⟨k, hk, rfl⟩ := slot?_eq_some hslot
  have hlt := (List.getElem?_eq_some_iff.1 hk).1
  exact ⟨f.slots + 1 + k, by omega, by simp only [Frame.reserve]; omega, rfl⟩

namespace Spiller

open Machine

variable {s : Spiller} {u u' : Supply} {items items' : Stream} {a b : Allocation} {f f' : Frame}

/-- **Spill code preserves meaning**: if a stream runs to a return and does not access
    the words of the new slots, then the stream with spill code runs to the same return.
    Memory is the same outside of the new slots, and so are the registers that are
    neither spilled nor scratch registers.

    All registers were drawn before (`hknown`, `hassigned`), and addresses do not wrap
    round the new slots (`hcount`). -/
theorem spill_preserves (hs : s.cover = Amd64.catalogue.coverStmts) (hf : f.convention = Amd64.convention)
    (hscratch : s.scratch.Nodup) (hfree : .rbp ∉ s.scratch)
    (hitems : ∀ i ∈ items.instructions, i.Spillable s.scratch)
    (hleft : ∀ r ∈ a.unassigned, r.isPhysical = false) (hcount : a.unassigned.length ≤ 2 ^ 61)
    (hknown : ∀ r ∈ items.registers, r.Known u.registers)
    (hassigned : ∀ r p, a.lookup r = some p → r.Known u.registers)
    (hspill : s.spill items a f u = .ok (items', b, f') u')
    (hooks : Bindings Label Hook) (registers : Bindings Register Word)
    (hvirtual : ∀ id, registers.get? (.virtual id) = none) (memory : Bindings Word Word)
    (hwithin : (Machine.startFrom items hooks registers memory).RunsWithin fun w =>
      ¬ f.Added f' ((registers.get? (.physical .rbp)).getD 0) w)
    (limit : Int) (n : Machine)
    (hrun : (Machine.startFrom items hooks registers memory).run limit = (none, n)) :
    ∃ (least : Int) (n' : Machine),
      (∀ limit' ≥ least, (Machine.startFrom items' hooks registers memory).run limit' = (none, n')) ∧
      (∀ w, ¬ f.Added f' ((registers.get? (.physical .rbp)).getD 0) w → n'.word w = n.word w) ∧
      (∀ r, r ∉ a.unassigned → (∀ p ∈ s.scratch, r ≠ .physical p) → n'.read r = n.read r) ∧
      ∃ k k' results, n.position = k + 1 ∧ n'.position = k' + 1 ∧
        items[k]? = some (.instr (.ret results)) ∧ items'[k']? = some (.instr (.ret results)) ∧
        Stream.returns (items'.take k') = Stream.returns (items.take k) := by
  obtain ⟨-, -, -, rfl, pieces, rfl, hpieces⟩ := spill_eq_ok hs hknown hassigned hspill
  have hu := usable_allocateSlots hf hleft hcount hscratch hfree
  obtain ⟨m₁, hdefine, j, hj, hsteps, hreturned⟩ := Exec.run_eq_ok.1 (Machine.run_eq_none.1 hrun)
  have hsafe := (hwithin m₁ hdefine).safeSteps hsteps
  -- the labels of the new stream are those of the old one
  have hlabels := Exec.forM_define_iff.1 ⟨m₁, hdefine⟩
  obtain ⟨labels, rfl, hplaced⟩ := Exec.placed_of_forM rfl hdefine
  obtain ⟨m₁', hdefine'⟩ := (Exec.forM_define_iff (k := 0)
    (m := Machine.startFrom pieces.flatten hooks registers memory)).2
      ⟨(Stream.labels_flatten (expands_of_expanded hpieces)).symm ▸ hlabels.1, fun _ _ => rfl⟩
  obtain ⟨labels', rfl, hplaced'⟩ := Exec.placed_of_forM rfl hdefine'
  have hbase : Machine.read { Machine.startFrom items hooks registers memory with labels } (.physical .rbp) =
      .ok ((registers.get? (.physical .rbp)).getD 0) := by
    simp only [Machine.read, Machine.startFrom, Machine.start, List.not_mem_nil, if_false]
    cases registers.get? (.physical .rbp) <;> rfl
  obtain ⟨n', hsafe', hreturned', hn, k, results, hpos, hpos', hk, hk'⟩ := exists_run_pieces
    (m := { Machine.startFrom items hooks registers memory with labels }) hu hitems hpieces
    (fun w hw hcell => hw (added_of_cell hcell)) rfl hplaced hplaced' rfl rfl
    (fun id => ⟨_, by simp [Machine.read, Machine.startFrom, Machine.start, hvirtual id]; rfl⟩) hbase hsafe
    hreturned
  obtain ⟨j', hsteps'⟩ := hsafe'.steps
  refine ⟨j', n', fun limit' hlimit => Machine.run_eq_none.2 (Exec.run_eq_ok.2
    ⟨_, hdefine', j', ?_, hsteps', hreturned'⟩), fun w hw => ?_, fun r hr hsr => hn.reads ⟨?_, hsr⟩,
    k, _, results, hpos, hpos', hk, hk', ?_⟩
  · simp only [Machine.startFrom, Machine.start]
    omega
  · rw [Machine.word, Machine.word, hn.memory fun hcell => hw (added_of_cell hcell)]
  · exact slot?_eq_none_iff.2 hr
  · exact returns_pieces hpieces (fun i hi => (hitems i hi).1) (virtual_of_slot? hleft f) k

/-- The registers of the countdown that are spilled, and the places of the others. -/
def countdownSpills : Allocation where
  assigned := [(.virtual 3, .rcx), (.physical .rdi, .rdi), (.physical .rax, .rax)]
  unassigned := [.virtual 1, .virtual 2]

/-- The countdown with two registers in slots. -/
def countdownSpilled : Stream :=
  let slot (offset : Word) : Operand := .mem ⟨Label.none, some (.physical .rbp), offset⟩
  let r10 : Operand := .reg (.physical .r10)
  let r11 : Operand := .reg (.physical .r11)
  [.instr (.mov (slot (-8)) (.imm 2)),
    .instr (.clear (.physical .r10)), .instr (.mov (slot (-16)) r10), .label "loop",
    .instr (.mov r10 (slot (-16))), .instr (.mov r11 (slot (-8))), .instr (.binary "add" r10 r11),
    .instr (.mov (slot (-16)) r10),
    .instr (.mov (.reg (.virtual 3)) (slot (-8))),
    .instr (.binary "sub" (.reg (.virtual 3)) (.imm 1)),
    .instr (.mov (slot (-8)) (.reg (.virtual 3))),
    .instr (.mov r10 (slot (-8))), .instr (.binary "cmp" r10 (.imm 0)), .instr (.jcc "ne" "loop"),
    .instr (.mov (.reg (.physical .rdi)) (slot (-16))),
    .instr (.call "next" [.physical .rdi] [.physical .rax, .physical .rdi]),
    .instr (.ret [.physical .rax])]

theorem spill_preserves_countdown :
    ∃ b f' u',
      spill ⟨Amd64.catalogue.coverStmts, [.r10, .r11]⟩ countdown countdownSpills ⟨"f", Amd64.convention, 0⟩ ⟨3, 0⟩ =
          .ok (countdownSpilled, b, f') u' ∧
        ∃ (least : Int) (n' : Machine), (∀ limit ≥ least,
          (Machine.startFrom countdownSpilled countdownHooks [] []).run limit = (none, n')) ∧
          n'.read (.physical .rax) = .ok 4 := by
  obtain ⟨b, f', u', hspill⟩ : ∃ b f' u',
      spill ⟨Amd64.catalogue.coverStmts, [.r10, .r11]⟩ countdown countdownSpills ⟨"f", Amd64.convention, 0⟩ ⟨3, 0⟩ =
        .ok (countdownSpilled, b, f') u' := ⟨_, _, _, rfl⟩
  refine ⟨b, f', u', hspill, ?_⟩
  generalize hm : (Machine.startFrom countdown countdownHooks [] []).run 100 = outcome
  have hnone : outcome.1 = none := by rw [← hm]; decide +kernel
  have hread : outcome.2.read (.physical .rax) = .ok 4 := by rw [← hm]; decide +kernel
  have hassigned : ∀ r p, countdownSpills.lookup r = some p → r.Known 3 := fun r p h => by
    obtain ⟨l₁, l₂, e, -⟩ := List.lookup_eq_some_iff.1 h
    have hall : ∀ x ∈ countdownSpills.assigned, x.1.Known 3 := by decide
    exact hall (r, p) (e ▸ by simp)
  -- no instruction of the countdown accesses memory
  have hwithin : ∀ near, (Machine.startFrom countdown countdownHooks [] []).RunsWithin near := by
    intro near m₁ hdefine j n i k hs _ hnext
    obtain ⟨labels, rfl, -⟩ := Exec.placed_of_forM rfl hdefine
    have hitems : n.items = countdown := hs.items_eq
    have hi : i ∈ countdown.instructions := List.mem_filterMap.2
      ⟨_, List.mem_of_getElem? (hitems ▸ (Stream.firstInstr_iff.1 hnext).2), rfl⟩
    have hmemories : ∀ i ∈ countdown.instructions, i.memories = [] := by decide
    rw [Safe, hmemories i hi]
    trivial
  obtain ⟨least, n', hrun, -, hreads, -⟩ := spill_preserves (s := ⟨Amd64.catalogue.coverStmts, [.r10, .r11]⟩)
    rfl rfl (by decide) (by decide) (by decide) (by decide) (by decide) (by decide) hassigned hspill countdownHooks []
    (fun _ => rfl) [] (hwithin _) 100 outcome.2 (hm.trans (Prod.ext hnone rfl))
  exact ⟨least, n', hrun, (hreads _ (by decide) (by decide)).trans hread⟩

end Spiller

end Codegen
