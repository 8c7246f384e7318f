/-
  Nobody sees that moves were dropped.

  A stream without the moves that do nothing is run beside the stream with them
  (`Trims`).  A step of the one is no step or the same step of the other
  (`Trims.step`), so a run to a return has its counterpart, which makes the same calls
  and takes no more steps (`Trims.steps`).
-/
import Codegen.Proofs.Allocation.Noops

namespace Codegen

/-! ## Calls -/

/-- The call that an instruction makes: the callee and the words that it is given. -/
def Instr.call? (i : Instr) (m : Machine) : Option (Label × List Word) :=
  match i with
  | .call l arguments _ =>
    match arguments.mapM Exec.read m with
    | .ok words _ => some (l, words)
    | .error _ _ => none
  | _ => none

namespace Machine

variable {m n : Machine} {i : Instr} {k : Nat} {p : Nat}

/-- The calls that at most so many instructions make, in order. -/
def callsFor : (remaining : Nat) → Machine → List (Label × List Word)
  | 0, _ => []
  | remaining + 1, m =>
    if m.returned then []
    else
      match Exec.firstInstr m.position (m.items.drop m.position) with
      | none => []
      | some (i, k) =>
        match Exec.execute i (m.fetch k) with
        | .ok _ n => (i.call? (m.fetch k)).toList ++ callsFor remaining n
        | .error _ _ => []

/-- The calls that a run makes, in order. -/
def calls (m : Machine) (limit : Int) : List (Label × List Word) :=
  match m.items.zipIdx.forM Exec.define m with
  | .ok _ m₁ => m₁.callsFor (limit - m.steps).toNat
  | .error _ _ => []

theorem calls_eq {limit : Int} (e : m.items.zipIdx.forM Exec.define m = .ok () n) :
    m.calls limit = n.callsFor (limit - m.steps).toNat := by
  simp only [calls, e]

/-- The machine, with what it holds, about to run a stream from its first item. -/
def restart (m : Machine) (items : Stream) : Machine := { m with items, labels := [], position := 0 }

theorem callsFor_of_returned (h : m.returned = true) : m.callsFor p = [] := by
  cases p with
  | zero => rfl
  | succ p => simp [callsFor, h]

theorem callsFor_succ (hret : m.returned = false)
    (hnext : Exec.firstInstr m.position (m.items.drop m.position) = some (i, k))
    (e : Exec.execute i (m.fetch k) = .ok () n) :
    m.callsFor (p + 1) = (i.call? (m.fetch k)).toList ++ n.callsFor p := by
  simp [callsFor, hret, hnext, e]

/-! ## Steps -/

/-- The second machine runs the stream of the first one without the moves that do
    nothing. -/
structure Trims (a : Allocation) (items : Stream) (m m' : Machine) : Prop where
  beside : Beside (a.noopPieces items) m m'
  items : m.items = a.apply items
  alike : Alike m m'

variable {a : Allocation} {items : Stream} {m' : Machine} {pieces : List Stream}

/-- Alike machines pass the same words to a callee. -/
theorem Alike.call? (h : Alike m m') (hb : Beside pieces m m')
    (hposition : m'.position + 1 = Stream.start pieces (m.position + 1))
    (e : Exec.execute i m.tick = .ok () n) : i.call? m'.tick = i.call? m.tick := by
  cases i with
  | call l arguments clobbers =>
    obtain ⟨hook, -, e⟩ := Exec.call_eq_ok.1 e
    obtain ⟨words, m₁, e, -⟩ := EStateM.bind_eq_ok.1 e
    obtain ⟨m₁', e', -⟩ := Exec.simulates_mapM_read (fun _ _ => ⟨trivial, rfl⟩) (h.agree hb hposition []) e
    simp only [Instr.call?, e, e']
  | _ => rfl

/-- **A step is no step or the same step of the stream without the moves.** -/
theorem Trims.step (h : Trims a items m m') (hret : m.returned = false)
    (hnext : Exec.firstInstr m.position (m.items.drop m.position) = some (i, k))
    (e : Exec.execute i (m.fetch k) = .ok () n) :
    i.call? (m.fetch k) = none ∧ Trims a items n m' ∨
      ∃ k' n', Exec.firstInstr m'.position (m'.items.drop m'.position) = some (i, k') ∧
        Exec.execute i (m'.fetch k') = .ok () n' ∧ i.call? (m'.fetch k') = i.call? (m.fetch k) ∧
        Trims a items n n' := by
  obtain ⟨hb, hitems, halike⟩ := h
  obtain ⟨hskip, hk⟩ := Stream.firstInstr_iff.1 hnext
  obtain ⟨hitems₁, -, hlabels₁, -⟩ := Step.frame ⟨hret, i, k, hnext, e⟩
  obtain ⟨code, hpiece⟩ := Stream.exists_code hb.expands hk
  have hskip' : m'.items.Skips m'.position (Stream.start (a.noopPieces items) k) :=
    hb.position.trans (hb.items ▸ Stream.skips_start hb.expands hskip)
  have hstart := Stream.start_succ hpiece
  rcases Allocation.noopPieces_cases (hitems ▸ hk) hpiece with rfl | ⟨rfl, r, rfl⟩
  · -- the instruction is there: both machines move to it and execute it
    right
    have hcode : m'.items.At (Stream.start (a.noopPieces items) k) [i] := by
      rw [hb.items]; exact Stream.at_start hpiece
    have hk' := (Stream.firstInstr_iff.1 hcode.firstInstr).2
    have hmoved : Beside (a.noopPieces items) { m with position := k }
        { m' with position := Stream.start (a.noopPieces items) k } :=
      { hb with position := .refl _ _ }
    have halike' : Alike { m with position := k }
        { m' with position := Stream.start (a.noopPieces items) k } :=
      ⟨halike.hooks, halike.globals, halike.compared, halike.memory, halike.reads⟩
    obtain ⟨n', e', hreturned, hposition, hn⟩ := halike'.execute hmoved hstart.symm e
    have hfirst := Stream.firstInstr_iff.2 ⟨hskip', hk'⟩
    obtain ⟨hitems₂, -, hlabels₂, -⟩ := Step.frame ⟨hb.returned.trans hret, i, _, hfirst, e'⟩
    exact ⟨_, n', hfirst, e', halike'.call? hmoved hstart.symm e,
      hb.after hitems₁ hlabels₁ hitems₂ hlabels₂ hreturned (hposition ▸ .refl _ _), hitems₁.trans hitems, hn⟩
  · -- the instruction is not there, and the second machine stays where it is
    left
    have hs := Instr.Straight.sameControl (i := .move r r) ⟨rfl, rfl⟩ e
    have hposition : Stream.start (a.noopPieces items) n.position = Stream.start (a.noopPieces items) k := by
      rw [hs.position]; exact hstart
    refine ⟨rfl, hb.after hitems₁ hlabels₁ rfl rfl (hb.returned.trans hs.returned.symm) (hposition ▸ hskip'),
      hitems₁.trans hitems, Alike.move ?_ e⟩
    exact ⟨halike.hooks, halike.globals, halike.compared, halike.memory, halike.reads⟩

/-- **A run to a return is followed without the moves, in no more steps and with the same
    calls.** -/
theorem Trims.steps {j : Nat} (hs : Steps j m n) (hn : n.returned = true) (h : Trims a items m m') :
    ∃ j' ≤ j, ∃ n', Steps j' m' n' ∧ Trims a items n n' ∧
      ∀ p p', j ≤ p → j' ≤ p' → m'.callsFor p' = m.callsFor p := by
  induction hs generalizing m' with
  | refl m =>
    refine ⟨0, Nat.le_refl 0, m', .refl m', h, fun p p' _ _ => ?_⟩
    rw [callsFor_of_returned hn, callsFor_of_returned (h.beside.returned.trans hn)]
  | @head j m₁ m₂ m₃ hstep hs ih =>
    obtain ⟨hret, i, k, hnext, e⟩ := hstep
    have hcalls : ∀ p, j + 1 ≤ p → ∃ q, j ≤ q ∧
        m₁.callsFor p = (i.call? (m₁.fetch k)).toList ++ m₂.callsFor q := fun p hp =>
      ⟨p - 1, by omega, by rw [← callsFor_succ hret hnext e, Nat.sub_add_cancel (by omega)]⟩
    obtain ⟨hnone, h₂⟩ | ⟨k', m₂', hnext', e', hcall, h₂⟩ := h.step hret hnext e
    · obtain ⟨j', hj', n', hs', hn', hsame⟩ := ih hn h₂
      refine ⟨j', by omega, n', hs', hn', fun p p' hp hp' => ?_⟩
      obtain ⟨q, hq, hp⟩ := hcalls p hp
      rw [hp, hnone]
      exact hsame q p' hq hp'
    · obtain ⟨j', hj', n', hs', hn', hsame⟩ := ih hn h₂
      have hret' := h.beside.returned.trans hret
      refine ⟨j' + 1, by omega, n', .head ⟨hret', i, k', hnext', e'⟩ hs', hn', fun p p' hp hp' => ?_⟩
      obtain ⟨q, hq, hp⟩ := hcalls p hp
      obtain ⟨q', rfl⟩ : ∃ q', p' = q' + 1 := ⟨p' - 1, by omega⟩
      rw [hp, callsFor_succ hret' hnext' e', hcall, hsame q q' hq (by omega)]

/-- Both streams have the same labels, so that both can be started. -/
theorem exists_trims (m : Machine) {m₁ : Machine}
    (e : (a.apply items).zipIdx.forM Exec.define (m.restart (a.apply items)) = .ok () m₁) :
    ∃ m₁', (a.apply (a.dropNoops items)).zipIdx.forM Exec.define
        (m.restart (a.apply (a.dropNoops items))) = .ok () m₁' ∧
      m₁'.steps = m₁.steps ∧ Trims a items m₁ m₁' := by
  have hlabels := (Exec.forM_define_iff.1 ⟨m₁, e⟩).1
  rw [Allocation.labels_apply, ← Allocation.labels_apply_dropNoops a items] at hlabels
  obtain ⟨m₁', e'⟩ := (Exec.forM_define_iff (k := 0)
    (m := m.restart (a.apply (a.dropNoops items)))).2 ⟨hlabels, fun _ _ => rfl⟩
  obtain ⟨labels, rfl, hplaced⟩ := Exec.placed_of_forM rfl e
  obtain ⟨labels', rfl, hplaced'⟩ := Exec.placed_of_forM rfl e'
  exact ⟨_, e', rfl,
    { expands := a.expands_noopPieces items, items := (a.flatten_noopPieces items).symm
      placed := hplaced, placed' := hplaced', returned := rfl, position := .refl _ _ },
    rfl, rfl, rfl, rfl, rfl, fun r => .refl _ _⟩

end Machine

namespace Allocation

open Machine

theorem labels_dropNoops (a : Allocation) (items : Stream) :
    (a.dropNoops items).filterMap Item.label? = items.filterMap Item.label? := by
  rw [← labels_apply a, labels_apply_dropNoops]

/-- **Dropping moves that do nothing is invisible**, whatever the machine holds at the
    start: a run that returns still does, in no more steps, with the same memory, the same
    physical registers and the same calls.  All labels stay, and what stays is in order. -/
theorem dropNoops_invisible (a : Allocation) (items : Stream) :
    (∀ (m : Machine) (limit : Int) (n : Machine), (m.restart (a.apply items)).run limit = (none, n) →
      ∃ n', (m.restart (a.apply (a.dropNoops items))).run limit = (none, n') ∧
        n'.steps ≤ n.steps ∧ n'.memory = n.memory ∧
        (∀ p : Physical, n'.read (.physical p) = n.read (.physical p)) ∧
        (m.restart (a.apply (a.dropNoops items))).calls limit = (m.restart (a.apply items)).calls limit) ∧
      (a.dropNoops items).filterMap Item.label? = items.filterMap Item.label? ∧
      (a.dropNoops items).Sublist items ∧ (∀ item ∈ a.dropNoops items, a.isNoop item = false) ∧
      a.dropNoops (a.dropNoops items) = a.dropNoops items := by
  refine ⟨fun m limit n hrun => ?_, labels_dropNoops a items, List.filter_sublist,
    fun item hitem => by simpa using (List.mem_filter.1 hitem).2, by simp [dropNoops]⟩
  obtain ⟨m₁, hdefine, j, hj, hs, hn⟩ := Exec.run_eq_ok.1 (run_eq_none.1 hrun)
  obtain ⟨m₁', hdefine', hsteps, htrims⟩ := exists_trims m hdefine
  obtain ⟨j', hj', n', hs', hn', hcalls⟩ := htrims.steps hs hn
  have hj'' : j' ≤ (limit - m.steps).toNat := Nat.le_trans hj' hj
  refine ⟨n', run_eq_none.2 (Exec.run_eq_ok.2 ⟨m₁', hdefine', j', hj'', hs', hn'.beside.returned.trans hn⟩),
    ?_, hn'.alike.memory, fun p => ?_, ?_⟩
  · rw [hs.steps_eq, hs'.steps_eq, hsteps]
    omega
  · rcases hn'.alike.reads (.physical p) with h | ⟨h, -⟩
    · exact h.symm
    · cases h
  · exact (calls_eq hdefine').trans ((hcalls _ _ hj hj'').trans (calls_eq hdefine).symm)

/-- A loop of two rounds with a call behind it.  Two of its moves are between registers
    that live in `rcx`. -/
def rounds : Stream :=
  [.instr (.mov (.reg (.virtual 1)) (.imm 2)), .label "loop", .instr (.move (.virtual 2) (.virtual 1)),
    .instr (.binary "sub" (.reg (.virtual 2)) (.imm 1)), .instr (.move (.virtual 1) (.virtual 2)),
    .instr (.binary "cmp" (.reg (.virtual 1)) (.imm 0)), .instr (.jcc "ne" "loop"),
    .instr (.move (.physical .rdi) (.virtual 1)),
    .instr (.call "next" [.physical .rdi] [.physical .rax, .physical .rdi]), .instr (.ret [.physical .rax])]

/-- Where the registers of `rounds` live. -/
def roundsPlaces : Allocation where
  assigned := [(.virtual 1, .rcx), (.virtual 2, .rcx), (.physical .rdi, .rdi), (.physical .rax, .rax)]

/-- A machine that knows the callee of `rounds`. -/
def roundsMachine : Machine := start [] [("next", fun ws => .ok (ws.sum + 1))]

theorem dropNoops_invisible_rounds :
    (roundsPlaces.dropNoops rounds).length = 8 ∧
      ∃ n', (roundsMachine.restart (roundsPlaces.apply (roundsPlaces.dropNoops rounds))).run 14 = (none, n') ∧
        n'.steps ≤ 14 ∧ n'.read (.physical .rax) = .ok 1 ∧
        (roundsMachine.restart (roundsPlaces.apply (roundsPlaces.dropNoops rounds))).calls 14 = [("next", [0])] := by
  generalize hm : (roundsMachine.restart (roundsPlaces.apply rounds)).run 14 = outcome
  have hnone : outcome.1 = none := by rw [← hm]; decide +kernel
  have hsteps : outcome.2.steps = 14 := by rw [← hm]; decide +kernel
  have hread : outcome.2.read (.physical .rax) = .ok 1 := by rw [← hm]; decide +kernel
  have hcalls : (roundsMachine.restart (roundsPlaces.apply rounds)).calls 14 = [("next", [0])] := by
    decide +kernel
  obtain ⟨n', hrun, hle, -, hreads, hsame⟩ := (dropNoops_invisible roundsPlaces rounds).1 roundsMachine 14
    outcome.2 (hm.trans (Prod.ext hnone rfl))
  exact ⟨rfl, n', hrun, hsteps ▸ hle, (hreads .rax).trans hread, hsame.trans hcalls⟩

end Allocation

end Codegen
