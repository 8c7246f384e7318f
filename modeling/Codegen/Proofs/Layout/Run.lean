/-
  Running a graph that was laid out.

  A machine at the code of a block does what the interpreter does from that block
  on: it runs through the code of the operations, jumps to the label of the block
  that comes next, and returns if the interpreter does (`LaidOut.run`).
-/
import Codegen.Proofs.Layout.Walk
import Codegen.Proofs.Meaning.Compress
import Codegen.Proofs.Selection.Blocks

namespace Codegen

namespace Amd64

variable {known : Nat} {reserved : List Physical} {g : Flow}

/-- The catalogue covers every block of a body that a backend is made for. -/
theorem total_coverer (hg : g.Sound known reserved) : Layout.Total catalogue.coverer g known where
  sequence {i body next} _ hi l u hu := by
    obtain ⟨code, u', hcode, -⟩ := exists_coverStmts (hg.operations i body next hi) hu
    exact ⟨_, u', coverSequence_eq_ok hcode l⟩
  branch {i cond t f} _ hi lt lf u hu := by
    obtain ⟨code, u', hcode, -⟩ := exists_coverBranch (hg.conditions i cond t f hi) hu lt lf
    exact ⟨code, u', hcode⟩

end Amd64

namespace Layout.LaidOut

open Amd64

variable {known : Nat} {reserved : List Physical} {g : Flow} {entry : Label} {labels : Labels g.size}
  {u u' : Supply} {pieces : List (Piece g.size)} {w : World} {m : Machine} {s : State}
  {j : Fin g.size} {l : Label}

/-- The machine returned with the registers and the memory of the state. -/
structure Returned (w : World) (known : Nat) (items : Stream) (hasValue : Bool) (s : State)
    (n : Machine) : Prop where
  returned : n.returned = true
  reflects : Reflects w known s n
  at_ret : ∃ k, n.position = k + 1 ∧ items[k]? = some (.instr (.ret (results hasValue)))

/-- The machine is about to run code of the stream. -/
structure Running (w : World) (known : Nat) (items : Stream) (s : State) (m : Machine) : Prop where
  items_eq : m.items = items
  labels : Exec.Placed items m.labels
  returned : m.returned = false
  reflects : Reflects w known s m

theorem Running.after {items : Stream} {code : List Instr} {s' : State} {n : Machine}
    (h : Running w known items s m) (hruns : Machine.Runs w.near code m n)
    (hn : Reflects w known s' n) : Running w known items s' n := by
  obtain ⟨h₁, h₂, h₃, -⟩ := hruns.control
  exact ⟨h₁.trans h.items_eq, h₂ ▸ h.labels, h₃.trans h.returned, hn⟩

/-- What the code of a block does. -/
def Executes (w : World) (known : Nat) (pieces : List (Piece g.size)) (i : Fin g.size) (s : State)
    (result : Bool × State) : Prop :=
  ∀ p ∈ pieces, p.block = i → ∀ m : Machine, Running w known (stream pieces) s m →
    (stream pieces).At m.position p.code →
      ∃ n, Machine.SafeSteps w.near m n ∧ Returned w known (stream pieces) result.1 result.2 n

/-- A jump to the block that comes next. -/
theorem jumps {result : Bool × State} {i : Instr} {code : List Instr}
    (h : LaidOut g catalogue.coverer entry labels u u' pieces)
    (hj : j ∈ pieces.map Piece.block) (hl : labels.lookup (some j) = some l)
    (hrun : Executes w known pieces j s result) (hm : Running w known (stream pieces) s m)
    (hcode : (stream pieces).At m.position (i :: code)) (hmem : i.memories = [])
    (he : ∀ k, m.labels.get? l = some k → Exec.execute i m.tick = .ok () { m.tick with position := k }) :
    ∃ n, Machine.SafeSteps w.near m n ∧ Returned w known (stream pieces) result.1 result.2 n := by
  obtain ⟨p, hp, hblock, k, hk, hlabel⟩ := h.exists_next hj hl
  have hplace : m.labels.get? l = some k := (hm.labels l k).2 hlabel
  have hm' : Running w known (stream pieces) s { m.tick with position := k + 1 } :=
    ⟨hm.items_eq, hm.labels, hm.returned, ⟨hm.reflects.hooks, hm.reflects.globals, hm.reflects.registers,
      hm.reflects.memory⟩⟩
  obtain ⟨n, hsteps, hn⟩ := hrun p hp hblock _ hm' hk
  refine ⟨n, ?_, hn⟩
  refine (Machine.SafeSteps.one (hm.items_eq ▸ hcode) hm.returned hmem (he k hplace)).trans ?_
  exact .skip (m := { m.tick with position := k }) (hm.items_eq ▸ hlabel) hm.returned hn.returned hsteps

/-- Operations that end with a return. -/
theorem returns {body : List Stmt} {s' : State} {hasValue : Bool} {c code : List Instr} {u₁ u₂ : Supply}
    (hc : CoversAll known reserved body u₁ u₂ c) (hs : w.execAll body s = some (.returns hasValue s'))
    {items : Stream} (hm : Running w known items s m) (hcode : items.At m.position (c ++ code)) :
    ∃ n, Machine.SafeSteps w.near m n ∧ Returned w known items hasValue s' n := by
  obtain ⟨pre, post, n, rfl, hruns, hn⟩ := hc.returns w hs hm.reflects
  rw [List.append_assoc, Stream.at_append] at hcode
  have hposition := hruns.control.2.2.2
  have hn := hm.after hruns hn
  have hret : items.At n.position (.ret (results hasValue) :: (post ++ code)) := hposition ▸ hcode.2
  refine ⟨{ n.tick with returned := true }, ?_, rfl, ?_, n.position, rfl, ?_⟩
  · exact (hruns.safeSteps (hm.items_eq ▸ hcode.1) hm.returned).trans
      (.one (hn.items_eq ▸ hret) hn.returned rfl rfl)
  · exact ⟨hn.reflects.hooks, hn.reflects.globals, hn.reflects.registers, hn.reflects.memory⟩
  · obtain ⟨rest, hrest⟩ := hret
    have := congrArg (·[0]?) hrest
    simpa using this.symm

/-- **A machine at the code of a block does what the interpreter does from there.** -/
theorem run (h : LaidOut g catalogue.coverer entry labels u u' pieces)
    (hg : g.Sound known reserved) (hu : known ≤ u.registers) (fuel : Nat) {i : Fin g.size} {s : State}
    {result : Bool × State} (hrun : w.run g fuel (some i) s = some result) :
    Executes w known pieces i s result := by
  induction fuel generalizing i s with
  | zero => cases hrun
  | succ fuel ih =>
    rintro p hp rfl m hm hat
    have hclosed := h.closed p hp
    obtain ⟨u₁, u₂, h₁, hcall, -⟩ := h.covered p hp
    cases hcall with
    | @last body hi hcover =>
      obtain ⟨c, u₃, hc, hall⟩ :=
        exists_coverStmts (hg.operations _ body none hi) (Nat.le_trans hu h₁.registers)
      have e : p.code = c ++ jumpTo Label.none := by
        have := hcover.symm.trans (coverSequence_eq_ok hc Label.none)
        exact (EStateM.Result.ok.inj this).1
      rw [e] at hat
      rcases (World.run_straight hi).1 hrun with hs | ⟨s', -, hs⟩
      · exact returns hall hs hm hat
      · cases fuel <;> cases hs
    | @next body j l hi hl hcover =>
      obtain ⟨c, u₃, hc, hall⟩ :=
        exists_coverStmts (hg.operations _ body (some j) hi) (Nat.le_trans hu h₁.registers)
      have e : p.code = c ++ [.jmp l] := by
        have := hcover.symm.trans (coverSequence_eq_ok hc l)
        rw [(EStateM.Result.ok.inj this).1, jumpTo, if_neg (h.distinct.named hl)]
      rw [e] at hat
      rcases (World.run_straight hi).1 hrun with hs | ⟨s', hs, hrun'⟩
      · exact returns hall hs hm hat
      · obtain ⟨n, hruns, hn⟩ := hall.goes w hs hm.reflects
        rw [Stream.at_append, ← hruns.control.2.2.2] at hat
        obtain ⟨j', hj', hmem⟩ := hclosed (some j) (by rw [Flow.successors, hi]; exact List.mem_cons_self)
        cases hj'
        obtain ⟨n', hsteps, hn'⟩ := h.jumps hmem hl (ih hrun') (hm.after hruns hn) hat.2 rfl
          fun k hk => Exec.execute_jmp hk
        exact ⟨n', (hruns.safeSteps (hm.items_eq ▸ hat.1) hm.returned).trans hsteps, hn'⟩
    | @branch cond t f lt lf hi hlt hlf hcover =>
      obtain ⟨code, u₃, hcode, hbranch⟩ :=
        exists_coverBranch (hg.conditions _ cond t f hi) (Nat.le_trans hu h₁.registers) lt lf
      obtain rfl : p.code = code := (EStateM.Result.ok.inj (hcover.symm.trans hcode)).1
      obtain ⟨pre, cc, test, e, -, hcc, hdecides⟩ := hbranch.decides
      rw [e] at hat
      obtain ⟨x, s', hx, hrun'⟩ := (World.run_branch hi).1 hrun
      obtain ⟨n, hruns, hn, htest⟩ := hdecides w hx hm.reflects
      rw [Stream.at_append, ← hruns.control.2.2.2] at hat
      have hpre := hruns.safeSteps (hm.items_eq ▸ hat.1) hm.returned
      have hn := hm.after hruns hn
      have hsucc : ∀ b, b = t ∨ b = f → ∃ j, b = some j ∧ j ∈ pieces.map Piece.block := by
        intro b hb
        refine hclosed b ?_
        rw [Flow.successors, hi]
        simpa [Block.successors] using hb
      by_cases hzero : x ≠ 0
      · rw [if_pos hzero] at hrun'
        obtain ⟨j, rfl, hmem⟩ := hsucc t (Or.inl rfl)
        obtain ⟨n', hsteps, hn'⟩ := h.jumps hmem hlt (ih hrun') hn hat.2 rfl
          fun k hk => Exec.execute_jcc_true hcc (htest.2 hzero) hk
        exact ⟨n', hpre.trans hsteps, hn'⟩
      · rw [if_neg hzero] at hrun'
        obtain ⟨j, rfl, hmem⟩ := hsucc f (Or.inr rfl)
        have hfalse : test n.compared.1 n.compared.2 = false := by
          cases ht : test n.compared.1 n.compared.2 with
          | false => rfl
          | true => exact absurd (htest.1 ht) hzero
        -- the first jump is not taken, the second one is
        have hskip : Machine.SafeSteps w.near n n.tick :=
          .one (hn.items_eq ▸ hat.2) hn.returned rfl (Exec.execute_jcc_false hcc hfalse)
        have hat' : (stream pieces).At n.tick.position [.jmp lf] :=
          (Stream.at_append.1 (show (stream pieces).At n.position ([.jcc cc lt] ++ [.jmp lf]) from hat.2)).2
        have htick : Running w known (stream pieces) s' n.tick :=
          ⟨hn.items_eq, hn.labels, hn.returned, hn.reflects.tick⟩
        obtain ⟨n', hsteps, hn'⟩ := h.jumps hmem hlf (ih hrun') htick hat' rfl
          fun k hk => Exec.execute_jmp hk
        exact ⟨n', hpre.trans (hskip.trans hsteps), hn'⟩

/-- A run from the first item of the stream. -/
theorem run_root (h : LaidOut g catalogue.coverer entry labels u u' pieces)
    (hg : g.Sound known reserved) (hu : known ≤ u.registers) {fuel : Nat} {result : Bool × State}
    (hrun : w.run g fuel g.root s = some result) (hm : Running w known (stream pieces) s m)
    (hstart : m.position = 0) :
    ∃ n, Machine.SafeSteps w.near m n ∧ Returned w known (stream pieces) result.1 result.2 n := by
  obtain ⟨root, hroot, p, rest, rfl, rfl⟩ := h.first
  rw [hroot] at hrun
  have hexec := h.run hg hu fuel hrun p List.mem_cons_self rfl
  have hcode : stream (p :: rest) =
      p.front.toList.map Item.label ++ (p.code.map Item.instr ++ stream rest) := by
    simp [stream, Piece.items]
  cases hf : p.front with
  | none =>
    refine hexec m hm ?_
    rw [hcode, hf, hstart]
    exact List.prefix_append _ _
  | some l =>
    rw [hf] at hcode
    have hm' : Running w known (stream (p :: rest)) s { m with position := 1 } :=
      ⟨hm.items_eq, hm.labels, hm.returned, ⟨hm.reflects.hooks, hm.reflects.globals,
        hm.reflects.registers, hm.reflects.memory⟩⟩
    obtain ⟨n, hsteps, hn⟩ := hexec _ hm' (by rw [hcode]; exact List.prefix_append _ _)
    refine ⟨n, .skip (l := l) ?_ hm.returned hn.returned (by rw [hstart]; exact hsteps), hn⟩
    rw [hstart, hm.items_eq, hcode]
    rfl

end Layout.LaidOut

namespace Layout.LaidOut

open Amd64

variable {known : Nat} {reserved : List Physical} {g : Flow} {entry : Label} {labels : Labels g.size}
  {u u' : Supply} {pieces : List (Piece g.size)} {i : Instr}

/-- **The instructions of a body are ones that later passes can deal with.** -/
theorem legal (h : LaidOut g catalogue.coverer entry labels u u' pieces)
    (hg : g.Sound known reserved) (hu : known ≤ u.registers) (hi : i ∈ (stream pieces).instructions) :
    i.Legal u'.registers reserved := by
  obtain ⟨p, hp, hi⟩ := Arranged.mem_instructions_stream hi
  have hsequence : ∀ {body next l u₁ u₂}, g.block p.block = .straight body next → u.Later u₁ →
      catalogue.coverSequence body l u₁ = .ok p.code u₂ → u₂.Later u' → i.Legal u'.registers reserved := by
    intro body next l u₁ u₂ hblock h₁ hcover h₂
    obtain ⟨c, u₃, hc, hall⟩ :=
      exists_coverStmts (hg.operations _ body next hblock) (Nat.le_trans hu h₁.registers)
    obtain ⟨e, rfl⟩ := EStateM.Result.ok.inj (hcover.symm.trans (coverSequence_eq_ok hc l))
    rw [e, List.mem_append] at hi
    rcases hi with hi | hi
    · exact (hall.legal i hi).mono h₂.registers
    · rw [eq_jmp_of_mem_jumpTo hi]
      exact legal_jmp _ _
  obtain ⟨u₁, u₂, h₁, hcall, h₂⟩ := h.covered p hp
  cases hcall with
  | last hblock hcover => exact hsequence hblock h₁ hcover h₂
  | next hblock _ hcover => exact hsequence hblock h₁ hcover h₂
  | @branch cond t f lt lf hblock _ _ hcover =>
    obtain ⟨code, u₃, hcode, hbranch⟩ :=
      exists_coverBranch (hg.conditions _ cond t f hblock) (Nat.le_trans hu h₁.registers) lt lf
    obtain ⟨rfl, rfl⟩ := EStateM.Result.ok.inj (hcover.symm.trans hcode)
    exact (hbranch.legal i hi).mono h₂.registers

end Layout.LaidOut

end Codegen
