/-
  The code of blocks.

  A sequential block is its operations and a jump; a branch is a comparison and
  two jumps, of which the first is taken if the condition is not zero.
-/
import Codegen.Proofs.Selection.Operations

namespace Codegen

/-- The jump at the end of a sequential block. -/
def Amd64.jumpTo (next : Label) : List Instr := if next = Label.none then [] else [.jmp next]

/-- The code of a branch: it evaluates the condition, and the test that follows
    says whether it is not zero. -/
structure CoversBranch (known : Nat) (reserved : List Physical) (cond : Value)
    (onTrue onFalse : Label) (u u' : Supply) (code : List Instr) : Prop where
  grows : u.registers ≤ u'.registers
  labels : u'.labels = u.labels
  legal : ∀ i ∈ code, i.Legal u'.registers reserved
  defines : ∀ i ∈ code, ∀ d ∈ i.defines,
    d.Between u.registers u'.registers ∨ cond.hasCall = true ∧ d ∈ Amd64.callerSaved
  decides : ∃ pre cc test, code = pre ++ [.jcc cc onTrue, .jmp onFalse] ∧
    (∀ i ∈ pre, i.target? = none) ∧ Exec.condition? cc = some test ∧
    ∀ (w : World) {s s' : State} {x : Word} {m : Machine}, w.eval cond s = some (x, s') →
      Reflects w known s m → ∃ n, Machine.Runs w.near pre m n ∧ Reflects w known s' n ∧
        (test n.compared.1 n.compared.2 = true ↔ x ≠ 0)

namespace Amd64

variable {known : Nat} {reserved : List Physical} {u u₁ : Supply} {cond : Value} {leaves : List Value}
  {code : List Instr} {inputs : List Register} {onTrue onFalse : Label} {cc : String}
  {test : Word → Word → Bool}

theorem legal_jmp (l : Label) (supply : Nat) : (Instr.jmp l).Legal supply reserved :=
  Instr.legal_of_free ⟨trivial, trivial⟩ (by simp [Instr.uses]) (by simp [Instr.defines])

theorem legal_jcc (cc : String) (l : Label) (supply : Nat) : (Instr.jcc cc l).Legal supply reserved :=
  Instr.legal_of_free ⟨trivial, trivial⟩ (by simp [Instr.uses]) (by simp [Instr.defines])

theorem coverSequence_eq_ok {ops : List Stmt} {u' : Supply} (h : catalogue.coverStmts ops u = .ok code u')
    (next : Label) : catalogue.coverSequence ops next u = .ok (code ++ jumpTo next) u' :=
  EStateM.bind_eq_ok.2 ⟨code, u', h, rfl⟩

theorem eq_jmp_of_mem_jumpTo {i : Instr} {l : Label} (h : i ∈ jumpTo l) : i = .jmp l := by
  unfold jumpTo at h
  split at h
  · cases h
  · exact List.mem_singleton.1 h

/-- A comparison of registers, or of a register with zero, and two jumps. -/
theorem covers_branch {b : Register} {src : Operand}
    (hall : EmitsAll known reserved leaves u u₁ code inputs)
    (hcalls : ∀ x ∈ leaves, x.hasCall = true → cond.hasCall = true)
    (hsrc : src.isMemory = false) (hb : b ∈ inputs) (hregs : ∀ r ∈ src.registers, r ∈ inputs)
    (hcc : Exec.condition? cc = some test)
    (hleaves : ∀ (w : World) {s s' : State} {x : Word}, w.eval cond s = some (x, s') →
      ∃ xs, w.evalAll leaves s = some (xs, s') ∧ ∀ m : Machine, m.Holds inputs xs →
        ∃ y z, m.read b = .ok y ∧ Exec.load src m.tick = .ok z m.tick ∧ (test y z = true ↔ x ≠ 0)) :
    CoversBranch known reserved cond onTrue onFalse u u₁
      (code ++ [.binary "cmp" (.reg b) src, .jcc cc onTrue, .jmp onFalse]) := by
  refine ⟨hall.grows, hall.labels, fun i hi => ?_, fun i hi d hd => ?_,
    code ++ [.binary "cmp" (.reg b) src], cc, test, by simp, fun i hi => ?_, hcc, ?_⟩
  · simp only [List.mem_append, List.mem_cons, List.not_mem_nil, or_false] at hi
    rcases hi with hi | rfl | rfl | rfl
    · exact hall.legal i hi
    · refine Instr.legal_of_free ⟨trivial, trivial⟩ (fun r hr => ?_) (by simp [Instr.defines])
      simp only [Instr.uses, Operand.registers, List.singleton_append, List.mem_cons] at hr
      rcases hr with rfl | hr
      · exact hall.ready _ hb
      · exact hall.ready r (hregs r hr)
    · exact legal_jcc _ _ _
    · exact legal_jmp _ _
  · simp only [List.mem_append, List.mem_cons, List.not_mem_nil, or_false] at hi
    rcases hi with hi | rfl | rfl | rfl
    · exact (hall.fresh i hi d hd).imp_right fun h => ⟨h.1.elim fun x hx => hcalls x hx.1 hx.2, h.2⟩
    all_goals simp [Instr.defines] at hd
  · rcases List.mem_append.1 hi with hi | hi
    · exact (hall.straight i hi).1
    · rw [List.mem_singleton.1 hi]; rfl
  · intro w s s' x m hx hm
    obtain ⟨xs, hxs, hread⟩ := hleaves w hx
    obtain ⟨m₁, hruns, hm₁, hinputs⟩ := hall.computes w hxs hm
    obtain ⟨y, z, hy, hz, htest⟩ := hread m₁ hinputs
    exact ⟨_, hruns.append (Machine.runs_cmp hy hz hsrc), hm₁.tick.compare _, htest⟩

/-- **Every condition over declared operators can be covered**, by code that
    branches as it says. -/
theorem exists_coverBranch (hcond : Evaluable known reserved [cond]) (hu : known ≤ u.registers)
    (onTrue onFalse : Label) :
    ∃ code u', catalogue.coverBranch cond onTrue onFalse u = .ok code u' ∧
      CoversBranch known reserved cond onTrue onFalse u u' code := by
  obtain ⟨t, ht⟩ := exists_branchTile (hcond.declared cond List.mem_cons_self)
  obtain ⟨hrule, hfound, hleaves⟩ := Catalogue.covers_of_branchTile? ht
  have hsub : ∀ x ∈ t.found.leaves, ∃ v ∈ [cond], x.Subtree v := fun x hx =>
    (Pattern.leaves_subtree hfound x hx).resolve_left (by simp)
  have hcalls : ∀ x ∈ t.found.leaves, x.hasCall = true → cond.hasCall = true := by
    intro x hx hcall
    obtain ⟨v, hv, hxv⟩ := hsub x hx
    exact List.mem_singleton.1 hv ▸ hxv.hasCall hcall
  obtain ⟨code, inputs, u₁, hemit, hall⟩ :=
    exists_emitLeaves t.rule.name t.leaves hleaves (hcond.subtrees hsub) hu
  have hcover : ∀ {own result}, t.rule.generate { inputs, found := t.found, onTrue, onFalse } u₁ =
      .ok (own, result) u₁ → catalogue.coverBranch cond onTrue onFalse u = .ok (code ++ own) u₁ := by
    intro own result h
    simp only [Catalogue.coverBranch, ht]
    exact EStateM.bind_eq_ok.2 ⟨_, _, hemit, EStateM.bind_eq_ok.2 ⟨_, _, h, rfl⟩⟩
  have hlen := hall.length
  generalize t.found = found at *
  generalize t.rule = rule at *
  cases branchMatches_of_apply hrule hfound with
  | @compare op l r hop =>
    obtain ⟨b, c, rfl⟩ := List.length_eq_two.1 hlen
    obtain ⟨cc, test, hcc, htest, happly⟩ := condition_spec hop
    refine ⟨_, u₁, hcover (generate_stmtRule (Except.bind_eq_ok.2 ⟨op, rfl,
      Except.bind_eq_ok.2 ⟨cc, hcc, rfl⟩⟩)),
      covers_branch hall hcalls rfl (by simp) (by simp [Operand.registers]) htest ?_⟩
    intro w s s' x hx
    obtain ⟨y, s₁, z, hy, hz, hxyz⟩ := World.eval_binary.1 hx
    rw [happly] at hxyz
    cases hxyz
    refine ⟨[y, z], World.evalAll_two hy hz, fun m hm => ?_⟩
    cases hm with
    | cons hb hc =>
      cases hc with
      | cons hc _ =>
        refine ⟨y, z, hb, Exec.load_reg (m := m.tick) hc, ?_⟩
        cases test y z <;> decide
  | any v =>
    obtain ⟨b, rfl⟩ := List.length_eq_one_iff.1 hlen
    refine ⟨_, u₁, hcover (generate_stmtRule rfl),
      covers_branch hall hcalls rfl (by simp) (by simp [Operand.registers]) rfl ?_⟩
    intro w s s' x hx
    refine ⟨[x], World.evalAll_one hx, fun m hm => ?_⟩
    cases hm with
    | cons hb _ => exact ⟨x, 0, hb, Exec.load_imm, by simp⟩

end Amd64

end Codegen
