/-
  Instruction selection is total and correct.

  Every value, operation and condition over declared operators is covered
  (`select_total_correct`).  The code runs on every machine that supports the trees: it
  leaves the value of a tree in a register, does the write of an operation and no other,
  and branches as its condition says.  It changes registers drawn meanwhile, and the
  caller-saved ones if there is a call.

  A tile always exists, and its cost is the number of its tiles as a word.  That number
  may be one less than `2 ^ 64` (`cost_doubled`): then the cost is `-1`, which otherwise
  says that there is no tile.
-/
import Codegen.Proofs.Meaning.Defined
import Codegen.Proofs.Selection.Blocks
import Codegen.Proofs.Selection.Costs

namespace Codegen

namespace Machine

/-- The callees of a machine and the addresses of its labels.  Nothing is hidden. -/
def world (m : Machine) : World := ⟨m.hooks, m.globals, []⟩

/-- The registers that can be read, and the memory. -/
def state (m : Machine) : State := ⟨fun r => (m.read r).toOption, m.word⟩

theorem reflects_state (m : Machine) (known : Nat) : Reflects m.world known m.state m where
  hooks := rfl
  globals := rfl
  registers := fun {r x} _ hx => by
    cases h : m.read r with
    | error t => simp [state, h, Except.toOption] at hx
    | ok y => simpa [state, h, Except.toOption] using hx
  memory _ := rfl

/-- The machine is about to run the code, which the trees are read from. -/
structure Ready (m : Machine) (code : List Instr) (vs : List Value) : Prop where
  running : m.returned = false
  code : m.items.At m.position code
  supports : m.world.Supports m.state vs

end Machine

namespace Amd64

/-- The registers that the code of trees may change: those drawn meanwhile and, if there
    is a call, the caller-saved ones. -/
def Scratch (vs : List Value) (u u' : Supply) (r : Register) : Prop :=
  r.Between u.registers u'.registers ∨ (∃ v ∈ vs, v.hasCall = true) ∧ r ∈ callerSaved

/-- The code computes the value of the tree into a register, and changes nothing else. -/
def Computes (v : Value) (u u' : Supply) (code : List Instr) (out : Register) : Prop :=
  ∀ m : Machine, m.Ready code [v] →
    ∃ j n x s, Machine.Steps j m n ∧ m.world.eval v m.state = some (x, s) ∧ n.read out = .ok x ∧
      n.word = m.word ∧ (∀ r, ¬ Scratch [v] u u' r → n.read r = m.read r) ∧
      n.position = m.position + code.length ∧ n.returned = false

/-- The second machine has what the first one has after the operation. -/
def Performed (m n : Machine) : Stmt → Prop
  | .value v => (∃ x s, m.world.eval v m.state = some (x, s)) ∧ n.word = m.word
  | .write r v => (∃ x s, m.world.eval v m.state = some (x, s) ∧ n.read r = .ok x) ∧ n.word = m.word
  | .store a v => ∃ x s y s', m.world.eval a m.state = some (x, s) ∧
      m.world.eval v s = some (y, s') ∧ n.word = Function.update m.word x y
  | .ret _ => n.word = m.word

/-- The code does what the operation says, and changes nothing else. -/
def Performs (op : Stmt) (u u' : Supply) (code : List Instr) : Prop :=
  ∀ m : Machine, m.Ready code op.values →
    ∃ j n, Machine.Steps j m n ∧ Performed m n op ∧
      (∀ r, ¬ Scratch op.values u u' r → (∀ v, op ≠ .write r v) → n.read r = m.read r) ∧
      n.position = m.position + code.length ∧ (n.returned = true ↔ ∃ hasValue, op = .ret hasValue)

/-- The code does what the operations say, one after the other. -/
inductive PerformsAll : Supply → List Stmt → List Instr → Supply → Prop
  | nil (u : Supply) : PerformsAll u [] [] u
  | cons {op : Stmt} {ops : List Stmt} {code rest : List Instr} {u u₁ u' : Supply}
      (h : Performs op u u₁ code) (hrest : PerformsAll u₁ ops rest u') :
      PerformsAll u (op :: ops) (code ++ rest) u'

/-- The code continues at the first label if the condition is not zero, and at the second
    one if it is. -/
def Decides (cond : Value) (onTrue onFalse : Label) (u u' : Supply) (code : List Instr) : Prop :=
  ∀ m : Machine, m.Ready code [cond] → ∀ kt kf, m.labels.get? onTrue = some kt →
    m.labels.get? onFalse = some kf →
    ∃ j n x s, Machine.Steps j m n ∧ m.world.eval cond m.state = some (x, s) ∧
      n.position = (if x ≠ 0 then kt else kf) ∧ n.word = m.word ∧
      (∀ r, ¬ Scratch [cond] u u' r → n.read r = m.read r) ∧ n.returned = false

/-- An operation has a tile, whose cost is the number of its tiles as a word. -/
def Counted (op : Stmt) : Prop :=
  ∃ t, catalogue.tile? op = some t ∧ catalogue.cost? op = some (Int64.ofNat t.count) ∧
    1 ≤ t.count ∧ t.count ≤ op.size ∧
    (catalogue.cost? op = some (-1) ↔ t.count % 2 ^ 64 = 2 ^ 64 - 1)

variable {known : Nat} {v cond : Value} {op : Stmt} {u u' : Supply} {code : List Instr}
  {out : Register} {onTrue onFalse : Label}

/-! ## Code -/

theorem computes_of_emits (h : Emits known [] v [] [] u u' code out) (hv : Selectable known [v]) :
    Computes v u u' code out := by
  intro m hm
  obtain ⟨x, s, hx⟩ := World.exists_eval hv hm.supports rfl
  obtain ⟨n, hruns, hn, hout⟩ :=
    h.computes m.world World.evalAll_nil_self hx (m.reflects_state known) .nil
  obtain ⟨j, hsteps⟩ := (hruns.safeSteps hm.code hm.running).steps
  obtain ⟨-, -, hreturned, hposition⟩ := hruns.control
  refine ⟨j, n, x, s, hsteps, hx, hout, ?_, fun r hr => hruns.read_eq fun i hi hmem => hr ?_, hposition,
    hreturned.trans hm.running⟩
  · funext a
    rw [hn.memory, (World.eval_frame hx).1]
    rfl
  · exact (h.fresh i hi r ((h.legal i hi).conventional.mem_changes.1 hmem)).imp_right fun ⟨hcall, hsaved⟩ =>
      ⟨⟨v, List.mem_singleton_self v, hcall⟩, hsaved⟩

/-- An operation that does not return comes to an end in a state. -/
theorem exists_goes {w : World} {s : State} (hop : Selectable known op.values)
    (hs : w.Supports s op.values) (hw : w.hidden = []) (hret : ∀ hasValue, op ≠ .ret hasValue) :
    ∃ s', w.exec op s = some (.goes s') := by
  cases op with
  | value v =>
    obtain ⟨x, s', hx⟩ := World.exists_eval hop hs hw
    exact ⟨s', World.exec_value.2 ⟨x, s', hx, rfl⟩⟩
  | write r v =>
    obtain ⟨x, s', hx⟩ := World.exists_eval hop hs hw
    exact ⟨_, World.exec_write.2 ⟨x, s', hx, rfl⟩⟩
  | store a v =>
    obtain ⟨x, s₁, hx⟩ := World.exists_eval hop.head hs.head hw
    obtain ⟨y, s₂, hy⟩ := World.exists_eval hop.tail (hs.after hop hx) hw
    exact ⟨_, World.exec_store.2 ⟨x, s₁, y, s₂, hx, hy, by simp [World.near, hw], rfl⟩⟩
  | ret hasValue => exact absurd rfl (hret hasValue)

theorem performed_of_reflects {m n : Machine} {s' : State}
    (hwritten : ∀ r v, op = .write r v → r.Known known)
    (ho : m.world.exec op m.state = some (.goes s')) (hn : Reflects m.world known s' n) :
    Performed m n op := by
  have hword : n.word = s'.memory := funext hn.memory
  cases op with
  | value v =>
    obtain ⟨x, s, hx, e⟩ := World.exec_value.1 ho
    cases e
    exact ⟨⟨x, _, hx⟩, hword.trans (World.eval_frame hx).1⟩
  | write r v =>
    obtain ⟨x, s, hx, e⟩ := World.exec_write.1 ho
    cases e
    refine ⟨⟨x, s, hx, hn.registers (hwritten r v rfl) (if_pos rfl)⟩, ?_⟩
    exact hword.trans (World.eval_frame hx).1
  | store a v =>
    obtain ⟨x, s, y, s₂, hx, hy, -, e⟩ := World.exec_store.1 ho
    cases e
    refine ⟨x, s, y, s₂, hx, hy, hword.trans ?_⟩
    funext b
    simp only [State.store, Function.update_apply, (World.eval_frame hy).1, (World.eval_frame hx).1]
    rfl
  | ret hasValue => cases ho

theorem performs_of_covers (h : Covers known [] op u u' code) (hop : Selectable known op.values)
    (hwritten : ∀ r v, op = .write r v → r.Known known) : Performs op u u' code := by
  intro m hm
  by_cases hret : ∃ hasValue, op = .ret hasValue
  · obtain ⟨hasValue, rfl⟩ := hret
    have hcode := h.returns hasValue rfl
    subst hcode
    have hstep : Machine.SafeSteps m.world.near m { m.tick with returned := true } :=
      .one hm.code hm.running rfl rfl
    obtain ⟨j, hsteps⟩ := hstep.steps
    exact ⟨j, _, hsteps, rfl, fun _ _ _ => rfl, rfl, fun _ => ⟨hasValue, rfl⟩, fun _ => rfl⟩
  · have hne : ∀ hasValue, op ≠ .ret hasValue := fun b e => hret ⟨b, e⟩
    obtain ⟨s', ho⟩ := exists_goes hop hm.supports rfl hne
    obtain ⟨n, hruns, hn⟩ := h.goes m.world ho (m.reflects_state known)
    obtain ⟨j, hsteps⟩ := (hruns.safeSteps hm.code hm.running).steps
    obtain ⟨-, -, hreturned, hposition⟩ := hruns.control
    refine ⟨j, n, hsteps, performed_of_reflects hwritten ho hn,
      fun r hr hw => hruns.read_eq fun i hi hmem => ?_, hposition, fun e => ?_, fun e => absurd e hret⟩
    · rcases h.defines i hi r ((h.conventional i hi).mem_changes.1 hmem) with hd | hd | ⟨v, hv⟩
      · exact hr (Or.inl hd)
      · exact hr (Or.inr hd)
      · exact hw v hv
    · rw [hreturned, hm.running] at e
      cases e

theorem decides_of_covers (h : CoversBranch known [] cond onTrue onFalse u u' code)
    (hcond : Selectable known [cond]) : Decides cond onTrue onFalse u u' code := by
  obtain ⟨pre, cc, test, rfl, -, hcc, hdecides⟩ := h.decides
  intro m hm kt kf hkt hkf
  obtain ⟨x, s, hx⟩ := World.exists_eval hcond hm.supports rfl
  obtain ⟨n, hruns, hn, htest⟩ := hdecides m.world hx (m.reflects_state known)
  obtain ⟨hpre, hjumps⟩ := Stream.at_append.1 hm.code
  obtain ⟨hitems, hlabels, hreturned, hposition⟩ := hruns.control
  have hsteps := hruns.safeSteps hpre hm.running
  have hrunning : n.returned = false := hreturned.trans hm.running
  have hword : n.word = m.word := by
    funext a
    rw [hn.memory, (World.eval_frame hx).1]
    rfl
  have hread : ∀ r, ¬ Scratch [cond] u u' r → n.read r = m.read r := by
    refine fun r hr => hruns.read_eq fun i hi hmem => hr ?_
    have hi := List.mem_append_left [Instr.jcc cc onTrue, .jmp onFalse] hi
    exact (h.defines i hi r ((h.legal i hi).conventional.mem_changes.1 hmem)).imp_right
      fun ⟨hcall, hsaved⟩ => ⟨⟨cond, List.mem_singleton_self cond, hcall⟩, hsaved⟩
  have hat : n.items.At n.position [.jcc cc onTrue, .jmp onFalse] := by
    rw [hitems, hposition]
    exact hjumps
  rw [← hlabels] at hkt hkf
  cases hb : test n.compared.1 n.compared.2 with
  | true =>
    have hjump : Machine.SafeSteps m.world.near n { n.tick with position := kt } :=
      .one hat hrunning rfl (Exec.execute_jcc_true (m := n.tick) hcc hb hkt)
    obtain ⟨j, hsteps⟩ := (hsteps.trans hjump).steps
    exact ⟨j, _, x, s, hsteps, hx, (if_pos (htest.1 hb)).symm, hword, hread, hrunning⟩
  | false =>
    have hzero : ¬ x ≠ 0 := fun hne => by rw [htest.2 hne] at hb; cases hb
    have hfall : Machine.SafeSteps m.world.near n n.tick :=
      .one hat hrunning rfl (Exec.execute_jcc_false hcc hb)
    have hlast : n.tick.items.At n.tick.position [.jmp onFalse] :=
      (Stream.at_append.1 (show n.items.At n.position ([.jcc cc onTrue] ++ [.jmp onFalse]) from hat)).2
    have hjump : Machine.SafeSteps m.world.near n.tick { n.tick.tick with position := kf } :=
      .one hlast hrunning rfl (Exec.execute_jmp (m := n.tick.tick) hkf)
    obtain ⟨j, hsteps⟩ := ((hsteps.trans hfall).trans hjump).steps
    exact ⟨j, _, x, s, hsteps, hx, (if_neg hzero).symm, hword, hread, hrunning⟩

theorem exists_performsAll {ops : List Stmt} (hops : ∀ op ∈ ops, Selectable known op.values ∧
      ∀ r v, op = .write r v → r.Known known) (hu : known ≤ u.registers) :
    ∃ code u', catalogue.coverStmts ops u = .ok code u' ∧ PerformsAll u ops code u' := by
  have key : ∃ codes u', ops.mapM catalogue.coverStmt u = .ok codes u' ∧
      PerformsAll u ops codes.flatten u' := by
    induction ops generalizing u with
    | nil => exact ⟨[], u, rfl, .nil u⟩
    | cons op ops ih =>
      obtain ⟨hop, hwritten⟩ := hops op List.mem_cons_self
      obtain ⟨code, u₁, hcode, h⟩ := exists_coverStmt hop.toEvaluable hu
      obtain ⟨codes, u₂, hcodes, hrest⟩ :=
        ih (fun op hop => hops op (List.mem_cons_of_mem _ hop)) (Nat.le_trans hu h.grows)
      refine ⟨code :: codes, u₂, ?_, .cons (performs_of_covers h hop hwritten) hrest⟩
      rw [List.mapM_cons]
      exact EStateM.bind_eq_ok.2 ⟨_, _, hcode, EStateM.bind_eq_ok.2 ⟨_, _, hcodes, rfl⟩⟩
  obtain ⟨codes, u', hcodes, h⟩ := key
  exact ⟨codes.flatten, u', EStateM.bind_eq_ok.2 ⟨codes, u', hcodes, rfl⟩, h⟩

/-! ## Costs -/

theorem ofNat_eq_neg_one (n : Nat) : Int64.ofNat n = -1 ↔ n % 2 ^ 64 = 2 ^ 64 - 1 := by
  rw [← Int64.toBitVec_inj, ← BitVec.toNat_inj, Int64.toBitVec_ofNat', BitVec.toNat_ofNat]
  exact Iff.rfl

theorem counted (hop : ∀ v ∈ op.values, v.Declared) : Counted op := by
  obtain ⟨t, ht⟩ := exists_tile op hop
  have hcosts := Catalogue.costs_of_tile? patterns_ne_wild ht
  have hcost : catalogue.cost? op = some (Int64.ofNat t.count) := by
    rw [Catalogue.cost?, ht, Option.map_some, hcosts.cost]
  refine ⟨t, ht, hcost, hcosts.lo, hcosts.hi, ?_⟩
  rw [hcost, Option.some_inj]
  exact ofNat_eq_neg_one t.count

/-- A register, added to itself over and over. -/
def doubled : Nat → Value
  | 0 => .read (.virtual 1)
  | n + 1 => .binary .add (doubled n) (doubled n)

theorem declared_doubled (n : Nat) : (doubled n).Declared := by
  induction n with
  | zero => trivial
  | succ n ih => exact ⟨by decide, ih, ih⟩

theorem calls_doubled (n : Nat) : (doubled n).calls = [] := by
  induction n with
  | zero => rfl
  | succ n ih => rw [doubled, Value.calls, ih]; rfl

/-- Each sum takes a tile of its own. -/
theorem cost_doubled (n : Nat) :
    catalogue.cost? (.value (doubled n)) = some (Int64.ofNat (2 ^ (n + 1) - 1)) := by
  obtain ⟨t, ht⟩ := exists_tile (.value (doubled n)) (by simpa [Stmt.values] using declared_doubled n)
  rw [Catalogue.cost?, ht, Option.map_some, Option.some_inj]
  refine Catalogue.all_tableOf (P := fun v t => ∀ n, v = doubled n → t.cost = Int64.ofNat (2 ^ (n + 1) - 1))
    ?_ (.value (doubled n)) (doubled n) t ht n rfl
  rintro T v t hT hcheapest k rfl
  obtain ⟨rule, hrule, htile⟩ := cheapest_eq_some hcheapest
  obtain ⟨found, hfound, htile⟩ := Option.bind_eq_some_iff.1 htile
  obtain ⟨leaves, hleaves, htile⟩ := Option.bind_eq_some_iff.1 htile
  cases htile
  have hall := Option.mapM_eq_some hleaves
  have hmatch := (matches_of_apply hrule hfound).valueMatches
  cases k with
  | zero =>
    cases hmatch
    cases hall
    rfl
  | succ k =>
    have hsum : doubled (k + 1) = .binary .add (doubled k) (doubled k) := rfl
    rw [hsum] at hmatch
    generalize hx : doubled k = x at hmatch
    cases hmatch with
    | arithConst =>
      -- the right operand is no constant
      cases k <;> cases hx
    | compare _ _ hop => exact absurd hop (by decide)
    | arithAny =>
      subst hx
      cases hall with
      | cons h₁ hall =>
        cases hall with
        | cons h₂ hall =>
          cases hall
          simp only [List.foldr_cons, List.foldr_nil, hT _ _ h₁ k rfl, hT _ _ h₂ k rfl]
          have hpow : 2 ^ (k + 1 + 1) - 1 = (2 ^ (k + 1) - 1) + ((2 ^ (k + 1) - 1) + 1) := by
            have := Nat.one_le_two_pow (n := k + 1)
            rw [Nat.pow_succ 2 (k + 1)]
            omega
          rw [hpow, Int64.ofNat_add, Int64.ofNat_add]
          rfl

/-- **Instruction selection is total and correct.**  The cost of an operation is the
    number of its tiles as a word, so it may be `-1` although there is a tile. -/
theorem select_total_correct (u : Supply) :
    (∀ v, Selectable u.registers [v] → Counted (.value v) ∧
      ∃ code out u', catalogue.coverValue v u = .ok (code, some out) u' ∧ Computes v u u' code out) ∧
    (∀ ops, (∀ op ∈ ops, Selectable u.registers op.values ∧
        ∀ r v, op = .write r v → r.Known u.registers) →
      (∀ op ∈ ops, Counted op) ∧
        ∃ code u', catalogue.coverStmts ops u = .ok code u' ∧ PerformsAll u ops code u') ∧
    (∀ cond, Selectable u.registers [cond] → ∀ onTrue onFalse,
      ∃ code u', catalogue.coverBranch cond onTrue onFalse u = .ok code u' ∧
        Decides cond onTrue onFalse u u' code) ∧
    ∃ v : Value, v.Declared ∧ v.calls = [] ∧ catalogue.cost? (.value v) = some (-1) := by
  refine ⟨fun v hv => ⟨counted hv.declared, ?_⟩, fun ops hops => ⟨fun op hop => ?_, ?_⟩,
    fun cond hcond onTrue onFalse => ?_, doubled 63, declared_doubled 63, ?_, cost_doubled 63⟩
  · obtain ⟨t, ht⟩ := exists_tile (.value v) hv.declared
    obtain ⟨code, out, u', hemit, h⟩ :=
      exists_emit t (Catalogue.covers_of_tile? ht) hv.toEvaluable (Nat.le_refl _)
    have htile : Fresh.ofExcept (catalogue.tile (.value v)) u = .ok t u := by
      rw [Catalogue.tile, ht]; rfl
    exact ⟨code, out, u', EStateM.bind_eq_ok.2 ⟨t, u, htile, hemit⟩, computes_of_emits h hv⟩
  · exact counted (hops op hop).1.declared
  · exact exists_performsAll hops (Nat.le_refl _)
  · obtain ⟨code, u', hcode, h⟩ :=
      exists_coverBranch hcond.toEvaluable (Nat.le_refl _) onTrue onFalse
    exact ⟨code, u', hcode, decides_of_covers h hcond⟩
  · exact calls_doubled 63

/-- A call with an argument, and a register added to what it returns. -/
def callSample : Value := .binary .add (.call "f" 1) (.read (.virtual 1))

/-- A machine whose callee doubles its argument. -/
def callMachine (code : List Instr) : Machine :=
  { Machine.start (code.map Item.instr) [("f", fun xs => .ok (xs.sum + xs.sum))] with
    registers := [(.virtual 1, 5), (.physical .rdi, 3)] }

theorem selectable_callSample : Selectable 1 [callSample] := by
  refine ⟨⟨?_, ?_, by simp, ?_⟩, Or.inl (by simp [callSample, Value.calls])⟩
  · simp only [List.mem_singleton, forall_eq]
    exact ⟨by decide, ⟨by decide, by decide⟩, trivial⟩
  · simp [callSample, Value.reads]
  · simp [callSample, Value.reads, Register.isPhysical]

theorem ready_callMachine (code : List Instr) : (callMachine code).Ready code [callSample] := by
  refine ⟨rfl, List.prefix_refl _, ?_, ?_, ?_, ?_⟩
  · simp only [List.mem_singleton, forall_eq, callSample, Value.reads, List.nil_append]
    exact ⟨5, rfl⟩
  · simp only [List.mem_singleton, forall_eq, callSample, Value.calls, List.append_nil]
    intro p hp
    obtain rfl : p = .rdi := List.mem_singleton.1 hp
    exact ⟨3, rfl⟩
  · simp only [List.mem_singleton, forall_eq, callSample, Value.calls, List.append_nil]
    exact ⟨_, rfl, fun xs _ => ⟨_, rfl⟩⟩
  · simp [callSample, Value.addresses]

theorem select_total_correct_call :
    (∃ code out u', catalogue.coverValue callSample ⟨1, 0⟩ = .ok (code, some out) u' ∧
      ∃ j n, Machine.Steps j (callMachine code) n ∧ n.read out = .ok 11 ∧ n.position = code.length) ∧
    (∃ code u', catalogue.coverStmts [.write (.physical .rbp) callSample, .ret true] ⟨1, 0⟩ =
        .ok code u' ∧
      PerformsAll ⟨1, 0⟩ [.write (.physical .rbp) callSample, .ret true] code u') ∧
    ∃ code u', catalogue.coverBranch callSample "t" "f" ⟨1, 0⟩ = .ok code u' ∧
      Decides callSample "t" "f" ⟨1, 0⟩ u' code := by
  obtain ⟨hvalues, hstmts, hbranches, -⟩ := select_total_correct ⟨1, 0⟩
  refine ⟨?_, (hstmts _ ?_).2, hbranches callSample selectable_callSample "t" "f"⟩
  · obtain ⟨-, code, out, u', hcode, h⟩ := hvalues callSample selectable_callSample
    obtain ⟨j, n, x, s, hsteps, hx, hout, -, -, hposition, -⟩ := h _ (ready_callMachine code)
    have hvalue : x = 11 := by
      have he : ((callMachine code).world.eval callSample (callMachine code).state).map Prod.fst =
        some 11 := rfl
      rw [hx] at he
      exact Option.some.inj he
    exact ⟨code, out, u', hcode, j, n, hsteps, hvalue ▸ hout, by rw [hposition]; exact Nat.zero_add _⟩
  · simp only [List.mem_cons, List.not_mem_nil, or_false]
    rintro op (rfl | rfl)
    · refine ⟨selectable_callSample, fun r v e => ?_⟩
      cases e
      exact Register.known_physical _ _
    · exact ⟨⟨⟨by simp [Stmt.values], by simp [Stmt.values], by simp, by simp [Stmt.values]⟩,
        Or.inl (by simp [Stmt.values])⟩, fun r v e => by cases e⟩

end Amd64

end Codegen
