/-
  The code of operations.

  The code of an operation does to a machine what the operation does to the state
  that the machine reflects (`exists_coverStmt`), and so does the code of a list of
  operations, up to the first return (`exists_coverStmts`).
-/
import Codegen.Proofs.Selection.Values

namespace Codegen

theorem Tile.emit_eq_ok {t : Tile} {u u₁ u₂ : Supply} {code own : List Instr} {inputs : List Register}
    {result : Option Register} (hleaves : emitLeaves t.rule.name t.leaves u = .ok (code, inputs) u₁)
    (hown : t.rule.generate { inputs, found := t.found } u₁ = .ok (own, result) u₂) :
    t.emit u = .ok (code ++ own, result) u₂ := by
  cases t
  exact EStateM.bind_eq_ok.2 ⟨_, _, hleaves, EStateM.bind_eq_ok.2 ⟨_, _, hown, rfl⟩⟩

/-- Every leaf is held by a register of its own. -/
theorem Tile.CoverAll.length_inputs {rules : List Rule} {parent : String} {ts : List Tile} {vs : List Value}
    {u u' : Supply} {code : List Instr} {inputs : List Register} (hcover : CoverAll rules ts vs)
    (hemit : emitLeaves parent ts u = .ok (code, inputs) u') : inputs.length = vs.length := by
  induction ts generalizing vs u u' code inputs with
  | nil =>
    cases hemit
    cases vs with
    | nil => rfl
    | cons => exact hcover.elim
  | cons t ts ih =>
    cases vs with
    | nil => exact hcover.elim
    | cons v vs =>
      obtain ⟨⟨first, result⟩, u₁, -, hemit⟩ := EStateM.bind_eq_ok.1 hemit
      cases result with
      | none => cases hemit
      | some out =>
        obtain ⟨⟨rest, outs⟩, u₂, hrest, hemit⟩ := EStateM.bind_eq_ok.1 hemit
        cases hemit
        rw [List.length_cons, List.length_cons, ih hcover.2 hrest]

theorem Catalogue.coverStmt_eq_ok {c : Catalogue} {op : Stmt} {t : Tile} {u u' : Supply}
    {code : List Instr} {result : Option Register} (ht : c.tile? op = some t)
    (h : t.emit u = .ok (code, result) u') : c.coverStmt op u = .ok code u' := by
  have htile : Fresh.ofExcept (c.tile op) u = .ok t u := by rw [tile, ht]; rfl
  exact EStateM.bind_eq_ok.2 ⟨t, u, htile, EStateM.bind_eq_ok.2 ⟨_, _, h, rfl⟩⟩

/-- The registers that a return lists. -/
def Amd64.results (hasValue : Bool) : List Register :=
  if hasValue then [(Amd64.convention.result : Register)] else []

/-- The code carries out the operation.  It writes registers drawn meanwhile, those
    that calls overwrite, and the one that the operation writes. -/
structure Covers (known : Nat) (reserved : List Physical) (op : Stmt) (u u' : Supply)
    (code : List Instr) : Prop where
  grows : u.registers ≤ u'.registers
  labels : u'.labels = u.labels
  noTarget : ∀ i ∈ code, i.target? = none
  conventional : ∀ i ∈ code, i.Conventional
  legal : op.Sound known reserved → ∀ i ∈ code, i.Legal u'.registers reserved
  defines : ∀ i ∈ code, ∀ d ∈ i.defines, d.Between u.registers u'.registers ∨
    (∃ v ∈ op.values, v.hasCall = true) ∧ d ∈ Amd64.callerSaved ∨ ∃ v, op = .write d v
  goes : ∀ (w : World) {s s' : State} {m : Machine}, w.exec op s = some (.goes s') →
    Reflects w known s m → ∃ n, Machine.Runs w.near code m n ∧ Reflects w known s' n
  returns : ∀ hasValue, op = .ret hasValue → code = [.ret (Amd64.results hasValue)]

section
variable {known : Nat} {reserved : List Physical} {op : Stmt} {u u₁ : Supply} {leaves : List Value}
  {code : List Instr} {inputs : List Register} {i : Instr}

/-- A rule's only instruction, after the code of its leaves. -/
theorem EmitsAll.covers (h : EmitsAll known reserved leaves u u₁ code inputs)
    (hop : Evaluable known reserved op.values) (hu : known ≤ u.registers)
    (hsub : ∀ x ∈ leaves, ∃ v ∈ op.values, x.Subtree v) (hi : i.Straight)
    (hconv : i.Conventional) (hret : ∀ hasValue, op ≠ .ret hasValue)
    (huses : ∀ r ∈ i.uses, r ∈ inputs ∨ ∃ v ∈ op.values, r ∈ v.reads)
    (hdefs : ∀ d ∈ i.defines, ∃ v, op = .write d v)
    (hleaves : ∀ (w : World) {s : State} {o}, w.exec op s = some o →
      ∃ xs s₁, w.evalAll leaves s = some (xs, s₁))
    (hcomputes : ∀ (w : World) {s s₁ s' : State} {xs : List Word} {m : Machine},
      w.evalAll leaves s = some (xs, s₁) → w.exec op s = some (.goes s') → Reflects w known s₁ m →
      m.Holds inputs xs → ∃ n, Machine.Runs w.near [i] m n ∧ Reflects w known s' n) :
    Covers known reserved op u u₁ (code ++ [i]) := by
  have hlegal : op.Sound known reserved → i.Legal u₁.registers reserved := by
    intro hsound
    refine Instr.legal_of_free hconv (fun r hr => ?_) fun d hd => ?_
    · rcases huses r hr with hr | ⟨v, hv, hr⟩
      · exact h.ready r hr
      · have hone : Evaluable known reserved [v] := hop.subtrees fun x hx =>
          ⟨v, hv, by rw [List.mem_singleton.1 hx]; exact .refl v⟩
        exact hone.free_reads (Nat.le_trans hu h.grows) hr
    · obtain ⟨v, rfl⟩ := hdefs d hd
      obtain ⟨hfp, hknown, hfree⟩ := hsound.written d v rfl
      exact ⟨⟨fun id e => Nat.le_trans (hknown id e) (Nat.le_trans hu h.grows),
        fun p hp e => hfree p e hp⟩, hfp⟩
  refine ⟨h.grows, h.labels, fun x hx => ?_, fun x hx => ?_, fun hsound x hx => ?_,
    fun x hx d hd => ?_, ?_, fun b e => absurd e (hret b)⟩
  · rcases List.mem_append.1 hx with hx | hx
    · exact (h.straight x hx).1
    · rw [List.mem_singleton.1 hx]; exact hi.1
  · rcases List.mem_append.1 hx with hx | hx
    · exact (h.legal x hx).conventional
    · rwa [List.mem_singleton.1 hx]
  · rcases List.mem_append.1 hx with hx | hx
    · exact h.legal x hx
    · rw [List.mem_singleton.1 hx]; exact hlegal hsound
  · rcases List.mem_append.1 hx with hx | hx
    · refine (h.fresh x hx d hd).imp_right fun ⟨⟨y, hy, hcall⟩, hsaved⟩ => Or.inl ⟨?_, hsaved⟩
      obtain ⟨v, hv, hyv⟩ := hsub y hy
      exact ⟨v, hv, hyv.hasCall hcall⟩
    · rw [List.mem_singleton.1 hx] at hd
      exact Or.inr (Or.inr (hdefs d hd))
  · intro w s s' m ho hm
    obtain ⟨xs, s₁, hxs⟩ := hleaves w ho
    obtain ⟨m₁, hruns₁, hm₁, hinputs⟩ := h.computes w hxs hm
    obtain ⟨m₂, hruns₂, hm₂⟩ := hcomputes w hxs ho hm₁ hinputs
    exact ⟨m₂, hruns₁.append hruns₂, hm₂⟩

/-- The code of a value that is computed for its effect. -/
theorem Emits.covers {v : Value} {out : Register} (h : Emits known reserved v [] [] u u₁ code out) :
    Covers known reserved (.value v) u u₁ code := by
  refine ⟨h.grows, h.labels, fun i hi => (h.straight i hi).1, fun i hi => (h.legal i hi).conventional,
    fun _ => h.legal, fun i hi d hd => ?_, ?_, fun b e => by cases e⟩
  · exact (h.fresh i hi d hd).imp_right fun ⟨hcall, hsaved⟩ =>
      Or.inl ⟨⟨v, List.mem_singleton_self v, hcall⟩, hsaved⟩
  intro w s s' m ho hm
  obtain ⟨x, s₁, hx, e⟩ := World.exec_value.1 ho
  cases e
  obtain ⟨n, hruns, hn, -⟩ := h.computes w World.evalAll_nil_self hx hm .nil
  exact ⟨n, hruns, hn⟩

end

namespace Amd64

variable {known : Nat} {reserved : List Physical} {u u₁ : Supply} {leaves : List Value}
  {code : List Instr} {inputs : List Register} {r : Register} {a v : Value}

theorem generate_stmtRule {name : String} {p : Pattern} {f : Emission → Except Fault (List Instr)}
    {e : Emission} {is : List Instr} (h : f e = .ok is) :
    (stmtRule name p f).generate e u = .ok (is, none) u := by
  have : Fresh.ofExcept (f e) u = .ok is u := by rw [h]; rfl
  exact EStateM.bind_eq_ok.2 ⟨is, u, this, rfl⟩

/-- A register is written by a single instruction. -/
theorem covers_write {i : Instr} (h : EmitsAll known reserved leaves u u₁ code inputs)
    (hop : Evaluable known reserved [v]) (hu : known ≤ u.registers)
    (hsub : ∀ x ∈ leaves, ∃ y ∈ [v], x.Subtree y) (hi : i.Straight) (hconv : i.Conventional) (hdefs : i.defines = [r])
    (huses : ∀ x ∈ i.uses, x ∈ inputs ∨ x ∈ v.reads)
    (hleaves : ∀ (w : World) {s : State} {o}, w.exec (.write r v) s = some o →
      ∃ xs s₁, w.evalAll leaves s = some (xs, s₁))
    (hruns : ∀ (w : World) {s s₁ s' : State} {xs : List Word} {x : Word} {m : Machine},
      w.evalAll leaves s = some (xs, s₁) → w.eval v s = some (x, s') → Reflects w known s₁ m →
      m.Holds inputs xs → s₁ = s' ∧ Machine.Runs w.near [i] m (m.tick.write r x)) :
    Covers known reserved (.write r v) u u₁ (code ++ [i]) := by
  refine h.covers hop hu hsub hi hconv (fun _ => nofun) (fun x hx => ?_) (fun d hd => ?_) hleaves ?_
  · exact (huses x hx).imp_right fun hx => ⟨v, by simp [Stmt.values], hx⟩
  · rw [hdefs, List.mem_singleton] at hd
    exact ⟨v, by rw [hd]⟩
  · intro w s s₁ s' xs m hxs ho hm hinputs
    obtain ⟨x, s₂, hx, e⟩ := World.exec_write.1 ho
    cases e
    obtain ⟨rfl, hr⟩ := hruns w hxs hx hm hinputs
    exact ⟨_, hr, hm.tick.write r x⟩

/-- A register is loaded from an address. -/
theorem covers_writeLoad {o : Mem} (h : EmitsAll known reserved leaves u u₁ code inputs)
    (hop : Evaluable known reserved [.load a]) (hu : known ≤ u.registers)
    (hsub : ∀ x ∈ leaves, ∃ y ∈ [Value.load a], x.Subtree y)
    (ho : Addresses known a leaves inputs o)
    (hleaves : ∀ (w : World) {s : State} {o}, w.exec (.write r (.load a)) s = some o →
      ∃ xs s₁, w.evalAll leaves s = some (xs, s₁)) :
    Covers known reserved (.write r (.load a)) u u₁ (code ++ [.mov (.reg r) (.mem o)]) := by
  refine covers_write h hop hu hsub ⟨rfl, rfl⟩ ⟨trivial, trivial⟩ rfl (fun x hx => ?_) hleaves ?_
  · simp only [Instr.uses, Operand.registers, Operand.addressUses, List.append_nil] at hx
    exact ho.registers x hx
  · intro w s s₁ s' xs x m hxs hx hm hinputs
    obtain ⟨y, hy, hnear, rfl⟩ := World.eval_load.1 hx
    obtain ⟨rfl, hdenotes⟩ := ho.denotes w hxs hy hm.tick hinputs
    rw [← hm.memory]
    exact ⟨rfl, Machine.runs_load hdenotes hnear⟩

/-- A word is stored at an address. -/
theorem covers_store {o : Mem} {src : Operand} (h : EmitsAll known reserved leaves u u₁ code inputs)
    (hop : Evaluable known reserved [a, v]) (hu : known ≤ u.registers)
    (hsub : ∀ x ∈ leaves, ∃ y ∈ [a, v], x.Subtree y) (hsrc : src.isMemory = false)
    (huses : ∀ x ∈ src.registers ++ o.registers, x ∈ inputs ∨ x ∈ a.reads ∨ x ∈ v.reads)
    (hleaves : ∀ (w : World) {s : State} {o}, w.exec (.store a v) s = some o →
      ∃ xs s₁, w.evalAll leaves s = some (xs, s₁))
    (hdenotes : ∀ (w : World) {s s₁ s₂ s₃ : State} {xs : List Word} {x y : Word} {m : Machine},
      w.evalAll leaves s = some (xs, s₁) → w.eval a s = some (x, s₂) → w.eval v s₂ = some (y, s₃) →
      Reflects w known s₁ m → m.Holds inputs xs →
      s₁ = s₃ ∧ m.Denotes o x ∧ Exec.load src m = .ok y m) :
    Covers known reserved (.store a v) u u₁ (code ++ [.mov (.mem o) src]) := by
  refine h.covers hop hu hsub ⟨rfl, rfl⟩ ⟨trivial, trivial⟩ (fun _ => nofun) (fun x hx => ?_) (fun d hd => ?_)
    hleaves ?_
  · rcases huses x hx with hx | hx | hx
    · exact Or.inl hx
    · exact Or.inr ⟨a, by simp [Stmt.values], hx⟩
    · exact Or.inr ⟨v, by simp [Stmt.values], hx⟩
  · cases hd
  · intro w s s₁ s' xs m hxs ho hm hinputs
    obtain ⟨x, s₂, y, s₃, hx, hy, hnear, e⟩ := World.exec_store.1 ho
    cases e
    obtain ⟨rfl, hd, hload⟩ := hdenotes w hxs hx hy hm.tick hinputs
    exact ⟨_, Machine.runs_store hd hnear hload hsrc, hm.tick.store x y⟩

section
variable {rule : Rule} {found : Match}

theorem covers_ret (hasValue : Bool) (hall : EmitsAll known reserved [] u u₁ code inputs) :
    Covers known reserved (.ret hasValue) u u₁ (code ++ [.ret (results hasValue)]) := by
  obtain rfl := hall.empty rfl
  have hlists : ∀ r ∈ results hasValue, r.isPhysical = true := by cases hasValue <;> simp [results, Register.isPhysical]
  have hconv : (Instr.ret (results hasValue)).Conventional := ⟨hlists, trivial⟩
  refine ⟨hall.grows, hall.labels, ?_, ?_, ?_, ?_, ?_, ?_⟩
  · simp [Instr.target?]
  · intro i hi
    rw [List.mem_singleton.1 hi]
    exact hconv
  · intro hsound i hi
    rw [List.mem_singleton.1 hi]
    refine Instr.legal_of_free hconv ?_ (by simp [Instr.defines])
    intro r hr
    cases hasValue with
    | false => cases hr
    | true =>
      obtain rfl : r = convention.result := by simpa [results, Instr.uses] using hr
      refine ⟨Register.known_physical _ _, fun p hp e => ?_⟩
      cases e
      exact hsound.returned rfl hp
  · simp [Instr.defines]
  · intro w s s' m ho
    cases ho
  · intro b e
    cases e
    rfl

theorem WriteMatches.covers (h : WriteMatches r rule v found) (hop : Evaluable known reserved [v])
    (hu : known ≤ u.registers) (hsub : ∀ x ∈ found.leaves, ∃ y ∈ [v], x.Subtree y)
    (hall : EmitsAll known reserved found.leaves u u₁ code inputs) :
    ∃ own result, rule.generate { inputs, found } u₁ = .ok (own, result) u₁ ∧
      Covers known reserved (.write r v) u u₁ (code ++ own) := by
  have hleaves : ∀ (w : World) {s : State} {o}, w.exec (.write r v) s = some o →
      ∃ xs s₁, w.evalAll found.leaves s = some (xs, s₁) := by
    intro w s o ho
    obtain ⟨x, s₁, hx, -⟩ := World.exec_write.1 ho
    exact h.exists_evalAll hx
  have hlen := hall.length
  have hknown : ∀ r ∈ v.reads, r.Known known := fun r hr id e =>
    hop.known v List.mem_cons_self id (e ▸ hr)
  cases h with
  | const c =>
    obtain rfl := List.length_eq_zero_iff.1 hlen
    refine ⟨_, _, generate_stmtRule rfl, covers_write hall hop hu hsub ⟨rfl, rfl⟩ ⟨trivial, trivial⟩ rfl
      (by simp [Instr.uses, Operand.registers, Operand.addressUses]) hleaves ?_⟩
    intro w s s₁ s' xs x m hxs hx _ _
    obtain ⟨-, rfl⟩ := World.evalAll_nil.1 hxs
    obtain ⟨rfl, rfl⟩ := World.eval_const.1 hx
    exact ⟨rfl, Machine.runs_set Exec.load_imm rfl⟩
  | @update op d hopr hd =>
    obtain rfl := List.length_eq_zero_iff.1 hlen
    obtain ⟨name, f, hname, hcmp, hf, happly⟩ := arithmetic_spec (mem_arithmetic hopr)
    refine ⟨_, _, generate_stmtRule
      (Except.bind_eq_ok.2 ⟨op, rfl, Except.bind_eq_ok.2 ⟨name, hname, rfl⟩⟩),
      covers_write hall hop hu hsub ⟨rfl, rfl⟩ ⟨trivial, trivial⟩
        (by simp [Instr.defines, hcmp, Operand.defined, Operand.register?])
        (by simp [Instr.uses, Operand.registers, Value.reads]) hleaves ?_⟩
    intro w s s₁ s' xs x m hxs hx hm _
    obtain ⟨-, rfl⟩ := World.evalAll_nil.1 hxs
    obtain ⟨y, s₂, z, hy, hz, hxyz⟩ := World.eval_binary.1 hx
    obtain ⟨hr, rfl⟩ := World.eval_read.1 hy
    obtain ⟨rfl, rfl⟩ := World.eval_const.1 hz
    rw [happly] at hxyz
    cases hxyz
    have hr := hm.registers (hknown r (by simp [Value.reads])) hr
    exact ⟨rfl, Machine.runs_binary hr Exec.load_imm rfl hcmp hf⟩
  | loadLabel l hd =>
    obtain rfl := List.length_eq_zero_iff.1 hlen
    exact ⟨_, _, generate_stmtRule rfl, covers_writeLoad hall hop hu hsub (addresses_label l _) hleaves⟩
  | loadOffset b hopr hd =>
    obtain rfl := List.length_eq_zero_iff.1 hlen
    have hb := hknown b (by simp [Value.reads])
    exact ⟨_, _, generate_stmtRule rfl, covers_writeLoad hall hop hu hsub (addresses_offset hopr hb _) hleaves⟩
  | load a =>
    obtain ⟨b, rfl⟩ := List.length_eq_one_iff.1 hlen
    exact ⟨_, _, generate_stmtRule rfl, covers_writeLoad hall hop hu hsub (addresses_leaf a b) hleaves⟩
  | any v =>
    obtain ⟨b, rfl⟩ := List.length_eq_one_iff.1 hlen
    refine ⟨_, _, generate_stmtRule rfl, covers_write hall hop hu hsub ⟨rfl, rfl⟩ ⟨trivial, trivial⟩ rfl
      (by simp [Instr.move, Instr.uses, Operand.registers, Operand.addressUses]) hleaves ?_⟩
    intro w s s₁ s' xs x m hxs hx _ hb
    rw [World.evalAll_one hx] at hxs
    cases hxs
    cases hb with
    | cons hb _ => exact ⟨rfl, runs_copy hb (.nil _)⟩

theorem StoreMatches.covers (h : StoreMatches rule a v found) (hop : Evaluable known reserved [a, v])
    (hu : known ≤ u.registers) (hsub : ∀ x ∈ found.leaves, ∃ y ∈ [a, v], x.Subtree y)
    (hall : EmitsAll known reserved found.leaves u u₁ code inputs) :
    ∃ own result, rule.generate { inputs, found } u₁ = .ok (own, result) u₁ ∧
      Covers known reserved (.store a v) u u₁ (code ++ own) := by
  have hleaves : ∀ (w : World) {s : State} {o}, w.exec (.store a v) s = some o →
      ∃ xs s₁, w.evalAll found.leaves s = some (xs, s₁) := by
    intro w s o ho
    obtain ⟨x, s₁, y, s₂, hx, hy, -⟩ := World.exec_store.1 ho
    exact h.exists_evalAll hx hy
  have hlen := hall.length
  have hknown : ∀ y ∈ [a, v], ∀ r ∈ y.reads, r.Known known := fun y hy r hr id e =>
    hop.known y hy id (e ▸ hr)
  cases h with
  | @label l d v hd =>
    obtain ⟨b, rfl⟩ := List.length_eq_one_iff.1 hlen
    refine ⟨_, _, generate_stmtRule rfl, covers_store hall hop hu hsub rfl
      (by simp [Operand.registers, Mem.registers]) hleaves ?_⟩
    intro w s s₁ s₂ s₃ xs x y m hxs hx hy hm hb
    obtain ⟨z, s₄, z', hz, hz', hxyz⟩ := World.eval_binary.1 hx
    obtain ⟨hl, rfl⟩ := World.eval_address.1 hz
    obtain ⟨rfl, rfl⟩ := World.eval_const.1 hz'
    cases hxyz
    rw [World.evalAll_one hy] at hxs
    cases hxs
    cases hb with
    | cons hb _ => exact ⟨rfl, hm.denotes_label hl d, Exec.load_reg hb⟩
  | @offsetConst op b d c hopr hd hc =>
    obtain rfl := List.length_eq_zero_iff.1 hlen
    have hb := hknown _ List.mem_cons_self b (by simp [Value.reads])
    refine ⟨_, _, generate_stmtRule rfl, covers_store hall hop hu hsub rfl
      (by simp [Operand.registers, Mem.registers, Value.reads]) hleaves ?_⟩
    intro w s s₁ s₂ s₃ xs x y m hxs hx hy hm hnone
    obtain ⟨rfl, hdenotes⟩ := (addresses_offset hopr hb d).denotes w hxs hx hm hnone
    obtain ⟨rfl, rfl⟩ := World.eval_const.1 hy
    exact ⟨rfl, hdenotes, Exec.load_imm⟩
  | @offsetReg op b r d hopr hd =>
    obtain rfl := List.length_eq_zero_iff.1 hlen
    have hb := hknown _ List.mem_cons_self b (by simp [Value.reads])
    have hr := hknown (.read r) (by simp) r (by simp [Value.reads])
    refine ⟨_, _, generate_stmtRule rfl, covers_store hall hop hu hsub rfl
      (by simp [Operand.registers, Mem.registers, Value.reads]) hleaves ?_⟩
    intro w s s₁ s₂ s₃ xs x y m hxs hx hy hm hnone
    obtain ⟨rfl, hdenotes⟩ := (addresses_offset hopr hb d).denotes w hxs hx hm hnone
    obtain ⟨hval, rfl⟩ := World.eval_read.1 hy
    exact ⟨rfl, hdenotes, Exec.load_reg (hm.registers hr hval)⟩
  | @const a c hc =>
    obtain ⟨b, rfl⟩ := List.length_eq_one_iff.1 hlen
    refine ⟨_, _, generate_stmtRule rfl, covers_store hall hop hu hsub rfl
      (by simp [Operand.registers, Mem.registers, Mem.ofRegister]) hleaves ?_⟩
    intro w s s₁ s₂ s₃ xs x y m hxs hx hy hm hb
    obtain ⟨rfl, hdenotes⟩ := (addresses_leaf a b).denotes w hxs hx hm hb
    obtain ⟨rfl, rfl⟩ := World.eval_const.1 hy
    exact ⟨rfl, hdenotes, Exec.load_imm⟩
  | any a v =>
    obtain ⟨b, c, rfl⟩ := List.length_eq_two.1 hlen
    refine ⟨_, _, generate_stmtRule rfl, covers_store hall hop hu hsub rfl
      (by simp [Operand.registers, Mem.registers, Mem.ofRegister]) hleaves ?_⟩
    intro w s s₁ s₂ s₃ xs x y m hxs hx hy hm hbc
    rw [World.evalAll_two hx hy] at hxs
    cases hxs
    cases hbc with
    | cons hb hc =>
      cases hc with
      | cons hc _ =>
        have hdenotes := Machine.denotes_base 0 hb
        rw [Int64.add_zero] at hdenotes
        exact ⟨rfl, hdenotes, Exec.load_reg hc⟩

/-- **The code of a rule carries out its operation**, once the leaves are in
    registers. -/
theorem covers_of_matches {op : Stmt} (h : Matches rule op found)
    (hvalue : op.isValue = false) (hop : Evaluable known reserved op.values) (hu : known ≤ u.registers)
    (hsub : ∀ x ∈ found.leaves, ∃ v ∈ op.values, x.Subtree v)
    (hall : EmitsAll known reserved found.leaves u u₁ code inputs) :
    ∃ own result, rule.generate { inputs, found } u₁ = .ok (own, result) u₁ ∧
      Covers known reserved op u u₁ (code ++ own) := by
  cases h with
  | value => cases hvalue
  | write h => exact h.covers hop hu hsub hall
  | store h => exact h.covers hop hu hsub hall
  | ret hasValue => exact ⟨_, _, generate_stmtRule rfl, covers_ret hasValue hall⟩

end

/-- **Every operation over declared operators can be covered**, by code that carries
    it out. -/
theorem exists_coverStmt {op : Stmt} (hop : Evaluable known reserved op.values)
    (hu : known ≤ u.registers) :
    ∃ code u', catalogue.coverStmt op u = .ok code u' ∧ Covers known reserved op u u' code := by
  obtain ⟨t, ht⟩ := exists_tile op hop.declared
  have hcovers := Catalogue.covers_of_tile? ht
  cases hvalue : op.isValue with
  | true =>
    obtain ⟨v, rfl⟩ : ∃ v, op = .value v := by cases op <;> first | exact ⟨_, rfl⟩ | cases hvalue
    obtain ⟨code, out, u', hemit, h⟩ := exists_emit t hcovers hop hu
    exact ⟨code, u', Catalogue.coverStmt_eq_ok ht hemit, h.covers⟩
  | false =>
    obtain ⟨hrule, hfound, hleaves⟩ := Tile.covers_iff.1 hcovers
    have hsub : ∀ x ∈ t.found.leaves, ∃ v ∈ op.values, x.Subtree v := fun x hx =>
      (Pattern.leaves_subtree hfound x hx).resolve_left (by simp)
    obtain ⟨code, inputs, u₁, hemit, hall⟩ :=
      exists_emitLeaves t.rule.name t.leaves hleaves (hop.subtrees hsub) hu
    obtain ⟨own, result, hgen, h⟩ :=
      covers_of_matches (matches_of_apply hrule hfound) hvalue hop hu hsub hall
    exact ⟨code ++ own, u₁, Catalogue.coverStmt_eq_ok ht (Tile.emit_eq_ok hemit hgen), h⟩

end Amd64

/-- The code carries out the operations in order, up to the first return. -/
structure CoversAll (known : Nat) (reserved : List Physical) (ops : List Stmt) (u u' : Supply)
    (code : List Instr) : Prop where
  grows : u.registers ≤ u'.registers
  labels : u'.labels = u.labels
  noTarget : ∀ i ∈ code, i.target? = none
  legal : ∀ i ∈ code, i.Legal u'.registers reserved
  goes : ∀ (w : World) {s s' : State} {m : Machine}, w.execAll ops s = some (.goes s') →
    Reflects w known s m → ∃ n, Machine.Runs w.near code m n ∧ Reflects w known s' n
  returns : ∀ (w : World) {s s' : State} {hasValue : Bool} {m : Machine},
    w.execAll ops s = some (.returns hasValue s') → Reflects w known s m →
    ∃ pre post n, code = pre ++ .ret (Amd64.results hasValue) :: post ∧
      Machine.Runs w.near pre m n ∧ Reflects w known s' n

namespace Amd64

variable {known : Nat} {reserved : List Physical} {u : Supply} {ops : List Stmt}

theorem exists_coverStmts (hops : ∀ op ∈ ops, op.Sound known reserved) (hu : known ≤ u.registers) :
    ∃ code u', catalogue.coverStmts ops u = .ok code u' ∧ CoversAll known reserved ops u u' code := by
  have key : ∃ codes u', ops.mapM catalogue.coverStmt u = .ok codes u' ∧
      CoversAll known reserved ops u u' codes.flatten := by
    induction ops generalizing u with
    | nil =>
      refine ⟨[], u, rfl, Nat.le_refl _, rfl, by simp, by simp, ?_, ?_⟩
      · intro w s s' m h hm
        cases h
        exact ⟨m, .nil m, hm⟩
      · intro w s s' hasValue m h
        cases h
    | cons op ops ih =>
      obtain ⟨code, u₁, hcode, h⟩ := exists_coverStmt (hops op List.mem_cons_self).values hu
      obtain ⟨codes, u₂, hcodes, hrest⟩ :=
        ih (fun op hop => hops op (List.mem_cons_of_mem _ hop)) (Nat.le_trans hu h.grows)
      refine ⟨code :: codes, u₂, ?_, Nat.le_trans h.grows hrest.grows, hrest.labels.trans h.labels,
        ?_, ?_, ?_, ?_⟩
      · rw [List.mapM_cons]
        exact EStateM.bind_eq_ok.2 ⟨_, _, hcode, EStateM.bind_eq_ok.2 ⟨_, _, hcodes, rfl⟩⟩
      · intro i hi
        rw [List.flatten_cons] at hi
        exact (List.mem_append.1 hi).elim (h.noTarget i) (hrest.noTarget i)
      · intro i hi
        rw [List.flatten_cons] at hi
        exact (List.mem_append.1 hi).elim (fun hi => (h.legal (hops op List.mem_cons_self) i hi).mono hrest.grows)
          (hrest.legal i)
      · intro w s s' m ho hm
        obtain ⟨o, ho, hrest'⟩ := Option.bind_eq_some_iff.1 ho
        cases o with
        | goes s₁ =>
          obtain ⟨m₁, hruns₁, hm₁⟩ := h.goes w ho hm
          obtain ⟨m₂, hruns₂, hm₂⟩ := hrest.goes w hrest' hm₁
          exact ⟨m₂, hruns₁.append hruns₂, hm₂⟩
        | returns b s₁ => cases hrest'
      · intro w s s' hasValue m ho hm
        obtain ⟨o, ho, hrest'⟩ := Option.bind_eq_some_iff.1 ho
        cases o with
        | goes s₁ =>
          obtain ⟨m₁, hruns₁, hm₁⟩ := h.goes w ho hm
          obtain ⟨pre, post, n, e, hruns₂, hn⟩ := hrest.returns w hrest' hm₁
          exact ⟨code ++ pre, post, n, by rw [List.flatten_cons, e, List.append_assoc],
            hruns₁.append hruns₂, hn⟩
        | returns b s₁ =>
          cases hrest'
          obtain ⟨b, rfl⟩ : ∃ b, op = .ret b := by
            cases op with
            | ret b => exact ⟨b, rfl⟩
            | value v => obtain ⟨x, s₂, -, e⟩ := World.exec_value.1 ho; cases e
            | write r v => obtain ⟨x, s₂, -, e⟩ := World.exec_write.1 ho; cases e
            | store a v => obtain ⟨x, s₂, y, s₃, -, -, -, e⟩ := World.exec_store.1 ho; cases e
          cases ho
          exact ⟨[], codes.flatten, m, by rw [h.returns _ rfl]; rfl, .nil m, hm⟩
  obtain ⟨codes, u', hcodes, h⟩ := key
  exact ⟨codes.flatten, u', EStateM.bind_eq_ok.2 ⟨codes, u', hcodes, rfl⟩, h⟩

end Amd64

end Codegen
