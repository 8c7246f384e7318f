/-
  What the code of operations consists of, whatever it computes.

  Code that comes out of the catalogue has no jumps but those at the ends of blocks,
  its calls and returns follow the convention, and its registers were drawn from the
  supply, if those of the operations were (`generated_coverStmts`,
  `generated_coverBranch`).
-/
import Codegen.Proofs.Selection.Blocks

namespace Codegen

/-- An instruction that goes on to the next one, or returns, over known registers. -/
structure Instr.Plain (known : Nat) (i : Instr) : Prop where
  noTarget : i.target? = none
  conventional : i.Conventional
  known : ∀ r ∈ i.mentions, r.Known known

namespace Instr

variable {known known' : Nat} {i : Instr} {d : Register}

theorem Plain.mono (h : i.Plain known) (hle : known ≤ known') : i.Plain known' :=
  ⟨h.noTarget, h.conventional, fun r hr => (h.known r hr).mono hle⟩

theorem plain_mov {dst src : Operand} : (Instr.mov dst src).Plain known ↔
    (∀ r ∈ dst.registers, r.Known known) ∧ ∀ r ∈ src.registers, r.Known known := by
  have hmem : ∀ r, r ∈ (Instr.mov dst src).mentions ↔ r ∈ dst.registers ∨ r ∈ src.registers := by
    cases dst <;> simp [mentions, uses, defines, Operand.registers, Operand.addressUses, Operand.defined,
      Operand.register?, or_comm]
  refine ⟨fun h => ⟨fun r hr => h.known r ((hmem r).2 (Or.inl hr)), fun r hr =>
    h.known r ((hmem r).2 (Or.inr hr))⟩, fun h => ⟨rfl, ⟨trivial, trivial⟩, fun r hr => ?_⟩⟩
  exact ((hmem r).1 hr).elim (h.1 r) (h.2 r)

theorem plain_binary {op : String} {dst src : Operand} : (Instr.binary op dst src).Plain known ↔
    (∀ r ∈ dst.registers, r.Known known) ∧ ∀ r ∈ src.registers, r.Known known := by
  have hdef : ∀ r ∈ (Instr.binary op dst src).defines, r ∈ dst.registers := by
    simp only [defines]
    split
    · simp
    · cases dst <;> simp [Operand.defined, Operand.register?, Operand.registers]
  refine ⟨fun h => ⟨fun r hr => h.known r (List.mem_append_left _ (List.mem_append_left _ hr)),
    fun r hr => h.known r (List.mem_append_left _ (List.mem_append_right _ hr))⟩,
    fun h => ⟨rfl, ⟨trivial, trivial⟩, fun r hr => ?_⟩⟩
  rcases List.mem_append.1 hr with hr | hr
  · exact (List.mem_append.1 hr).elim (h.1 r) (h.2 r)
  · exact h.1 r (hdef r hr)

theorem plain_clear : (Instr.clear d).Plain known ↔ d.Known known :=
  ⟨fun h => h.known d (by simp [mentions, defines]), fun h => ⟨rfl, ⟨trivial, trivial⟩, by
    simpa [mentions, uses, defines] using h⟩⟩

theorem plain_unary {op : String} : (Instr.unary op d).Plain known ↔ d.Known known :=
  ⟨fun h => h.known d (by simp [mentions, defines]), fun h => ⟨rfl, ⟨trivial, trivial⟩, by
    simpa [mentions, uses, defines] using h⟩⟩

theorem plain_setcc {cc : String} : (Instr.setcc cc d).Plain known ↔ d.Known known :=
  ⟨fun h => h.known d (by simp [mentions, defines]), fun h => ⟨rfl, ⟨trivial, trivial⟩, by
    simpa [mentions, uses, defines] using h⟩⟩

theorem plain_lea {l : Label} {w : Word} : (Instr.lea d ⟨l, none, w⟩).Plain known ↔ d.Known known :=
  ⟨fun h => h.known d (by simp [mentions, defines]), fun h => ⟨rfl, ⟨trivial, trivial⟩, by
    simpa [mentions, uses, defines, Mem.registers] using h⟩⟩

theorem plain_ret {results : List Register} (h : ∀ r ∈ results, r.isPhysical = true) :
    (Instr.ret results).Plain known := by
  refine ⟨rfl, ⟨h, trivial⟩, fun r hr id e => ?_⟩
  have := h r (by simpa [mentions, uses, defines] using hr)
  rw [e] at this
  cases this

theorem plain_call {f : Label} {n : Int} :
    (Instr.call f (Amd64.argumentRegisters n) Amd64.callerSaved).Plain known := by
  have hphysical : ∀ r ∈ Amd64.argumentRegisters n ++ Amd64.callerSaved, r.isPhysical = true := by
    intro r hr
    rcases List.mem_append.1 hr with hr | hr <;> obtain ⟨p, -, rfl⟩ := List.mem_map.1 hr <;> rfl
  have hclobbered : Machine.resultRegister ∈ Amd64.callerSaved := by decide
  refine ⟨rfl, ⟨⟨fun r hr => hphysical r (List.mem_append_left _ hr),
    fun r hr => hphysical r (List.mem_append_right _ hr)⟩, hclobbered⟩, fun r hr id e => ?_⟩
  have := hphysical r hr
  rw [e] at this
  cases this

end Instr

/-- The registers that an operation reads and writes are known. -/
structure Stmt.Known (known : Nat) (op : Stmt) : Prop where
  reads : ∀ v ∈ op.values, ∀ r ∈ v.reads, r.Known known
  writes : ∀ r v, op = .write r v → r.Known known

theorem Stmt.Known.mono {known known' : Nat} {op : Stmt} (h : op.Known known) (hle : known ≤ known') :
    op.Known known' :=
  ⟨fun v hv r hr => (h.reads v hv r hr).mono hle, fun r v e => (h.writes r v e).mono hle⟩

/-- The operation writes the register. -/
def Stmt.Writes (op : Stmt) (r : Register) : Prop := ∃ v, op = .write r v

/-- Plain code that was made between two moments.  The physical registers that it may
    define are listed, but for those that calls overwrite. -/
structure Generated (written : Register → Prop) (u u' : Supply) (code : List Instr) : Prop where
  grows : u.registers ≤ u'.registers
  labels : u'.labels = u.labels
  plain : ∀ i ∈ code, i.Plain u'.registers
  defines : ∀ i ∈ code, ∀ d ∈ i.defines, d.isPhysical = false ∨ d ∈ Amd64.callerSaved ∨ written d

section
variable {written written' : Register → Prop} {u u₁ u₂ : Supply} {code code' : List Instr}

theorem Generated.append (h : Generated written u u₁ code) (h' : Generated written u₁ u₂ code') :
    Generated written u u₂ (code ++ code') :=
  ⟨Nat.le_trans h.grows h'.grows, h'.labels.trans h.labels, fun i hi =>
    (List.mem_append.1 hi).elim (fun hi => (h.plain i hi).mono h'.grows) (h'.plain i), fun i hi =>
    (List.mem_append.1 hi).elim (h.defines i) (h'.defines i)⟩

theorem Generated.nil (written : Register → Prop) (u : Supply) : Generated written u u [] :=
  ⟨Nat.le_refl _, rfl, by simp, by simp⟩

theorem Generated.mono (h : Generated written u u₁ code) (hw : ∀ r, written r → written' r) :
    Generated written' u u₁ code :=
  { h with defines := fun i hi d hd => (h.defines i hi d hd).imp_right fun h => h.imp_right (hw d) }

end

namespace Amd64

open Instr

variable {u u' : Supply} {own code : List Instr} {result : Option Register} {inputs : List Register}

section
variable {name : String} {p : Pattern} {e : Emission} {is : List Instr} {written : Register → Prop}

theorem generated_valueRule {f : Emission → Register → Except Fault (List Instr)} (is : List Instr)
    (h : f e u.drawn = .ok is) (hplain : ∀ i ∈ is, i.Plain u.next.registers)
    (hdefs : ∀ i ∈ is, ∀ d ∈ i.defines, d = u.drawn)
    (hgen : (valueRule name p f).generate e u = .ok (own, result) u') :
    Generated written u u' own ∧ ∀ r, result = some r → r.Known u'.registers := by
  cases hgen.symm.trans (generate_valueRule h)
  refine ⟨⟨Nat.le_succ _, rfl, hplain, fun i hi d hd => ?_⟩, fun r e => by
    cases e; exact u.drawn_between.known⟩
  exact Or.inl (by rw [hdefs i hi d hd]; rfl)

theorem generated_stmtRule {f : Emission → Except Fault (List Instr)} (is : List Instr) (h : f e = .ok is)
    (hplain : ∀ i ∈ is, i.Plain u.registers) (hdefs : ∀ i ∈ is, ∀ d ∈ i.defines, written d)
    (hgen : (stmtRule name p f).generate e u = .ok (own, result) u') :
    Generated written u u' own ∧ ∀ r, result = some r → r.Known u'.registers := by
  cases hgen.symm.trans (generate_stmtRule h)
  exact ⟨⟨Nat.le_refl _, rfl, hplain, fun i hi d hd => Or.inr (Or.inr (hdefs i hi d hd))⟩, nofun⟩

end

section
variable {rule : Rule} {found : Match} {a v : Value} {written : Register → Prop}

attribute [local simp] Instr.defines Operand.defined Operand.register?

/-- The code of a call is the call and a move of its result. -/
theorem eq_of_generate_call {f : Label} {n : Int} (hfound : found.call .call = .ok (f, n))
    (hgen : call.generate { inputs, found } u = .ok (own, result) u') :
    own = [.call f (argumentRegisters n) callerSaved, .move u.drawn convention.result] ∧
      result = some u.drawn ∧ u' = u.next := by
  rw [generate_call hfound] at hgen
  split at hgen
  · cases hgen
  · split at hgen
    · cases hgen
    · cases hgen
      exact ⟨rfl, rfl, rfl⟩

/-- The code of a call overwrites what calls do, and moves the result to a new register. -/
theorem generated_call {f : Label} {n : Int} (hfound : found.call .call = .ok (f, n))
    (hgen : call.generate { inputs, found } u = .ok (own, result) u') :
    Generated written u u' own ∧ ∀ r, result = some r → r.Known u'.registers := by
  have hdrawn : u.drawn.Known u.next.registers := u.drawn_between.known
  obtain ⟨rfl, rfl, rfl⟩ := eq_of_generate_call hfound hgen
  refine ⟨⟨Nat.le_succ _, rfl, ?_, ?_⟩, fun r e => by cases e; exact hdrawn⟩
  · intro i hi
    simp only [List.mem_cons, List.not_mem_nil, or_false] at hi
    rcases hi with rfl | rfl
    · exact plain_call
    · refine plain_mov.2 ⟨fun r hr => ?_, fun r hr => ?_⟩ <;> rw [List.mem_singleton.1 hr]
      · exact hdrawn
      · exact Register.known_physical _ _
  · intro i hi d hd
    simp only [List.mem_cons, List.not_mem_nil, or_false] at hi
    rcases hi with rfl | rfl
    · exact Or.inr (Or.inl hd)
    · rw [List.mem_singleton.1 hd]
      exact Or.inl rfl

/-- The code of a unary operator changes a copy of its operand. -/
theorem generated_unary {op : UnaryOp} {b : Register} (hfound : found.unaryOp anyUnary = .ok op)
    (hb : b.Known u.next.registers)
    (hgen : unary.generate { inputs := [b], found } u = .ok (own, result) u') :
    Generated written u u' own ∧ ∀ r, result = some r → r.Known u'.registers := by
  have hdrawn : u.drawn.Known u.next.registers := u.drawn_between.known
  obtain ⟨op', u₁, h₁, hgen⟩ := EStateM.bind_eq_ok.1 hgen
  rw [hfound] at h₁
  cases h₁
  cases hgen
  refine ⟨⟨Nat.le_succ _, rfl, ?_, ?_⟩, fun r e => by cases e; exact hdrawn⟩
  · intro i hi
    simp only [List.mem_cons, List.not_mem_nil, or_false] at hi
    rcases hi with rfl | rfl
    · refine plain_mov.2 ⟨fun r hr => ?_, fun r hr => ?_⟩ <;> rw [List.mem_singleton.1 hr]
      · exact hdrawn
      · exact hb
    · exact plain_unary.2 hdrawn
  · intro i hi d hd
    simp only [List.mem_cons, List.not_mem_nil, or_false] at hi
    rcases hi with rfl | rfl <;> rw [List.mem_singleton.1 hd] <;> exact Or.inl rfl

theorem ValueMatches.generated (h : ValueMatches rule v found) (hread : ∀ r ∈ v.reads, r.Known u.registers)
    (hin : ∀ r ∈ inputs, r.Known u.registers) (hlen : inputs.length = found.leaves.length)
    (hgen : rule.generate { inputs, found } u = .ok (own, result) u') :
    Generated written u u' own ∧ ∀ r, result = some r → r.Known u'.registers := by
  have hdrawn : u.drawn.Known u.next.registers := u.drawn_between.known
  have hnext : ∀ {r : Register}, r.Known u.registers → r.Known u.next.registers := fun hr =>
    hr.mono (Nat.le_succ _)
  cases h with
  | const w =>
    exact generated_valueRule _ rfl (by simp [plain_mov, Operand.registers, hdrawn]) (by simp) hgen
  | read r =>
    cases hgen
    refine ⟨.nil _ u, fun r e => ?_⟩
    cases e
    exact hread _ (by simp [Value.reads])
  | loadLabel l hd =>
    exact generated_valueRule _ rfl (by simp [plain_mov, Operand.registers, Mem.registers, hdrawn]) (by simp) hgen
  | loadOffset b _ hd =>
    have hb := hnext (hread b (by simp [Value.reads]))
    exact generated_valueRule _ rfl (by simp [plain_mov, Operand.registers, Mem.registers, hdrawn, hb]) (by simp) hgen
  | loadAny a =>
    obtain ⟨b, rfl⟩ := List.length_eq_one_iff.1 hlen
    have hb := hnext (hin b (by simp))
    exact generated_valueRule _ rfl
      (by simp [plain_mov, Operand.registers, Mem.registers, Mem.ofRegister, hdrawn, hb]) (by simp) hgen
  | address l => exact generated_valueRule _ rfl (by simp [plain_lea, hdrawn]) (by simp) hgen
  | call f n => exact generated_call rfl hgen
  | unary op x =>
    obtain ⟨b, rfl⟩ := List.length_eq_one_iff.1 hlen
    exact generated_unary rfl (hnext (hin b (by simp))) hgen
  | @arithConst op l d hop hd =>
    obtain ⟨b, rfl⟩ := List.length_eq_one_iff.1 hlen
    have hb := hnext (hin b (by simp))
    obtain ⟨name, f, hname, hcmp, -⟩ := arithmetic_spec (mem_arithmetic hop)
    refine generated_valueRule [.move u.drawn b, .binary name (.reg u.drawn) (.imm d)] ?_ ?_ ?_ hgen
    · exact Except.bind_eq_ok.2 ⟨op, rfl, Except.bind_eq_ok.2 ⟨name, hname, rfl⟩⟩
    · simp [plain_mov, plain_binary, Instr.move, Operand.registers, hdrawn, hb]
    · simp [Instr.move, hcmp]
  | @arithAny op l r hop =>
    obtain ⟨b, c, rfl⟩ := List.length_eq_two.1 hlen
    have hb := hnext (hin b (by simp))
    have hc := hnext (hin c (by simp))
    obtain ⟨name, f, hname, hcmp, -⟩ := arithmetic_spec hop
    refine generated_valueRule [.move u.drawn b, .binary name (.reg u.drawn) (.reg c)] ?_ ?_ ?_ hgen
    · exact Except.bind_eq_ok.2 ⟨op, rfl, Except.bind_eq_ok.2 ⟨name, hname, rfl⟩⟩
    · simp [plain_mov, plain_binary, Instr.move, Operand.registers, hdrawn, hb, hc]
    · simp [Instr.move, hcmp]
  | @compare op l r hop =>
    obtain ⟨b, c, rfl⟩ := List.length_eq_two.1 hlen
    have hb := hnext (hin b (by simp))
    have hc := hnext (hin c (by simp))
    obtain ⟨cc, test, hcc, -⟩ := condition_spec hop
    refine generated_valueRule [.clear u.drawn, .binary "cmp" (.reg b) (.reg c), .setcc cc u.drawn] ?_ ?_ ?_ hgen
    · exact Except.bind_eq_ok.2 ⟨op, rfl, Except.bind_eq_ok.2 ⟨cc, hcc, rfl⟩⟩
    · simp [plain_clear, plain_binary, plain_setcc, Operand.registers, hdrawn, hb, hc]
    · simp

theorem WriteMatches.generated {r : Register} (h : WriteMatches r rule v found)
    (hread : ∀ r ∈ v.reads, r.Known u.registers) (hr : r.Known u.registers)
    (hin : ∀ r ∈ inputs, r.Known u.registers) (hlen : inputs.length = found.leaves.length)
    (hgen : rule.generate { inputs, found } u = .ok (own, result) u') :
    Generated (· = r) u u' own ∧ ∀ r, result = some r → r.Known u'.registers := by
  cases h with
  | const w => exact generated_stmtRule _ rfl (by simp [plain_mov, Operand.registers, hr]) (by simp) hgen
  | @update op d hop hd =>
    obtain ⟨name, f, hname, hcmp, -⟩ := arithmetic_spec (mem_arithmetic hop)
    refine generated_stmtRule [.binary name (.reg r) (.imm d)] ?_ ?_ ?_ hgen
    · exact Except.bind_eq_ok.2 ⟨op, rfl, Except.bind_eq_ok.2 ⟨name, hname, rfl⟩⟩
    · simp [plain_binary, Operand.registers, hr]
    · simp [hcmp]
  | loadLabel l hd =>
    exact generated_stmtRule _ rfl (by simp [plain_mov, Operand.registers, Mem.registers, hr]) (by simp) hgen
  | loadOffset b _ hd =>
    have hb := hread b (by simp [Value.reads])
    exact generated_stmtRule _ rfl (by simp [plain_mov, Operand.registers, Mem.registers, hr, hb]) (by simp) hgen
  | load a =>
    obtain ⟨b, rfl⟩ := List.length_eq_one_iff.1 hlen
    have hb := hin b (by simp)
    exact generated_stmtRule _ rfl
      (by simp [plain_mov, Operand.registers, Mem.registers, Mem.ofRegister, hr, hb]) (by simp) hgen
  | any v =>
    obtain ⟨b, rfl⟩ := List.length_eq_one_iff.1 hlen
    have hb := hin b (by simp)
    exact generated_stmtRule _ rfl (by simp [plain_mov, Instr.move, Operand.registers, hr, hb])
      (by simp [Instr.move]) hgen

theorem StoreMatches.generated (h : StoreMatches rule a v found)
    (hread : ∀ y ∈ [a, v], ∀ r ∈ y.reads, r.Known u.registers)
    (hin : ∀ r ∈ inputs, r.Known u.registers) (hlen : inputs.length = found.leaves.length)
    (hgen : rule.generate { inputs, found } u = .ok (own, result) u') :
    Generated written u u' own ∧ ∀ r, result = some r → r.Known u'.registers := by
  cases h with
  | label l v hd =>
    obtain ⟨b, rfl⟩ := List.length_eq_one_iff.1 hlen
    have hb := hin b (by simp)
    exact generated_stmtRule _ rfl (by simp [plain_mov, Operand.registers, Mem.registers, hb]) (by simp) hgen
  | offsetConst b _ hd hw =>
    have hb := hread _ List.mem_cons_self b (by simp [Value.reads])
    exact generated_stmtRule _ rfl (by simp [plain_mov, Operand.registers, Mem.registers, hb]) (by simp) hgen
  | offsetReg b r _ hd =>
    have hb := hread _ List.mem_cons_self b (by simp [Value.reads])
    have hr := hread (.read r) (by simp) r (by simp [Value.reads])
    exact generated_stmtRule _ rfl (by simp [plain_mov, Operand.registers, Mem.registers, hb, hr]) (by simp) hgen
  | const a hw =>
    obtain ⟨b, rfl⟩ := List.length_eq_one_iff.1 hlen
    have hb := hin b (by simp)
    exact generated_stmtRule _ rfl
      (by simp [plain_mov, Operand.registers, Mem.registers, Mem.ofRegister, hb]) (by simp) hgen
  | any a v =>
    obtain ⟨b, c, rfl⟩ := List.length_eq_two.1 hlen
    have hb := hin b (by simp)
    have hc := hin c (by simp)
    exact generated_stmtRule _ rfl
      (by simp [plain_mov, Operand.registers, Mem.registers, Mem.ofRegister, hb, hc]) (by simp) hgen

/-- **The code of a rule is plain.** -/
theorem generated_of_matches {op : Stmt} (h : Matches rule op found) (hknown : op.Known u.registers)
    (hin : ∀ r ∈ inputs, r.Known u.registers) (hlen : inputs.length = found.leaves.length)
    (hgen : rule.generate { inputs, found } u = .ok (own, result) u') :
    Generated op.Writes u u' own ∧ ∀ r, result = some r → r.Known u'.registers := by
  cases h with
  | value h => exact h.generated (hknown.reads _ List.mem_cons_self) hin hlen hgen
  | @write _ r v _ h =>
    have hcode := h.generated (hknown.reads _ List.mem_cons_self) (hknown.writes r v rfl) hin hlen hgen
    refine hcode.imp_left fun hcode => hcode.mono ?_
    rintro _ rfl
    exact ⟨v, rfl⟩
  | store h => exact h.generated hknown.reads hin hlen hgen
  | ret hasValue =>
    refine generated_stmtRule _ rfl (fun i hi => ?_) (by simp) hgen
    rw [List.mem_singleton.1 hi]
    refine plain_ret fun r hr => ?_
    cases hasValue
    · cases hr
    · rw [List.mem_singleton.1 hr]; rfl

end

/-! ## Tiles -/

mutual

theorem generated_emit : (t : Tile) → {op : Stmt} → {u u' : Supply} → {code : List Instr} →
    {result : Option Register} → t.Covers catalogue.trees op → op.Known u.registers →
    t.emit u = .ok (code, result) u' →
    Generated op.Writes u u' code ∧ ∀ r, result = some r → r.Known u'.registers
  | ⟨rule, found, leaves, _⟩, op, u, u', code, result, ⟨hrule, hfound, hleaves⟩, hop, hemit => by
    obtain ⟨⟨pre, inputs⟩, u₁, hpre, hemit⟩ := EStateM.bind_eq_ok.1 hemit
    obtain ⟨⟨own, result'⟩, u₂, hown, hemit⟩ := EStateM.bind_eq_ok.1 hemit
    cases hemit
    have hsub : ∀ x ∈ found.leaves, ∀ r ∈ x.reads, r.Known u.registers := fun x hx r hr => by
      obtain ⟨y, hy, hxy⟩ := (Pattern.leaves_subtree hfound x hx).resolve_left (by simp)
      exact hop.reads y hy r (hxy.reads hr)
    obtain ⟨hgen, hin⟩ := generated_emitLeaves leaves hleaves hsub hpre
    obtain ⟨hgen', hresult⟩ := generated_of_matches (matches_of_apply hrule hfound) (hop.mono hgen.grows)
      hin (hleaves.length_inputs hpre) hown
    exact ⟨(hgen.mono fun _ => False.elim).append hgen', hresult⟩

theorem generated_emitLeaves {parent : String} : (ts : List Tile) → {vs : List Value} → {u u' : Supply} →
    {code : List Instr} → {inputs : List Register} → Tile.CoverAll catalogue.trees ts vs →
    (∀ v ∈ vs, ∀ r ∈ v.reads, r.Known u.registers) →
    Tile.emitLeaves parent ts u = .ok (code, inputs) u' →
    Generated (fun _ => False) u u' code ∧ ∀ r ∈ inputs, r.Known u'.registers
  | [], vs, u, u', code, inputs, hcover, _, hemit => by
    cases hemit
    cases vs with
    | nil => exact ⟨.nil _ u, by simp⟩
    | cons => exact hcover.elim
  | t :: ts, [], _, _, _, _, hcover, _, _ => hcover.elim
  | t :: ts, v :: vs, u, u', code, inputs, hcover, hvs, hemit => by
    obtain ⟨⟨first, result⟩, u₁, hfirst, hemit⟩ := EStateM.bind_eq_ok.1 hemit
    have hknown : Stmt.Known u.registers (.value v) := ⟨fun x hx => hvs x (by simp_all [Stmt.values]), nofun⟩
    obtain ⟨hgen, hresult⟩ := generated_emit t hcover.1 hknown hfirst
    have hgen : Generated (fun _ => False) u u₁ first := hgen.mono fun _ ⟨_, e⟩ => by cases e
    cases result with
    | none => cases hemit
    | some out =>
      obtain ⟨⟨rest, outs⟩, u₂, hrest, hemit⟩ := EStateM.bind_eq_ok.1 hemit
      cases hemit
      obtain ⟨hgen', hin⟩ := generated_emitLeaves ts hcover.2 (fun x hx r hr =>
        (hvs x (List.mem_cons_of_mem _ hx) r hr).mono hgen.grows) hrest
      refine ⟨hgen.append hgen', List.forall_mem_cons.2 ⟨?_, hin⟩⟩
      exact (hresult out rfl).mono hgen'.grows

end

theorem generated_coverStmt {op : Stmt} (hop : op.Known u.registers)
    (h : catalogue.coverStmt op u = .ok code u') : Generated op.Writes u u' code := by
  obtain ⟨t, u₁, ht, h⟩ := EStateM.bind_eq_ok.1 h
  obtain ⟨⟨code', result⟩, u₂, hemit, h⟩ := EStateM.bind_eq_ok.1 h
  cases h
  obtain ⟨htile, rfl⟩ : catalogue.tile? op = some t ∧ u₁ = u := by
    unfold Catalogue.tile at ht
    cases htile : catalogue.tile? op with
    | none => rw [htile] at ht; cases ht
    | some t' => rw [htile] at ht; cases ht; exact ⟨rfl, rfl⟩
  exact (generated_emit t (Catalogue.covers_of_tile? htile) hop hemit).1

/-- **The code of operations is plain**, and defines the registers that they write. -/
theorem generated_coverStmts {ops : List Stmt} (hops : ∀ op ∈ ops, op.Known u.registers)
    (h : catalogue.coverStmts ops u = .ok code u') :
    Generated (fun r => ∃ op ∈ ops, op.Writes r) u u' code := by
  have key : ∀ {codes u u'}, (∀ op ∈ ops, op.Known u.registers) →
      ops.mapM catalogue.coverStmt u = .ok codes u' →
        Generated (fun r => ∃ op ∈ ops, op.Writes r) u u' codes.flatten := by
    clear h hops
    induction ops with
    | nil => rintro codes u u' - h; cases h; exact .nil _ _
    | cons op ops ih =>
      intro codes u u' hops h
      rw [List.mapM_cons] at h
      obtain ⟨first, u₁, hfirst, h⟩ := EStateM.bind_eq_ok.1 h
      obtain ⟨rest, u₂, hrest, h⟩ := EStateM.bind_eq_ok.1 h
      cases h
      have hgen := generated_coverStmt (hops op List.mem_cons_self) hfirst
      have hrest := ih (fun op hop => (hops op (List.mem_cons_of_mem _ hop)).mono hgen.grows) hrest
      exact (hgen.mono fun r hr => ⟨op, List.mem_cons_self, hr⟩).append
        (hrest.mono fun r ⟨op, hop, hr⟩ => ⟨op, List.mem_cons_of_mem _ hop, hr⟩)
  obtain ⟨codes, u₁, hcodes, h⟩ := EStateM.bind_eq_ok.1 h
  cases h
  exact key hops hcodes

/-- **What the code of a branch looks like**: it computes the leaves of its tile, compares a
    register that holds one with another or with zero, and jumps. -/
theorem coverBranch_eq_ok {cond : Value} {onTrue onFalse : Label}
    (h : catalogue.coverBranch cond onTrue onFalse u = .ok code u') :
    ∃ (t : Tile) (pre : List Instr) (inputs : List Register) (b : Register) (src : Operand) (cc : String),
      t.CoversBranch catalogue.branches catalogue.trees cond ∧
      Tile.emitLeaves t.rule.name t.leaves u = .ok (pre, inputs) u' ∧
      code = pre ++ [.binary "cmp" (.reg b) src, .jcc cc onTrue, .jmp onFalse] ∧
      b ∈ inputs ∧ (src = .imm 0 ∨ ∃ c ∈ inputs, src = .reg c) := by
  unfold Catalogue.coverBranch at h
  cases ht : catalogue.branchTile? cond with
  | none => rw [ht] at h; cases h
  | some t =>
    rw [ht] at h
    obtain ⟨⟨pre, inputs⟩, u₁, hpre, h⟩ := EStateM.bind_eq_ok.1 h
    obtain ⟨⟨own, result⟩, u₂, hown, h⟩ := EStateM.bind_eq_ok.1 h
    cases h
    have hcovers := Catalogue.covers_of_branchTile? ht
    have hlen := hcovers.2.2.length_inputs hpre
    have hmatch := branchMatches_of_apply hcovers.1 hcovers.2.1
    suffices hcode : ∃ b src cc, own = [.binary "cmp" (.reg b) src, .jcc cc onTrue, .jmp onFalse] ∧ u₁ = u' ∧
        b ∈ inputs ∧ (src = .imm 0 ∨ ∃ c ∈ inputs, src = .reg c) by
      obtain ⟨b, src, cc, rfl, rfl, hb, hsrc⟩ := hcode
      exact ⟨t, pre, inputs, b, src, cc, hcovers, hpre, rfl, hb, hsrc⟩
    clear hpre
    generalize t.found = found at *
    generalize t.rule = rule at *
    cases hmatch with
    | @compare op l r hop =>
      obtain ⟨b, c, rfl⟩ := List.length_eq_two.1 hlen
      obtain ⟨cc, test, hcc, -⟩ := condition_spec hop
      cases hown.symm.trans (generate_stmtRule (Except.bind_eq_ok.2 ⟨op, rfl,
        Except.bind_eq_ok.2 ⟨cc, hcc, rfl⟩⟩))
      exact ⟨b, .reg c, cc, rfl, rfl, by simp, Or.inr ⟨c, by simp, rfl⟩⟩
    | any v =>
      obtain ⟨b, rfl⟩ := List.length_eq_one_iff.1 hlen
      cases hown.symm.trans (generate_stmtRule rfl)
      exact ⟨b, .imm 0, "ne", rfl, rfl, by simp, Or.inl rfl⟩

/-- **The code of a branch is plain, but for two jumps at its end.** -/
theorem generated_coverBranch {cond : Value} {onTrue onFalse : Label}
    (hcond : ∀ r ∈ cond.reads, r.Known u.registers)
    (h : catalogue.coverBranch cond onTrue onFalse u = .ok code u') :
    ∃ pre cc, code = pre ++ [.jcc cc onTrue, .jmp onFalse] ∧ Generated (fun _ => False) u u' pre := by
  obtain ⟨t, pre, inputs, b, src, cc, ⟨-, hfound, hleaves⟩, hpre, rfl, hb, hsrc⟩ := coverBranch_eq_ok h
  obtain ⟨hgen, hin⟩ := generated_emitLeaves t.leaves hleaves (fun x hx r hr => by
    obtain ⟨y, hy, hxy⟩ := (Pattern.leaves_subtree hfound x hx).resolve_left (by simp)
    rw [List.mem_singleton.1 hy] at hxy
    exact hcond r (hxy.reads hr)) hpre
  have hb := hin b hb
  have hregisters : ∀ r ∈ src.registers, r.Known u'.registers := by
    rcases hsrc with rfl | ⟨c, hc, rfl⟩
    · exact List.forall_mem_nil _
    · exact List.forall_mem_singleton.2 (hin c hc)
  refine ⟨pre ++ [.binary "cmp" (.reg b) src], cc, by simp, hgen.append ⟨Nat.le_refl _, rfl, ?_, ?_⟩⟩
  · simpa [plain_binary, Operand.registers, hb] using hregisters
  · simp [Instr.defines]

end Amd64

end Codegen
