/-
  What the machine can encode.

  An instruction has at most one memory operand.  Displacements have 32 bits, and so
  have immediates, unless they are moved into a register (`Instr.Encodable`).

  The code of an operation is of this form, with one exception: the constant of an
  address `r - d` has 32 bits, and `-d` has not, if `d` is the least such constant
  (`encodable_coverStmts`, `encodable_coverBranch`).
-/
import Codegen.Proofs.Selection.Plain
import Codegen.Proofs.Spill.Complete

namespace Codegen

/-- The operands of an instruction. -/
def Instr.operands : Instr → List Operand
  | .mov dst src => [dst, src]
  | .binary _ dst src => [dst, src]
  | .clear r | .unary _ r | .setcc _ r => [.reg r]
  | .lea dst src => [.reg dst, .mem src]
  | .jmp _ | .jcc .. | .call .. | .ret _ => []

/-- The word is one of 32 bits with a sign. -/
def Word.Narrow (w : Word) : Prop := -2 ^ 31 ≤ w.toInt ∧ w.toInt ≤ 2 ^ 31 - 1

theorem Word.narrow_iff {w : Word} : w.Narrow ↔ w.fits32 = true := by
  rw [Word.fits32_iff]
  exact Iff.rfl

/-- The displacement has 32 bits; or it is the first that has not, where that is
    conceded. -/
def Mem.Reachable (wide : Prop) (m : Mem) : Prop :=
  m.displacement.Narrow ∨ wide ∧ m.displacement.toInt = 2 ^ 31

/-- The instruction can be encoded, but for a displacement where that is conceded. -/
structure Instr.Encodable (wide : Prop) (i : Instr) : Prop where
  memory : i.operands.countP Operand.isMemory ≤ 1
  displacement : ∀ m, .mem m ∈ i.operands → m.Reachable wide
  immediate : ∀ w, .imm w ∈ i.operands → w.Narrow ∨ ∃ d, i = .mov (.reg d) (.imm w)

theorem Mem.Reachable.mono {wide wide' : Prop} {m : Mem} (h : m.Reachable wide) (himp : wide → wide') :
    m.Reachable wide' := h.imp_right fun h => ⟨himp h.1, h.2⟩

namespace Instr

variable {wide wide' : Prop} {d r : Register} {m : Mem} {w : Word} {op : String}

theorem Encodable.mono {i : Instr} (h : i.Encodable wide) (himp : wide → wide') : i.Encodable wide' :=
  ⟨h.memory, fun m hm => (h.displacement m hm).mono himp, h.immediate⟩

attribute [local simp] operands Operand.isMemory

theorem encodable_mov_imm (d : Register) (w : Word) : (mov (.reg d) (.imm w)).Encodable wide :=
  ⟨by simp, by simp, by simp⟩

theorem encodable_move (d r : Register) : (move d r).Encodable wide :=
  ⟨by simp [move], by simp [move], by simp [move]⟩

theorem encodable_load (d : Register) (h : m.Reachable wide) : (mov (.reg d) (.mem m)).Encodable wide :=
  ⟨by simp, by simpa using h, by simp⟩

theorem encodable_store (r : Register) (h : m.Reachable wide) : (mov (.mem m) (.reg r)).Encodable wide :=
  ⟨by simp [List.countP_cons], by simpa using h, by simp⟩

theorem encodable_set (h : m.Reachable wide) (hw : w.Narrow) : (mov (.mem m) (.imm w)).Encodable wide :=
  ⟨by simp [List.countP_cons], by simpa using h, by simpa using hw⟩

theorem encodable_binary (op : String) (d r : Register) : (binary op (.reg d) (.reg r)).Encodable wide :=
  ⟨by simp, by simp, by simp⟩

theorem encodable_binary_imm (op : String) (d : Register) (hw : w.Narrow) :
    (binary op (.reg d) (.imm w)).Encodable wide :=
  ⟨by simp, by simp, by simpa using hw⟩

theorem encodable_lea (d : Register) (h : m.Reachable wide) : (lea d m).Encodable wide :=
  ⟨by simp, by simpa using h, by simp⟩

/-- An instruction without memory operands and immediates can be encoded. -/
theorem encodable_of_registers {i : Instr} (h : ∀ o ∈ i.operands, ∃ r, o = .reg r) : i.Encodable wide where
  memory := by
    rw [List.countP_eq_zero.2 fun o ho => ?_]
    · exact Nat.zero_le 1
    · obtain ⟨r, rfl⟩ := h o ho
      exact Bool.false_ne_true
  displacement m hm := by obtain ⟨r, e⟩ := h _ hm; cases e
  immediate w hw := by obtain ⟨r, e⟩ := h _ hw; cases e

/-- Registers do not matter. -/
theorem Encodable.mapRegisters {i : Instr} (h : i.Encodable wide) (f : Register → Register) :
    (i.mapRegisters f).Encodable wide := by
  have hops : (i.mapRegisters f).operands = i.operands.map (Operand.mapRegisters f) := by cases i <;> rfl
  refine ⟨?_, fun m hm => ?_, fun w hw => ?_⟩
  · have hkind : Operand.isMemory ∘ Operand.mapRegisters f = Operand.isMemory := by
      funext o
      cases o <;> rfl
    rw [hops, List.countP_map, hkind]
    exact h.memory
  · rw [hops] at hm
    obtain ⟨o, ho, e⟩ := List.mem_map.1 hm
    cases o with
    | mem m' => cases e; exact h.displacement m' ho
    | _ => cases e
  · rw [hops] at hw
    obtain ⟨o, ho, e⟩ := List.mem_map.1 hw
    cases o with
    | imm w' =>
      cases e
      refine (h.immediate w ho).imp_right ?_
      rintro ⟨d, rfl⟩
      exact ⟨f d, rfl⟩
    | _ => cases e

end Instr

theorem Mem.reachable_zero {wide : Prop} (l : Label) (b : Option Register) : Mem.Reachable wide ⟨l, b, 0⟩ :=
  Or.inl (Word.narrow_iff.2 rfl)

theorem Mem.reachable_label {wide : Prop} (l : Label) {d : Word} (hd : d.fits32 = true) :
    Mem.Reachable wide ⟨l, none, d⟩ :=
  Or.inl (Word.narrow_iff.2 hd)

/-! ## Addresses below the least displacement -/

namespace Value

/-- A register minus the least constant of 32 bits. -/
def IsLeastOffset (a : Value) : Prop := ∃ b d, a = .binary .sub (.read b) (.const d) ∧ d.toInt = -2 ^ 31

/-- The tree loads from such an address. -/
def Overreaches : Value → Prop
  | .const _ | .read _ | .address _ | .call .. => False
  | .load a => a.IsLeastOffset ∨ a.Overreaches
  | .binary _ l r => l.Overreaches ∨ r.Overreaches
  | .unary _ v => v.Overreaches

theorem Subtree.overreaches {v u : Value} (h : Subtree v u) (hv : v.Overreaches) : u.Overreaches := by
  induction h with
  | refl => exact hv
  | load _ ih => exact Or.inr ih
  | left _ ih => exact Or.inl ih
  | right _ ih => exact Or.inr ih
  | unary _ ih => exact ih

end Value

/-- The operation loads from such an address, or stores there. -/
def Stmt.Overreaches (op : Stmt) : Prop :=
  (∃ v ∈ op.values, v.Overreaches) ∨ ∃ a v, op = .store a v ∧ a.IsLeastOffset

/-- The displacement of an address `b ± d`. -/
theorem reachable_offset {wide : Prop} {op : BinaryOp} (b : Register) {d : Word} (hop : op = .add ∨ op = .sub)
    (hd : d.fits32 = true) (hwide : (Value.binary op (.read b) (.const d)).IsLeastOffset → wide) :
    Mem.Reachable wide ⟨Label.none, some b, if op = .sub then -d else d⟩ := by
  have hnarrow := Word.narrow_iff.2 hd
  rcases hop with rfl | rfl
  · exact Or.inl hnarrow
  · by_cases hleast : d.toInt = -2 ^ 31
    · refine Or.inr ⟨hwide ⟨b, d, rfl, hleast⟩, ?_⟩
      rw [if_pos rfl, Int64.toInt_neg, hleast]
      decide
    · refine Or.inl ?_
      unfold Word.Narrow at hnarrow ⊢
      rw [if_pos rfl, Int64.toInt_neg, Int.bmod_def]
      split <;> omega

theorem Catalogue.tile_eq_ok {c : Catalogue} {s : Stmt} {t : Tile} (h : c.tile s = .ok t) :
    c.tile? s = some t := by
  unfold tile at h
  split at h
  · next e => cases h; exact e
  · cases h

namespace Amd64

open Instr

variable {u u' : Supply} {own code : List Instr} {result : Option Register} {inputs : List Register}

/-! ## Rules -/

section
variable {wide : Prop} {name : String} {p : Pattern} {e : Emission}

theorem encodable_valueRule {f : Emission → Register → Except Fault (List Instr)} (is : List Instr)
    (h : f e u.drawn = .ok is) (his : ∀ i ∈ is, i.Encodable wide)
    (hgen : (valueRule name p f).generate e u = .ok (own, result) u') : ∀ i ∈ own, i.Encodable wide := by
  cases hgen.symm.trans (generate_valueRule h)
  exact his

theorem encodable_stmtRule {f : Emission → Except Fault (List Instr)} (is : List Instr) (h : f e = .ok is)
    (his : ∀ i ∈ is, i.Encodable wide)
    (hgen : (stmtRule name p f).generate e u = .ok (own, result) u') : ∀ i ∈ own, i.Encodable wide := by
  cases hgen.symm.trans (generate_stmtRule h)
  exact his

theorem forall_mem_one {P : Instr → Prop} {i : Instr} (h : P i) : ∀ j ∈ [i], P j :=
  List.forall_mem_singleton.2 h

end

section
variable {rule : Rule} {found : Match} {a v : Value}

theorem ValueMatches.encodable (h : ValueMatches rule v found) (hlen : inputs.length = found.leaves.length)
    (hgen : rule.generate { inputs, found } u = .ok (own, result) u') :
    ∀ i ∈ own, i.Encodable v.Overreaches := by
  cases h with
  | const w => exact encodable_valueRule _ rfl (forall_mem_one (encodable_mov_imm _ _)) hgen
  | read r => cases hgen; exact List.forall_mem_nil _
  | loadLabel l hd => exact encodable_valueRule _ rfl (forall_mem_one (encodable_load _ (Mem.reachable_label l hd))) hgen
  | loadOffset b hop hd =>
    refine encodable_valueRule _ rfl (forall_mem_one (encodable_load _ ?_)) hgen
    exact reachable_offset b hop hd Or.inl
  | loadAny a =>
    obtain ⟨b, rfl⟩ := List.length_eq_one_iff.1 hlen
    exact encodable_valueRule _ rfl (forall_mem_one (encodable_load _ (Mem.reachable_zero _ _))) hgen
  | address l => exact encodable_valueRule _ rfl (forall_mem_one (encodable_lea _ (Mem.reachable_zero _ _))) hgen
  | call f n =>
    obtain ⟨rfl, -⟩ := eq_of_generate_call rfl hgen
    exact List.forall_mem_cons.2 ⟨encodable_of_registers (List.forall_mem_nil _),
      forall_mem_one (encodable_move _ _)⟩
  | unary op x =>
    obtain ⟨b, rfl⟩ := List.length_eq_one_iff.1 hlen
    cases hgen
    exact List.forall_mem_cons.2 ⟨encodable_move _ _,
      forall_mem_one (encodable_of_registers (by simp [operands]))⟩
  | @arithConst op l d hop hd =>
    obtain ⟨b, rfl⟩ := List.length_eq_one_iff.1 hlen
    obtain ⟨name, f, hname, -⟩ := arithmetic_spec (mem_arithmetic hop)
    refine encodable_valueRule [.move u.drawn b, .binary name (.reg u.drawn) (.imm d)] ?_ ?_ hgen
    · exact Except.bind_eq_ok.2 ⟨op, rfl, Except.bind_eq_ok.2 ⟨name, hname, rfl⟩⟩
    · exact List.forall_mem_cons.2 ⟨encodable_move _ _,
        forall_mem_one (encodable_binary_imm _ _ (Word.narrow_iff.2 hd))⟩
  | @arithAny op l r hop =>
    obtain ⟨b, c, rfl⟩ := List.length_eq_two.1 hlen
    obtain ⟨name, f, hname, -⟩ := arithmetic_spec hop
    refine encodable_valueRule [.move u.drawn b, .binary name (.reg u.drawn) (.reg c)] ?_ ?_ hgen
    · exact Except.bind_eq_ok.2 ⟨op, rfl, Except.bind_eq_ok.2 ⟨name, hname, rfl⟩⟩
    · exact List.forall_mem_cons.2 ⟨encodable_move _ _, forall_mem_one (encodable_binary _ _ _)⟩
  | @compare op l r hop =>
    obtain ⟨b, c, rfl⟩ := List.length_eq_two.1 hlen
    obtain ⟨cc, test, hcc, -⟩ := condition_spec hop
    refine encodable_valueRule [.clear u.drawn, .binary "cmp" (.reg b) (.reg c), .setcc cc u.drawn] ?_ ?_ hgen
    · exact Except.bind_eq_ok.2 ⟨op, rfl, Except.bind_eq_ok.2 ⟨cc, hcc, rfl⟩⟩
    · exact List.forall_mem_cons.2 ⟨encodable_of_registers (by simp [operands]),
        List.forall_mem_cons.2 ⟨encodable_binary _ _ _,
          forall_mem_one (encodable_of_registers (by simp [operands]))⟩⟩

theorem WriteMatches.encodable {r : Register} (h : WriteMatches r rule v found)
    (hlen : inputs.length = found.leaves.length)
    (hgen : rule.generate { inputs, found } u = .ok (own, result) u') :
    ∀ i ∈ own, i.Encodable v.Overreaches := by
  cases h with
  | const w => exact encodable_stmtRule _ rfl (forall_mem_one (encodable_mov_imm _ _)) hgen
  | @update op d hop hd =>
    obtain ⟨name, f, hname, -⟩ := arithmetic_spec (mem_arithmetic hop)
    refine encodable_stmtRule [.binary name (.reg r) (.imm d)] ?_ ?_ hgen
    · exact Except.bind_eq_ok.2 ⟨op, rfl, Except.bind_eq_ok.2 ⟨name, hname, rfl⟩⟩
    · exact forall_mem_one (encodable_binary_imm _ _ (Word.narrow_iff.2 hd))
  | loadLabel l hd =>
    exact encodable_stmtRule _ rfl (forall_mem_one (encodable_load _ (Mem.reachable_label l hd))) hgen
  | loadOffset b hop hd =>
    exact encodable_stmtRule _ rfl
      (forall_mem_one (encodable_load _ (reachable_offset b hop hd Or.inl))) hgen
  | load a =>
    obtain ⟨b, rfl⟩ := List.length_eq_one_iff.1 hlen
    exact encodable_stmtRule _ rfl (forall_mem_one (encodable_load _ (Mem.reachable_zero _ _))) hgen
  | any v =>
    obtain ⟨b, rfl⟩ := List.length_eq_one_iff.1 hlen
    exact encodable_stmtRule _ rfl (forall_mem_one (encodable_move _ _)) hgen

theorem StoreMatches.encodable (h : StoreMatches rule a v found) (hlen : inputs.length = found.leaves.length)
    (hgen : rule.generate { inputs, found } u = .ok (own, result) u') :
    ∀ i ∈ own, i.Encodable a.IsLeastOffset := by
  cases h with
  | label l v hd =>
    obtain ⟨b, rfl⟩ := List.length_eq_one_iff.1 hlen
    exact encodable_stmtRule _ rfl (forall_mem_one (encodable_store _ (Mem.reachable_label l hd))) hgen
  | offsetConst b hop hd hw =>
    exact encodable_stmtRule _ rfl
      (forall_mem_one (encodable_set (reachable_offset b hop hd id) (Word.narrow_iff.2 hw))) hgen
  | offsetReg b r hop hd =>
    exact encodable_stmtRule _ rfl
      (forall_mem_one (encodable_store _ (reachable_offset b hop hd id))) hgen
  | const a hw =>
    obtain ⟨b, rfl⟩ := List.length_eq_one_iff.1 hlen
    exact encodable_stmtRule _ rfl (forall_mem_one (encodable_set (Mem.reachable_zero _ _) (Word.narrow_iff.2 hw))) hgen
  | any a v =>
    obtain ⟨b, c, rfl⟩ := List.length_eq_two.1 hlen
    exact encodable_stmtRule _ rfl (forall_mem_one (encodable_store _ (Mem.reachable_zero _ _))) hgen

/-- **The code of a rule can be encoded.** -/
theorem encodable_of_matches {op : Stmt} (h : Matches rule op found)
    (hlen : inputs.length = found.leaves.length)
    (hgen : rule.generate { inputs, found } u = .ok (own, result) u') :
    ∀ i ∈ own, i.Encodable op.Overreaches := by
  intro i hi
  cases h with
  | @value _ v _ h => exact (h.encodable hlen hgen i hi).mono fun hv => Or.inl ⟨v, List.mem_cons_self, hv⟩
  | @write _ r v _ h => exact (h.encodable hlen hgen i hi).mono fun hv => Or.inl ⟨v, List.mem_cons_self, hv⟩
  | @store _ a v _ h => exact (h.encodable hlen hgen i hi).mono fun ha => Or.inr ⟨a, v, rfl, ha⟩
  | ret b =>
    exact encodable_stmtRule _ rfl (forall_mem_one (encodable_of_registers (List.forall_mem_nil _))) hgen i hi

end

/-! ## Tiles -/

theorem overreaches_of_leaf {p : Pattern} {op : Stmt} {found : Match} (hfound : p.apply op = some found)
    (h : ∃ v ∈ found.leaves, v.Overreaches) : op.Overreaches := by
  obtain ⟨v, hv, hover⟩ := h
  obtain ⟨y, hy, hsub⟩ := (Pattern.leaves_subtree hfound v hv).resolve_left (by simp)
  exact Or.inl ⟨y, hy, hsub.overreaches hover⟩

mutual

theorem encodable_emit : (t : Tile) → {op : Stmt} → {u u' : Supply} → {code : List Instr} →
    {result : Option Register} → t.Covers catalogue.trees op → t.emit u = .ok (code, result) u' →
    ∀ i ∈ code, i.Encodable op.Overreaches
  | ⟨rule, found, leaves, _⟩, op, u, u', code, result, ⟨hrule, hfound, hleaves⟩, hemit => by
    obtain ⟨⟨pre, inputs⟩, u₁, hpre, hemit⟩ := EStateM.bind_eq_ok.1 hemit
    obtain ⟨⟨own, result'⟩, u₂, hown, hemit⟩ := EStateM.bind_eq_ok.1 hemit
    cases hemit
    have hcode := encodable_emitLeaves leaves hleaves hpre
    refine List.forall_mem_append.2 ⟨fun i hi => (hcode i hi).mono (overreaches_of_leaf hfound), ?_⟩
    exact encodable_of_matches (matches_of_apply hrule hfound) (hleaves.length_inputs hpre) hown

theorem encodable_emitLeaves {parent : String} : (ts : List Tile) → {vs : List Value} → {u u' : Supply} →
    {code : List Instr} → {inputs : List Register} → Tile.CoverAll catalogue.trees ts vs →
    Tile.emitLeaves parent ts u = .ok (code, inputs) u' →
    ∀ i ∈ code, i.Encodable (∃ v ∈ vs, v.Overreaches)
  | [], vs, u, u', code, inputs, hcover, hemit => by
    cases hemit
    exact List.forall_mem_nil _
  | t :: ts, [], _, _, _, _, hcover, _ => hcover.elim
  | t :: ts, v :: vs, u, u', code, inputs, hcover, hemit => by
    obtain ⟨⟨first, result⟩, u₁, hfirst, hemit⟩ := EStateM.bind_eq_ok.1 hemit
    have hcode := encodable_emit t hcover.1 hfirst
    cases result with
    | none => cases hemit
    | some out =>
      obtain ⟨⟨rest, outs⟩, u₂, hrest, hemit⟩ := EStateM.bind_eq_ok.1 hemit
      cases hemit
      have hcodes := encodable_emitLeaves ts hcover.2 hrest
      refine List.forall_mem_append.2 ⟨fun i hi => (hcode i hi).mono ?_, fun i hi =>
        (hcodes i hi).mono fun ⟨x, hx, h⟩ => ⟨x, List.mem_cons_of_mem _ hx, h⟩⟩
      rintro (⟨x, hx, h⟩ | ⟨a, w, e, -⟩)
      · exact ⟨v, List.mem_cons_self, List.mem_singleton.1 hx ▸ h⟩
      · cases e

end

/-! ## Operations and branches -/

theorem encodable_coverStmt {op : Stmt} (h : catalogue.coverStmt op u = .ok code u') :
    ∀ i ∈ code, i.Encodable op.Overreaches := by
  obtain ⟨t, u₁, ht, h⟩ := EStateM.bind_eq_ok.1 h
  obtain ⟨⟨code', result⟩, u₂, hemit, h⟩ := EStateM.bind_eq_ok.1 h
  cases h
  exact encodable_emit t (Catalogue.covers_of_tile? (Catalogue.tile_eq_ok (Fresh.ofExcept_eq_ok.1 ht).1)) hemit

/-- **The code of operations can be encoded**, unless one of them overreaches. -/
theorem encodable_coverStmts {ops : List Stmt} (h : catalogue.coverStmts ops u = .ok code u') :
    ∀ i ∈ code, i.Encodable (∃ op ∈ ops, op.Overreaches) := by
  obtain ⟨codes, u₁, hcodes, h⟩ := EStateM.bind_eq_ok.1 h
  cases h
  intro i hi
  obtain ⟨code, hcode, hi⟩ := List.mem_flatten.1 hi
  obtain ⟨op, hop, u₂, u₃, hcover⟩ := forall₂_exists_left (EStateM.mapM_eq_ok hcodes) hcode
  exact (encodable_coverStmt hcover i hi).mono fun h => ⟨op, hop, h⟩

theorem encodable_coverSequence {ops : List Stmt} {l : Label} (h : catalogue.coverSequence ops l u = .ok code u') :
    ∀ i ∈ code, i.Encodable (∃ op ∈ ops, op.Overreaches) := by
  obtain ⟨c, u₁, hc, h⟩ := EStateM.bind_eq_ok.1 h
  cases h
  refine List.forall_mem_append.2 ⟨encodable_coverStmts hc, fun i hi => ?_⟩
  rw [eq_jmp_of_mem_jumpTo hi]
  exact encodable_of_registers (List.forall_mem_nil _)

/-- **The code of a branch can be encoded**, unless its condition overreaches. -/
theorem encodable_coverBranch {cond : Value} {onTrue onFalse : Label}
    (h : catalogue.coverBranch cond onTrue onFalse u = .ok code u') :
    ∀ i ∈ code, i.Encodable cond.Overreaches := by
  obtain ⟨t, pre, inputs, b, src, cc, ⟨-, hfound, hleaves⟩, hpre, rfl, -, hsrc⟩ := coverBranch_eq_ok h
  have hcode := encodable_emitLeaves t.leaves hleaves hpre
  refine List.forall_mem_append.2 ⟨fun i hi => (hcode i hi).mono fun h => ?_, List.forall_mem_cons.2 ⟨?_, ?_⟩⟩
  · obtain ⟨v, hv, hover⟩ | ⟨a, v, e, -⟩ := overreaches_of_leaf hfound h
    · exact List.mem_singleton.1 hv ▸ hover
    · cases e
  · rcases hsrc with rfl | ⟨c, -, rfl⟩
    · exact encodable_binary_imm _ _ ⟨by decide, by decide⟩
    · exact encodable_binary _ _ _
  · exact List.forall_mem_cons.2 ⟨encodable_of_registers (List.forall_mem_nil _),
      forall_mem_one (encodable_of_registers (List.forall_mem_nil _))⟩

end Amd64

end Codegen
