/-
  Accesses of stack slots.

  An access loads a register from a slot, stores a register there, or sets the slot
  to a constant.  Its code is a single instruction if the constants in it have 32
  bits; otherwise it needs a register that was not there before (`cover_access`).
-/
import Codegen.Frame
import Codegen.Proofs.Selection.Costs
import Codegen.Proofs.Selection.Operations

namespace Codegen

namespace Slot

/-- The memory operand of a slot. -/
def operand (s : Slot) : Mem := ⟨Label.none, some s.framePointer, s.offset⟩

/-- The constant that the address of a slot mentions. -/
def reach (s : Slot) : Word := if s.offset < 0 then -s.offset else s.offset

theorem address_eq (s : Slot) :
    ∃ op, (op = .add ∨ op = .sub) ∧ s.address = .binary op (.read s.framePointer) (.const s.reach) ∧
      (if op = .sub then -s.reach else s.reach) = s.offset := by
  unfold address reach
  split
  · exact ⟨.sub, Or.inr rfl, rfl, by simp [Int64.neg_neg]⟩
  · exact ⟨.add, Or.inl rfl, rfl, by simp⟩

end Slot

/-- An access of a slot. -/
inductive Access where
  | load (d : Register)
  | store (r : Register)
  | set (w : Word)

namespace Access

variable {s : Slot} {a : Access}

/-- The access as an operation. -/
def op (s : Slot) : Access → Stmt
  | load d => .write d s.read
  | store r => s.write (.read r)
  | set w => s.write (.const w)

/-- The access as an instruction. -/
def instr (s : Slot) : Access → Instr
  | load d => .mov (.reg d) (.mem s.operand)
  | store r => .mov (.mem s.operand) (.reg r)
  | set w => .mov (.mem s.operand) (.imm w)

/-- The constants of the access have 32 bits. -/
def Narrow (s : Slot) : Access → Prop
  | load _ | store _ => s.reach.fits32 = true
  | set w => s.reach.fits32 = true ∧ w.fits32 = true

instance (s : Slot) (a : Access) : Decidable (a.Narrow s) := by
  cases a <;> unfold Narrow <;> infer_instance

/-- The registers that the access reads were drawn before. -/
def Known (known : Nat) : Access → Prop
  | store r => r.Known known
  | load _ | set _ => True

theorem Narrow.reach (h : a.Narrow s) : s.reach.fits32 = true := by
  cases a with
  | set w => exact h.1
  | _ => exact h

/-- What an access mentions besides the frame pointer. -/
def registers : Access → List Register
  | load r | store r => [r]
  | set _ => []

theorem mem_mentions_instr {r : Register} (h : r ∈ (a.instr s).mentions) :
    r = s.framePointer ∨ r ∈ a.registers := by
  cases a <;> simp [instr, Slot.operand, Instr.mentions, Instr.uses, Instr.defines, Operand.registers,
    Operand.addressUses, Operand.defined, Operand.register?, Mem.registers, registers] at h ⊢ <;> tauto

theorem isValue_op (s : Slot) (a : Access) : (a.op s).isValue = false := by cases a <;> rfl

theorem size_op (s : Slot) (a : Access) : (a.op s).size ≤ 5 := by
  obtain ⟨op, -, e, -⟩ := s.address_eq
  cases a <;> simp [Access.op, Slot.read, Slot.write, e, Stmt.size, Value.size]

theorem evaluable_op {known : Nat} (s : Slot) (ha : a.Known known) :
    Evaluable known [] (a.op s).values := by
  obtain ⟨op, hop, e, -⟩ := s.address_eq
  have hdeclared : op ∈ BinaryOp.declared := by rcases hop with rfl | rfl <;> decide
  cases a with
  | load d =>
    exact ⟨by simp [Access.op, Slot.read, Stmt.values, e, Value.Declared, hdeclared],
      by simp [Access.op, Slot.read, Stmt.values, e, Value.reads], by simp,
      by simp [Access.op, Slot.read, Stmt.values, e, Value.hasCall]⟩
  | store r =>
    refine ⟨by simp [Access.op, Slot.write, Stmt.values, e, Value.Declared, hdeclared], ?_, by simp,
      by simp [Access.op, Slot.write, Stmt.values, e, Value.hasCall]⟩
    intro v hv id hid
    refine ha id ?_
    rcases List.mem_cons.1 hv with rfl | hv
    · simp [e, Value.reads] at hid
    · simpa [List.mem_singleton.1 hv, Value.reads, eq_comm] using hid
  | set w =>
    exact ⟨by simp [Access.op, Slot.write, Stmt.values, e, Value.Declared, hdeclared],
      by simp [Access.op, Slot.write, Stmt.values, e, Value.reads], by simp,
      by simp [Access.op, Slot.write, Stmt.values, e, Value.hasCall]⟩

/-! ## Code -/

open Amd64

/-- A rule matches a narrow access as a whole. -/
theorem exists_rule (h : a.Narrow s) :
    ∃ rule ∈ catalogue.trees, ∃ found, rule.pattern.apply (a.op s) = some found ∧ found.leaves = [] := by
  obtain ⟨op, hop, e, -⟩ := s.address_eq
  have htest : Test.anyOf [.add, .sub] {} op = true := by rcases hop with rfl | rfl <;> rfl
  have haddress : ∀ m : Match, ∃ m', registerOffset.matchFrom (.value s.address) m = some m' ∧
      m'.leaves = m.leaves := fun m =>
    ⟨_, Pattern.matchFrom_binary.2 ⟨op, _, _, by rw [e], htest, _,
      Pattern.matchFrom_read.2 ⟨_, rfl, rfl, rfl⟩,
      Pattern.matchFrom_const.2 ⟨_, rfl, h.reach, rfl⟩⟩, rfl⟩
  cases a with
  | load d =>
    obtain ⟨m', hm', hleaves⟩ := haddress { captures := [(.own 0, .register d)], written := some d }
    exact ⟨writeLoadOffset, by simp [catalogue], m',
      Pattern.matchFrom_write.2 ⟨d, _, rfl, rfl, Pattern.matchFrom_load.2 ⟨_, rfl, hm'⟩⟩, hleaves⟩
  | store r =>
    obtain ⟨m', hm', hleaves⟩ := haddress {}
    exact ⟨storeOffsetReg, by simp [catalogue], _,
      Pattern.matchFrom_store.2 ⟨_, _, rfl, m', hm', Pattern.matchFrom_read.2 ⟨r, rfl, rfl, rfl⟩⟩, hleaves⟩
  | set w =>
    obtain ⟨m', hm', hleaves⟩ := haddress {}
    exact ⟨storeOffsetConst, by simp [catalogue], _,
      Pattern.matchFrom_store.2 ⟨_, _, rfl, m', hm', Pattern.matchFrom_const.2 ⟨w, rfl, h.2, rfl⟩⟩, hleaves⟩

/-- The code of a rule that matches an access: the instruction itself, or one that
    mentions the register of what is left open. -/
theorem generate_access {rule : Rule} {found : Match} {u : Supply} {inputs : List Register}
    (hmatch : Matches rule (a.op s) found) (hlen : inputs.length = found.leaves.length) :
    ∃ i, rule.generate { inputs, found } u = .ok ([i], none) u ∧
      ((found.leaves = [] ∧ a.Narrow s ∧ i = a.instr s) ∨
        ∃ v vs r rs, found.leaves = v :: vs ∧ inputs = r :: rs ∧ (∀ r, v ≠ .read r) ∧
          r ∈ i.mentions) := by
  obtain ⟨op, -, e, hoffset⟩ := s.address_eq
  have hinstr : (⟨Label.none, some (s.framePointer : Register), if op = .sub then -s.reach else s.reach⟩ : Mem) =
      s.operand := by rw [hoffset]; rfl
  cases a with
  | load d =>
    simp only [Access.op, Slot.read, e] at hmatch
    cases hmatch with
    | write hmatch => cases hmatch with
    | loadOffset _ _ hd => exact ⟨_, rfl, Or.inl ⟨rfl, hd, by rw [instr, ← hinstr]⟩⟩
    | load | any =>
      obtain ⟨b, rfl⟩ := List.length_eq_one_iff.1 hlen
      exact ⟨_, rfl, Or.inr ⟨_, _, b, _, rfl, rfl, fun _ h => (by cases h), by
        simp [Instr.mentions, Instr.move, Instr.uses, Operand.registers, Mem.registers, Mem.ofRegister]⟩⟩
  | store r =>
    simp only [Access.op, Slot.write, e] at hmatch
    cases hmatch with
    | store hmatch => cases hmatch with
    | offsetReg _ _ _ hd => exact ⟨_, rfl, Or.inl ⟨rfl, hd, by rw [instr, ← hinstr]⟩⟩
    | any =>
      obtain ⟨b, c, rfl⟩ := List.length_eq_two.1 hlen
      exact ⟨_, rfl, Or.inr ⟨_, _, b, _, rfl, rfl, fun _ h => (by cases h), by
        simp [Instr.mentions, Instr.uses, Operand.addressUses, Mem.registers, Mem.ofRegister]⟩⟩
  | set w =>
    simp only [Access.op, Slot.write, e] at hmatch
    cases hmatch with
    | store hmatch => cases hmatch with
    | offsetConst _ _ hd hw => exact ⟨_, rfl, Or.inl ⟨rfl, ⟨hd, hw⟩, by rw [instr, ← hinstr]⟩⟩
    | const =>
      obtain ⟨b, rfl⟩ := List.length_eq_one_iff.1 hlen
      exact ⟨_, rfl, Or.inr ⟨_, _, b, _, rfl, rfl, fun _ h => (by cases h), by
        simp [Instr.mentions, Instr.uses, Operand.addressUses, Mem.registers, Mem.ofRegister]⟩⟩
    | any =>
      obtain ⟨b, c, rfl⟩ := List.length_eq_two.1 hlen
      exact ⟨_, rfl, Or.inr ⟨_, _, b, _, rfl, rfl, fun _ h => (by cases h), by
        simp [Instr.mentions, Instr.uses, Operand.addressUses, Mem.registers, Mem.ofRegister]⟩⟩

/-- **A narrow access is one instruction; any other one draws registers.** -/
theorem cover_access (s : Slot) {a : Access} {u : Supply} (ha : a.Known u.registers) :
    ∃ code u', catalogue.coverStmts [a.op s] u = .ok code u' ∧ u.registers ≤ u'.registers ∧
      (a.Narrow s ∧ code = [a.instr s] ∧ u' = u ∨
        ¬ a.Narrow s ∧ ∃ i ∈ code, ∃ r ∈ i.mentions, ¬ r.Known u.registers) := by
  have hvalues := evaluable_op s ha
  obtain ⟨t, ht⟩ := exists_tile (a.op s) hvalues.declared
  obtain ⟨hrule, hfound, hcover⟩ := Tile.covers_iff.1 (Catalogue.covers_of_tile? ht)
  have hleaves : Evaluable u.registers [] t.found.leaves := hvalues.subtrees fun x hx =>
    (Pattern.leaves_subtree hfound x hx).resolve_left (by simp)
  obtain ⟨code, inputs, u', hemit, hall⟩ :=
    exists_emitLeaves t.rule.name t.leaves hcover hleaves (Nat.le_refl _)
  obtain ⟨i, hgen, hi⟩ := generate_access (u := u') (matches_of_apply hrule hfound) hall.length
  have hcode : catalogue.coverStmts [a.op s] u = .ok (code ++ [i]) u' := by
    have hone := Catalogue.coverStmt_eq_ok ht (Tile.emit_eq_ok hemit hgen)
    refine EStateM.bind_eq_ok.2 ⟨[code ++ [i]], u', ?_, by simp; rfl⟩
    rw [List.mapM_cons]
    exact EStateM.bind_eq_ok.2 ⟨_, _, hone, rfl⟩
  refine ⟨code ++ [i], u', hcode, hall.grows, ?_⟩
  rcases hi with ⟨hnil, hnarrow, rfl⟩ | ⟨v, vs, r, rs, hv, hr, hread, hmem⟩
  · rw [hnil] at hcover
    obtain ⟨rfl, rfl⟩ : code = [] ∧ u' = u := by
      cases hts : t.leaves with
      | nil => rw [hts] at hemit; cases hemit; exact ⟨rfl, rfl⟩
      | cons t' ts => rw [hts] at hcover; exact hcover.elim
    exact Or.inl ⟨hnarrow, rfl, rfl⟩
  · refine Or.inr ⟨fun hnarrow => ?_, i, by simp, r, hmem, ?_⟩
    · -- a narrow access would have been covered by one tile
      obtain ⟨rule, hrule', found, hfound', hnil⟩ := exists_rule hnarrow
      have := Catalogue.leaves_eq_nil patterns_ne_wild (Nat.lt_of_le_of_lt (size_op s a) (by decide))
        (isValue_op s a) hrule' hfound' hnil ht
      rw [this, hv] at hcover
      exact hcover.elim
    · have := hall.results
      rw [hv, hr] at this
      cases this with
      | cons h _ => exact (h.resolve_left (hread r)).not_known

end Access

end Codegen
