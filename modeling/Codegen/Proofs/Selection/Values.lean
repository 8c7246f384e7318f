/-
  The code of values.

  The code of a tree computes what the tree evaluates to (`Emits`), whichever
  tiles it was covered with: each rule does so once its leaves are in registers
  (`emits_of_matches`), and the leaves do so one after the other
  (`exists_emit`).
-/
import Codegen.Proofs.Selection.Reflects
import Codegen.Proofs.Selection.Rules
import Codegen.Proofs.Selection.Tiling
import Codegen.Selection

namespace Codegen

/-- A register that was drawn already, or a physical one that is not reserved. -/
def Register.Free (supply : Nat) (reserved : List Physical) (r : Register) : Prop :=
  r.Known supply ∧ ∀ p ∈ reserved, r ≠ .physical p

/-- An instruction that later passes can deal with. -/
structure Instr.Legal (supply : Nat) (reserved : List Physical) (i : Instr) : Prop where
  conventional : i.Conventional
  known : ∀ r ∈ i.mentions, r.Known supply
  /-- The reserved registers are not read. -/
  unreserved : ∀ p ∈ reserved, .physical p ∉ i.uses
  /-- The frame pointer stays. -/
  kept : .physical Amd64.convention.framePointer ∉ i.defines
  /-- Only a call may overwrite a reserved register. -/
  clobbered : ∀ p ∈ reserved, .physical p ∈ i.defines → ∃ l arguments clobbers, i = .call l arguments clobbers

theorem Instr.legal_of_free {supply : Nat} {reserved : List Physical} {i : Instr}
    (hi : i.Conventional) (huses : ∀ r ∈ i.uses, r.Free supply reserved)
    (hdefs : ∀ d ∈ i.defines, d.Free supply reserved ∧ d ≠ Amd64.convention.framePointer) :
    i.Legal supply reserved where
  conventional := hi
  known r hr := (List.mem_append.1 hr).elim (fun hr => (huses r hr).1) fun hr => (hdefs r hr).1.1
  unreserved p hp hr := (huses _ hr).2 p hp rfl
  kept hr := (hdefs _ hr).2 rfl
  clobbered p hp hr := absurd rfl ((hdefs _ hr).1.2 p hp)

theorem Instr.Legal.mono {supply supply' : Nat} {reserved : List Physical} {i : Instr}
    (h : i.Legal supply reserved) (hle : supply ≤ supply') : i.Legal supply' reserved :=
  { h with known := fun r hr => (h.known r hr).mono hle }

/-- The caller-saved registers. -/
def Amd64.callerSaved : List Register := Amd64.convention.callerSaved.map Register.physical

/-- The registers hold the words one by one. -/
def Machine.Holds (m : Machine) (rs : List Register) (xs : List Word) : Prop :=
  List.Forall₂ (fun r x => m.read r = .ok x) rs xs

theorem Machine.Holds.of_eq {m n : Machine} {rs : List Register} {xs : List Word} (h : m.Holds rs xs)
    (heq : ∀ r ∈ rs, n.read r = m.read r) : n.Holds rs xs := by
  induction h with
  | nil => exact .nil
  | cons hr _ ih =>
    exact .cons ((heq _ List.mem_cons_self).trans hr) (ih fun r hr => heq r (List.mem_cons_of_mem _ hr))

/-- The code computes the value of `v` into the register `out`, once the inputs
    hold the values of the leaves.  It writes registers drawn meanwhile, and those
    that calls overwrite. -/
structure Emits (known : Nat) (reserved : List Physical) (v : Value) (leaves : List Value)
    (inputs : List Register) (u u' : Supply) (code : List Instr) (out : Register) : Prop where
  grows : u.registers ≤ u'.registers
  labels : u'.labels = u.labels
  result : v = .read out ∨ out.Between u.registers u'.registers
  straight : ∀ i ∈ code, i.Straight
  legal : ∀ i ∈ code, i.Legal u'.registers reserved
  fresh : ∀ i ∈ code, ∀ d ∈ i.defines,
    d.Between u.registers u'.registers ∨ v.hasCall = true ∧ d ∈ Amd64.callerSaved
  computes : ∀ (w : World) {s s₁ s' : State} {xs : List Word} {x : Word} {m : Machine},
    w.evalAll leaves s = some (xs, s₁) → w.eval v s = some (x, s') → Reflects w known s₁ m →
    m.Holds inputs xs →
    ∃ n, Machine.Runs w.near code m n ∧ Reflects w known s' n ∧ n.read out = .ok x

/-! ## Single instructions -/

namespace Machine

variable {near : Word → Prop} {m : Machine} {d r : Register} {x y a : Word} {o : Mem} {src : Operand}

theorem runs_set (h : Exec.load src m.tick = .ok x m.tick) (hsrc : src.isMemory = false) :
    Runs near [.mov (.reg d) src] m (m.tick.write d x) := by
  refine .single ⟨rfl, rfl⟩ (safe_of_denotes fun o ho => ?_) (Exec.execute_mov_reg h)
  cases src <;> simp_all [Instr.memories, Operand.memories, Operand.isMemory]

theorem runs_load (h : m.tick.Denotes o a) (ha : near a) :
    Runs near [.mov (.reg d) (.mem o)] m (m.tick.write d (m.word a)) := by
  refine .single ⟨rfl, rfl⟩ (safe_of_denotes fun o' ho' => ⟨a, ?_, ha⟩)
    (Exec.execute_mov_reg (Exec.load_mem h))
  obtain rfl : o = o' := by simpa [Instr.memories, Operand.memories, eq_comm] using ho'
  exact h

theorem runs_store (h : m.tick.Denotes o a) (ha : near a) (hx : Exec.load src m.tick = .ok x m.tick)
    (hsrc : src.isMemory = false) :
    Runs near [.mov (.mem o) src] m (m.tick.store a x) := by
  refine .single ⟨rfl, rfl⟩ (safe_of_denotes fun o' ho' => ⟨a, ?_, ha⟩)
    (Exec.execute_mov_mem hx h)
  obtain rfl : o = o' := by cases src <;> simp_all [Instr.memories, Operand.memories, Operand.isMemory, eq_comm]
  exact h

theorem runs_binary {op : String} {f : Word → Word → Word} (hd : m.read d = .ok x)
    (h : Exec.load src m.tick = .ok y m.tick) (hsrc : src.isMemory = false) (hop : op ≠ "cmp")
    (hf : Exec.arithmetic? op = some f) :
    Runs near [.binary op (.reg d) src] m (m.tick.write d (f x y)) := by
  refine .single ⟨rfl, rfl⟩ (safe_of_denotes fun o ho => ?_) (Exec.execute_binary (m := m.tick) hd h hop hf)
  cases src <;> simp_all [Instr.memories, Operand.memories, Operand.isMemory]

theorem runs_cmp (hd : m.read d = .ok x) (h : Exec.load src m.tick = .ok y m.tick)
    (hsrc : src.isMemory = false) :
    Runs near [.binary "cmp" (.reg d) src] m { m.tick with compared := (x, y) } := by
  refine .single ⟨rfl, rfl⟩ (safe_of_denotes fun o ho => ?_) (Exec.execute_cmp (m := m.tick) hd h)
  cases src <;> simp_all [Instr.memories, Operand.memories, Operand.isMemory]

/-- An instruction without memory operands. -/
theorem runs_plain {i : Instr} {n : Machine} (hi : i.Straight) (hmem : i.memories = [])
    (e : Exec.execute i m.tick = .ok () n) : Runs near [i] m n :=
  .single hi (safe_of_denotes fun o ho => by rw [hmem] at ho; cases ho) e

end Machine

/-! ## Operators -/

namespace Amd64

/-- Arithmetic operators have instructions that compute what they say. -/
theorem arithmetic_spec {op : BinaryOp} (h : op ∈ [BinaryOp.add, .sub, .mul, .and, .or, .xor]) :
    ∃ name f, arithmetic op = .ok name ∧ name ≠ "cmp" ∧ Exec.arithmetic? name = some f ∧
      ∀ x y, op.apply? x y = some (f x y) := by
  simp only [List.mem_cons, List.not_mem_nil, or_false] at h
  rcases h with rfl | rfl | rfl | rfl | rfl | rfl
  all_goals exact ⟨_, _, rfl, by decide, rfl, fun _ _ => rfl⟩

/-- Comparisons have condition codes that say the same. -/
theorem condition_spec {op : BinaryOp} (h : op ∈ BinaryOp.comparisons) :
    ∃ cc test, condition op = .ok cc ∧ Exec.condition? cc = some test ∧
      ∀ x y, op.apply? x y = some (Word.ofBool (test x y)) := by
  simp only [BinaryOp.comparisons, List.mem_cons, List.not_mem_nil, or_false] at h
  rcases h with rfl | rfl | rfl | rfl | rfl | rfl
  all_goals exact ⟨_, _, rfl, rfl, fun _ _ => rfl⟩

/-- A cleared register with its low byte set. -/
theorem low_byte (b : Bool) : ((0 : Word) &&& ~~~255) ||| Word.ofBool b = Word.ofBool b := by
  cases b <;> decide

end Amd64

/-! ## Rules -/

section
variable {known : Nat} {reserved : List Physical} {v a : Value} {leaves : List Value}
  {inputs : List Register} {u : Supply} {code : List Instr} {c : Word}

/-- The registers that hold the leaves of a rule. -/
def Ready (reserved : List Physical) (u : Supply) (inputs : List Register) : Prop :=
  ∀ r ∈ inputs, r.Free u.registers reserved

/-- The supply after one more register was drawn. -/
def Supply.next (u : Supply) : Supply := { u with registers := u.registers + 1 }

/-- The register drawn. -/
def Supply.drawn (u : Supply) : Register := .virtual (u.registers + 1)

theorem Supply.drawn_between (u : Supply) : u.drawn.Between u.registers u.next.registers :=
  ⟨_, rfl, Nat.lt_succ_self _, Nat.le_refl _⟩

theorem Supply.drawn_not_known {u : Supply} (hu : known ≤ u.registers) : ¬ u.drawn.Known known :=
  fun h => u.drawn_between.not_known (h.mono hu)

theorem Supply.drawn_free (u : Supply) (reserved : List Physical) :
    u.drawn.Free u.next.registers reserved := ⟨u.drawn_between.known, fun _ _ => nofun⟩

/-- The registers that a tree reads. -/
theorem Evaluable.free_reads (hv : Evaluable known reserved [v]) (hu : known ≤ u.registers)
    {r : Register} (hr : r ∈ v.reads) : r.Free u.registers reserved := by
  refine ⟨fun id e => ?_, fun p hp e => ?_⟩
  · exact Nat.le_trans (hv.known v List.mem_cons_self id (e ▸ hr)) hu
  · exact (hv.free v List.mem_cons_self p hp).1 (e ▸ hr)

/-- The inputs are older than the register drawn. -/
theorem Ready.read_drawn (hin : Ready reserved u inputs) {r : Register} (hr : r ∈ inputs)
    (m : Machine) (x : Word) : (m.tick.write u.drawn x).tick.read r = m.read r := by
  refine (Machine.read_write _ _ _ _).trans (if_neg ?_)
  rintro rfl
  exact Supply.drawn_not_known (Nat.le_refl _) (hin _ hr).1

/-- Code that reads the inputs and the registers of the tree, and writes a single
    new register. -/
theorem emits_drawn (hv : Evaluable known reserved [v]) (hu : known ≤ u.registers)
    (hin : Ready reserved u inputs)
    (hcode : ∀ i ∈ code, i.Straight ∧ i.Conventional ∧ (∀ d ∈ i.defines, d = u.drawn) ∧
      ∀ r ∈ i.uses, r = u.drawn ∨ r ∈ inputs ∨ r ∈ v.reads)
    (hcomputes : ∀ (w : World) {s s₁ s' : State} {xs : List Word} {x : Word} {m : Machine},
      w.evalAll leaves s = some (xs, s₁) → w.eval v s = some (x, s') → Reflects w known s₁ m →
      m.Holds inputs xs → ∃ n, Machine.Runs w.near code m (n.write u.drawn x) ∧ Reflects w known s' n) :
    Emits known reserved v leaves inputs u u.next code u.drawn := by
  have hmono : ∀ {r : Register}, r.Free u.registers reserved → r.Free u.next.registers reserved :=
    fun hr => ⟨hr.1.mono (Nat.le_succ _), hr.2⟩
  have huses : ∀ i ∈ code, ∀ r ∈ i.uses, r.Free u.next.registers reserved := by
    intro i hi r hr
    rcases (hcode i hi).2.2.2 r hr with rfl | hr | hr
    · exact u.drawn_free reserved
    · exact hmono (hin r hr)
    · exact hmono (hv.free_reads hu hr)
  refine ⟨Nat.le_succ _, rfl, Or.inr u.drawn_between, fun i hi => (hcode i hi).1, fun i hi => ?_,
    fun i hi d hd => Or.inl ((hcode i hi).2.2.1 d hd ▸ u.drawn_between), ?_⟩
  · refine Instr.legal_of_free (hcode i hi).2.1 (huses i hi) fun d hd => ?_
    rw [(hcode i hi).2.2.1 d hd]
    exact ⟨u.drawn_free reserved, nofun⟩
  · intro w s s₁ s' xs x m hleaves hv hm hinputs
    obtain ⟨n, hruns, hn⟩ := hcomputes w hleaves hv hm hinputs
    refine ⟨_, hruns, hn.scratch (Supply.drawn_not_known hu) x, ?_⟩
    rw [Machine.read_write, if_pos rfl]

/-- The operand denotes the address `a`, once the inputs hold the leaves. -/
structure Addresses (known : Nat) (a : Value) (leaves : List Value) (inputs : List Register)
    (o : Mem) : Prop where
  registers : ∀ r ∈ o.registers, r ∈ inputs ∨ r ∈ a.reads
  denotes : ∀ (w : World) {s s₁ s' : State} {xs : List Word} {y : Word} {m : Machine},
    w.evalAll leaves s = some (xs, s₁) → w.eval a s = some (y, s') → Reflects w known s₁ m →
    m.Holds inputs xs → s₁ = s' ∧ m.Denotes o y

theorem addresses_label (l : Label) (d : Word) :
    Addresses known (.binary .add (.address l) (.const d)) [] [] ⟨l, none, d⟩ where
  registers := fun r hr => by cases hr
  denotes w {s s₁ s' xs y m} hleaves ha hm _ := by
    obtain ⟨-, rfl⟩ := World.evalAll_nil.1 hleaves
    obtain ⟨x, s₂, z, hx, hz, hy⟩ := World.eval_binary.1 ha
    obtain ⟨hl, rfl⟩ := World.eval_address.1 hx
    obtain ⟨rfl, rfl⟩ := World.eval_const.1 hz
    cases hy
    exact ⟨rfl, hm.denotes_label hl d⟩

theorem addresses_offset {op : BinaryOp} {b : Register} (hop : op = .add ∨ op = .sub)
    (hb : b.Known known) (d : Word) :
    Addresses known (.binary op (.read b) (.const d)) [] []
      ⟨Label.none, some b, if op = .sub then -d else d⟩ where
  registers := fun r hr => Or.inr (by simpa [Value.reads, Mem.registers] using hr)
  denotes w {s s₁ s' xs y m} hleaves ha hm _ := by
    obtain ⟨-, rfl⟩ := World.evalAll_nil.1 hleaves
    obtain ⟨x, s₂, z, hx, hz, hy⟩ := World.eval_binary.1 ha
    obtain ⟨hl, rfl⟩ := World.eval_read.1 hx
    obtain ⟨rfl, rfl⟩ := World.eval_const.1 hz
    refine ⟨rfl, ?_⟩
    have hbase := Machine.denotes_base (if op = .sub then -d else d) (hm.registers hb hl)
    rcases hop with rfl | rfl
    · cases hy
      exact hbase
    · cases hy
      rw [Int64.sub_eq_add_neg]
      exact hbase

theorem addresses_leaf (a : Value) (b : Register) : Addresses known a [a] [b] (.ofRegister b) where
  registers := fun r hr => Or.inl (by simpa [Mem.registers, Mem.ofRegister] using hr)
  denotes w {s s₁ s' xs y m} hleaves ha hm hb := by
    rw [World.evalAll_one ha] at hleaves
    cases hleaves
    cases hb with
    | cons hb _ =>
      have := Machine.denotes_base 0 hb
      rw [Int64.add_zero] at this
      exact ⟨rfl, this⟩

theorem emits_load {o : Mem} (hv : Evaluable known reserved [.load a]) (hu : known ≤ u.registers)
    (hin : Ready reserved u inputs) (h : Addresses known a leaves inputs o) :
    Emits known reserved (.load a) leaves inputs u u.next [.mov (.reg u.drawn) (.mem o)] u.drawn := by
  refine emits_drawn hv hu hin (fun i hi => ?_) ?_
  · obtain rfl := List.mem_singleton.1 hi
    refine ⟨⟨rfl, rfl⟩, ⟨trivial, trivial⟩, ?_, ?_⟩
    · simp [Instr.defines, Operand.defined, Operand.register?]
    · intro r hr
      simp only [Instr.uses, Operand.registers, Operand.addressUses, List.append_nil] at hr
      exact Or.inr (h.registers r hr)
  · intro w s s₁ s' xs x m hleaves hx hm hinputs
    obtain ⟨y, ha, hnear, rfl⟩ := World.eval_load.1 hx
    obtain ⟨rfl, hdenotes⟩ := h.denotes w hleaves ha hm.tick hinputs
    refine ⟨m.tick, ?_, hm.tick⟩
    rw [← hm.memory]
    exact Machine.runs_load hdenotes hnear

theorem emits_const (hu : known ≤ u.registers) (hv : Evaluable known reserved [.const c]) :
    Emits known reserved (.const c) [] [] u u.next [.mov (.reg u.drawn) (.imm c)] u.drawn := by
  refine emits_drawn hv hu (fun r hr => by cases hr) (fun i hi => ?_) ?_
  · obtain rfl := List.mem_singleton.1 hi
    exact ⟨⟨rfl, rfl⟩, ⟨trivial, trivial⟩, by simp [Instr.defines, Operand.defined, Operand.register?],
      by simp [Instr.uses, Operand.registers, Operand.addressUses]⟩
  · intro w s s₁ s' xs x m hleaves hx hm _
    obtain ⟨-, rfl⟩ := World.evalAll_nil.1 hleaves
    obtain ⟨rfl, rfl⟩ := World.eval_const.1 hx
    exact ⟨m.tick, Machine.runs_set Exec.load_imm rfl, hm.tick⟩

theorem emits_address {l : Label} (hu : known ≤ u.registers)
    (hv : Evaluable known reserved [.address l]) :
    Emits known reserved (.address l) [] [] u u.next [.lea u.drawn ⟨l, none, 0⟩] u.drawn := by
  refine emits_drawn hv hu (fun r hr => by cases hr) (fun i hi => ?_) ?_
  · obtain rfl := List.mem_singleton.1 hi
    exact ⟨⟨rfl, rfl⟩, ⟨trivial, trivial⟩, by simp [Instr.defines], by simp [Instr.uses, Mem.registers]⟩
  · intro w s s₁ s' xs x m hleaves hx hm _
    obtain ⟨-, rfl⟩ := World.evalAll_nil.1 hleaves
    obtain ⟨hl, rfl⟩ := World.eval_address.1 hx
    refine ⟨m.tick, Machine.runs_plain ⟨rfl, rfl⟩ rfl (Exec.execute_lea ?_), hm.tick⟩
    have := hm.tick.denotes_label hl 0
    rwa [Int64.add_zero] at this

/-- A register is copied, and the copy is changed. -/
theorem runs_copy {near : Word → Prop} {m n : Machine} {d r : Register} {x : Word}
    {code : List Instr} (hr : m.read r = .ok x)
    (h : Machine.Runs near code (m.tick.write d x) n) : Machine.Runs near (.move d r :: code) m n := by
  have hmove : Machine.Runs near [.mov (.reg d) (.reg r)] m (m.tick.write d x) :=
    Machine.runs_set (Exec.load_reg (m := m.tick) hr) rfl
  exact hmove.append h

theorem emits_unary {op : UnaryOp} {b : Register} (hv : Evaluable known reserved [.unary op v])
    (hu : known ≤ u.registers) (hin : Ready reserved u [b]) :
    Emits known reserved (.unary op v) [v] [b] u u.next
      [.move u.drawn b, .unary (if op = .neg then "neg" else "not") u.drawn] u.drawn := by
  refine emits_drawn hv hu hin (fun i hi => ?_) ?_
  · simp only [List.mem_cons, List.not_mem_nil, or_false] at hi
    rcases hi with rfl | rfl
    · exact ⟨⟨rfl, rfl⟩, ⟨trivial, trivial⟩, by simp [Instr.move, Instr.defines, Operand.defined, Operand.register?],
        by simp [Instr.move, Instr.uses, Operand.registers, Operand.addressUses]⟩
    · exact ⟨⟨rfl, rfl⟩, ⟨trivial, trivial⟩, by simp [Instr.defines], by simp [Instr.uses]⟩
  · intro w s s₁ s' xs x m hleaves hx hm hinputs
    obtain ⟨y, hy, hop⟩ := World.eval_unary.1 hx
    rw [World.evalAll_one hy] at hleaves
    cases hleaves
    cases hinputs with
    | cons hb _ =>
      refine ⟨_, runs_copy hb (Machine.runs_plain ⟨rfl, rfl⟩ rfl ?_),
        (hm.tick.scratch (Supply.drawn_not_known hu) y).tick⟩
      have hread : (m.tick.write u.drawn y).tick.read u.drawn = .ok y :=
        (Machine.read_write _ _ _ _).trans (if_pos rfl)
      rcases (hv.declared _ List.mem_cons_self).1 with rfl | rfl
      · cases hop
        exact Exec.execute_unary hread rfl
      · cases hop
        exact Exec.execute_unary hread rfl

/-- Arithmetic on a copy of the left operand; the right one is a constant or a
    register. -/
theorem emits_arith {op : BinaryOp} {l r : Value} {rest : List Value} {b : Register}
    {bs : List Register} (src : Operand) {name : String} {f : Word → Word → Word}
    (hv : Evaluable known reserved [.binary op l r]) (hu : known ≤ u.registers)
    (hin : Ready reserved u (b :: bs)) (hsrc : src.isMemory = false)
    (hregs : ∀ x ∈ src.registers, x ∈ bs) (hname : name ≠ "cmp")
    (hf : Exec.arithmetic? name = some f) (hop : ∀ x y, op.apply? x y = some (f x y))
    (hright : ∀ (w : World) {s s₁ s' : State} {ys : List Word} {z : Word} {m : Machine},
      w.evalAll rest s = some (ys, s₁) → w.eval r s = some (z, s') → m.Holds bs ys →
      s₁ = s' ∧ Exec.load src m = .ok z m) :
    Emits known reserved (.binary op l r) (l :: rest) (b :: bs) u u.next
      [.move u.drawn b, .binary name (.reg u.drawn) src] u.drawn := by
  refine emits_drawn hv hu hin (fun i hi => ?_) ?_
  · simp only [List.mem_cons, List.not_mem_nil, or_false] at hi
    rcases hi with rfl | rfl
    · exact ⟨⟨rfl, rfl⟩, ⟨trivial, trivial⟩, by simp [Instr.move, Instr.defines, Operand.defined, Operand.register?],
        by simp [Instr.move, Instr.uses, Operand.registers, Operand.addressUses]⟩
    · refine ⟨⟨rfl, rfl⟩, ⟨trivial, trivial⟩, by simp [Instr.defines, Operand.defined, Operand.register?, hname], ?_⟩
      intro x hx
      simp only [Instr.uses, Operand.registers, List.singleton_append, List.mem_cons] at hx
      rcases hx with rfl | hx
      · exact Or.inl rfl
      · exact Or.inr (Or.inl (List.mem_cons_of_mem _ (hregs x hx)))
  · intro w s s₁ s' xs x m hleaves hx hm hinputs
    obtain ⟨y, s₂, z, hy, hz, hxyz⟩ := World.eval_binary.1 hx
    obtain ⟨y', s₂', ys, hy', hrest, rfl⟩ := World.evalAll_cons.1 hleaves
    rw [hy] at hy'
    cases hy'
    rw [hop] at hxyz
    cases hxyz
    cases hinputs with
    | cons hb hbs =>
      have hn : Reflects w known s₁ (m.tick.write u.drawn y).tick :=
        (hm.tick.scratch (Supply.drawn_not_known hu) y).tick
      have hbs : (m.tick.write u.drawn y).tick.Holds bs ys :=
        Machine.Holds.of_eq hbs fun r hr => hin.read_drawn (List.mem_cons_of_mem _ hr) m y
      obtain ⟨rfl, hload⟩ := hright w hrest hz hbs
      refine ⟨_, runs_copy hb (Machine.runs_binary ?_ hload hsrc hname hf), hn⟩
      rw [Machine.read_write, if_pos rfl]

/-- A comparison sets the low byte of a cleared register. -/
theorem emits_compare {op : BinaryOp} {l r : Value} {b c : Register} {cc : String}
    {test : Word → Word → Bool} (hv : Evaluable known reserved [.binary op l r])
    (hu : known ≤ u.registers) (hin : Ready reserved u [b, c])
    (hcc : Exec.condition? cc = some test)
    (hop : ∀ x y, op.apply? x y = some (Word.ofBool (test x y))) :
    Emits known reserved (.binary op l r) [l, r] [b, c] u u.next
      [.clear u.drawn, .binary "cmp" (.reg b) (.reg c), .setcc cc u.drawn] u.drawn := by
  refine emits_drawn hv hu hin (fun i hi => ?_) ?_
  · simp only [List.mem_cons, List.not_mem_nil, or_false] at hi
    rcases hi with rfl | rfl | rfl
    · exact ⟨⟨rfl, rfl⟩, ⟨trivial, trivial⟩, by simp [Instr.defines], by simp [Instr.uses]⟩
    · exact ⟨⟨rfl, rfl⟩, ⟨trivial, trivial⟩, by simp [Instr.defines], by simp [Instr.uses, Operand.registers]⟩
    · exact ⟨⟨rfl, rfl⟩, ⟨trivial, trivial⟩, by simp [Instr.defines], by simp [Instr.uses]⟩
  · intro w s s₁ s' xs x m hleaves hx hm hinputs
    obtain ⟨y, s₂, z, hy, hz, hxyz⟩ := World.eval_binary.1 hx
    rw [World.evalAll_two hy hz] at hleaves
    cases hleaves
    rw [hop] at hxyz
    cases hxyz
    have hinputs : (m.tick.write u.drawn 0).tick.Holds [b, c] [y, z] :=
      hinputs.of_eq fun r hr => hin.read_drawn hr m 0
    cases hinputs with
    | cons hb hc =>
      cases hc with
      | cons hc _ =>
        have hclear : Machine.Runs w.near [.clear u.drawn] m (m.tick.write u.drawn 0) :=
          Machine.runs_plain ⟨rfl, rfl⟩ rfl rfl
        let m₁ := m.tick.write u.drawn 0
        have hcmp : Machine.Runs w.near _ m₁ { m₁.tick with compared := (y, z) } :=
          Machine.runs_cmp hb (Exec.load_reg hc) rfl
        refine ⟨_, hclear.append (hcmp.append (Machine.runs_plain ⟨rfl, rfl⟩ rfl ?_)),
          (((hm.tick.scratch (Supply.drawn_not_known hu) 0).tick).compare (y, z)).tick⟩
        rw [← Amd64.low_byte]
        refine Exec.execute_setcc ?_ hcc
        exact (Machine.read_write _ _ _ _).trans (if_pos rfl)

theorem emits_read {r : Register} (hv : Evaluable known reserved [.read r]) :
    Emits known reserved (.read r) [] [] u u [] r := by
  refine ⟨Nat.le_refl _, rfl, Or.inl rfl, by simp, by simp, by simp, ?_⟩
  intro w s s₁ s' xs x m hleaves hx hm _
  obtain ⟨-, rfl⟩ := World.evalAll_nil.1 hleaves
  obtain ⟨hr, rfl⟩ := World.eval_read.1 hx
  refine ⟨m, .nil m, hm, hm.registers (fun id e => ?_) hr⟩
  exact hv.known _ List.mem_cons_self id (by simp [Value.reads, e])

/-- The argument registers of a call. -/
def Amd64.argumentRegisters (n : Int) : List Register :=
  (Amd64.convention.arguments.take n.toNat).map Register.physical

theorem legal_call {f : Label} {n : Int} (hv : Evaluable known reserved [.call f n]) (supply : Nat) :
    (Instr.call f (Amd64.argumentRegisters n) Amd64.callerSaved).Legal supply reserved where
  conventional := by
    have hclobbered : Machine.resultRegister ∈ Amd64.callerSaved := by decide
    refine ⟨⟨fun r hr => ?_, fun r hr => ?_⟩, hclobbered⟩ <;>
    · obtain ⟨p, -, rfl⟩ := List.mem_map.1 hr
      rfl
  known r hr := by
    rcases List.mem_append.1 hr with hr | hr <;>
    · obtain ⟨p, -, rfl⟩ := List.mem_map.1 hr
      exact Register.known_physical _ p
  unreserved p hp hr := by
    obtain ⟨q, hq, e⟩ := List.mem_map.1 hr
    cases e
    exact (hv.free _ List.mem_cons_self p hp).2 (List.mem_cons_of_mem _ hq)
  kept := by simp only [Instr.defines]; decide
  clobbered _ _ _ := ⟨_, _, _, rfl⟩

theorem emits_call {f : Label} {n : Int} (hu : known ≤ u.registers)
    (hv : Evaluable known reserved [.call f n]) :
    Emits known reserved (.call f n) [] [] u u.next
      [.call f (Amd64.argumentRegisters n) Amd64.callerSaved, .move u.drawn Amd64.convention.result]
      u.drawn := by
  have hmove : (Instr.move u.drawn Amd64.convention.result).Legal u.next.registers reserved := by
    refine Instr.legal_of_free ⟨trivial, trivial⟩ (fun r hr => ?_) fun d hd => ?_
    · obtain rfl : r = Amd64.convention.result := by
        simpa [Instr.move, Instr.uses, Operand.registers, Operand.addressUses] using hr
      refine ⟨Register.known_physical _ _, fun p hp e => ?_⟩
      cases e
      exact (hv.free _ List.mem_cons_self _ hp).2 List.mem_cons_self
    · obtain rfl : d = u.drawn := by
        simpa [Instr.move, Instr.defines, Operand.defined, Operand.register?] using hd
      exact ⟨u.drawn_free reserved, fun e => (by cases e)⟩
  refine ⟨Nat.le_succ _, rfl, Or.inr u.drawn_between, ?_, ?_, ?_, ?_⟩
  · simp only [List.mem_cons, List.not_mem_nil, or_false]
    rintro i (rfl | rfl) <;> exact ⟨rfl, rfl⟩
  · simp only [List.mem_cons, List.not_mem_nil, or_false]
    rintro i (rfl | rfl)
    · exact legal_call hv _
    · exact hmove
  · simp only [List.mem_cons, List.not_mem_nil, or_false]
    rintro i (rfl | rfl) d hd
    · exact Or.inr ⟨rfl, hd⟩
    · obtain rfl : d = u.drawn := by
        simpa [Instr.move, Instr.defines, Operand.defined, Operand.register?] using hd
      exact Or.inl u.drawn_between
  · intro w s s₁ s' xs x m hleaves hx hm _
    obtain ⟨-, rfl⟩ := World.evalAll_nil.1 hleaves
    obtain ⟨hook, ys, hhook, hys, hret, rfl⟩ := World.eval_call.1 hx
    have hknown : ∀ r ∈ Amd64.argumentRegisters n, r.Known known := fun r hr => by
      obtain ⟨p, -, rfl⟩ := List.mem_map.1 hr
      exact Register.known_physical _ p
    have hargs : m.tick.Holds (Amd64.argumentRegisters n) ys :=
      ((List.forall₂_and_left (Amd64.argumentRegisters n) ys).2
        ⟨hknown, Option.mapM_eq_some hys⟩).imp fun _ _ h => hm.registers h.1 h.2
    have hcall : Machine.Runs w.near [.call f (Amd64.argumentRegisters n) Amd64.callerSaved] m _ :=
      Machine.runs_plain ⟨rfl, rfl⟩ rfl (Exec.execute_call (hm.hooks ▸ hhook) hargs hret)
    have hn := hm.tick.afterCall x
    have hresult : (((m.tick.poison Amd64.callerSaved).write Machine.resultRegister x)).read
        Amd64.convention.result = .ok x := (Machine.read_write _ _ _ _).trans (if_pos rfl)
    refine ⟨_, hcall.append (runs_copy hresult (.nil _)), ?_, ?_⟩
    · exact hn.tick.scratch (Supply.drawn_not_known hu) x
    · rw [Machine.read_write, if_pos rfl]

/-! ## Tiles -/

namespace Amd64

theorem generate_valueRule {name : String} {p : Pattern}
    {code : Emission → Register → Except Fault (List Instr)} {e : Emission} {is : List Instr}
    (h : code e u.drawn = .ok is) :
    (valueRule name p code).generate e u = .ok (is, some u.drawn) u.next := by
  have : Fresh.ofExcept (code e u.drawn) u.next = .ok is u.next := by rw [h]; rfl
  exact EStateM.bind_eq_ok.2 ⟨u.drawn, u.next, rfl, EStateM.bind_eq_ok.2 ⟨is, u.next, this, rfl⟩⟩

/-- The code of a call, once its number of arguments is known to be right. -/
theorem generate_call {e : Emission} {f : Label} {n : Int} (h : e.found.call .call = .ok (f, n)) :
    call.generate e =
      if n > convention.arguments.length then throw (.tooManyArguments f n convention.arguments.length)
      else if n < 0 then throw .negativeArguments
      else do
        let out ← Fresh.register
        return ([.call f ((convention.arguments.take n.toNat).map Register.physical)
          (convention.callerSaved.map Register.physical), .move out convention.result], some out) := by
  change (Fresh.ofExcept (e.found.call .call) >>= _) = _
  rw [h]
  by_cases h₁ : n > convention.arguments.length
  · funext u
    simp only [Fresh.ofExcept, pure_bind, if_pos h₁]
    rfl
  · by_cases h₂ : n < 0
    · funext u
      simp only [Fresh.ofExcept, pure_bind, if_neg h₁, if_pos h₂]
      rfl
    · simp only [Fresh.ofExcept, pure_bind, if_neg h₁, if_neg h₂]

/-- **The code of a rule computes its tree**, once the leaves are in registers. -/
theorem emits_of_matches {rule : Rule} {found : Match} (h : ValueMatches rule v found)
    (hv : Evaluable known reserved [v]) (hu : known ≤ u.registers)
    (hlen : inputs.length = found.leaves.length) (hin : Ready reserved u inputs) :
    ∃ own out u', rule.generate { inputs, found } u = .ok (own, some out) u' ∧
      Emits known reserved v found.leaves inputs u u' own out := by
  cases h with
  | const w =>
    obtain rfl := List.length_eq_zero_iff.1 hlen
    exact ⟨_, _, _, generate_valueRule rfl, emits_const hu hv⟩
  | read r =>
    obtain rfl := List.length_eq_zero_iff.1 hlen
    exact ⟨_, _, _, rfl, emits_read hv⟩
  | loadLabel l hd =>
    obtain rfl := List.length_eq_zero_iff.1 hlen
    exact ⟨_, _, _, generate_valueRule rfl, emits_load hv hu hin (addresses_label l _)⟩
  | loadOffset b hop hd =>
    obtain rfl := List.length_eq_zero_iff.1 hlen
    have hb : b.Known known := fun id e => hv.known _ List.mem_cons_self id (by simp [Value.reads, e])
    exact ⟨_, _, _, generate_valueRule rfl, emits_load hv hu hin (addresses_offset hop hb _)⟩
  | loadAny a =>
    obtain ⟨b, rfl⟩ := List.length_eq_one_iff.1 hlen
    exact ⟨_, _, _, generate_valueRule rfl, emits_load hv hu hin (addresses_leaf a b)⟩
  | address l =>
    obtain rfl := List.length_eq_zero_iff.1 hlen
    exact ⟨_, _, _, generate_valueRule rfl, emits_address hu hv⟩
  | call f n =>
    obtain rfl := List.length_eq_zero_iff.1 hlen
    obtain ⟨hlo, hhi⟩ := hv.declared _ List.mem_cons_self
    refine ⟨_, _, _, ?_, emits_call hu hv⟩
    rw [generate_call rfl, if_neg (Int.not_lt.2 hhi), if_neg (Int.not_lt.2 hlo)]
    rfl
  | unary op x =>
    obtain ⟨b, rfl⟩ := List.length_eq_one_iff.1 hlen
    exact ⟨_, _, _, rfl, emits_unary hv hu hin⟩
  | @arithConst op l d hop hd =>
    obtain ⟨b, rfl⟩ := List.length_eq_one_iff.1 hlen
    obtain ⟨name, f, hname, hcmp, hf, happly⟩ := arithmetic_spec (mem_arithmetic hop)
    refine ⟨_, _, _, generate_valueRule ?_,
      emits_arith (.imm d) hv hu hin rfl (by simp [Operand.registers]) hcmp hf happly ?_⟩
    · exact Except.bind_eq_ok.2 ⟨op, rfl, Except.bind_eq_ok.2 ⟨name, hname, rfl⟩⟩
    · intro w s s₁ s' ys z m hrest hz _
      obtain ⟨-, rfl⟩ := World.evalAll_nil.1 hrest
      obtain ⟨rfl, rfl⟩ := World.eval_const.1 hz
      exact ⟨rfl, Exec.load_imm⟩
  | @arithAny op l r hop =>
    obtain ⟨b, c, rfl⟩ := List.length_eq_two.1 hlen
    obtain ⟨name, f, hname, hcmp, hf, happly⟩ := arithmetic_spec hop
    refine ⟨_, _, _, generate_valueRule ?_,
      emits_arith (.reg c) hv hu hin rfl (by simp [Operand.registers]) hcmp hf happly ?_⟩
    · exact Except.bind_eq_ok.2 ⟨op, rfl, Except.bind_eq_ok.2 ⟨name, hname, rfl⟩⟩
    · intro w s s₁ s' ys z m hrest hz hc
      rw [World.evalAll_one hz] at hrest
      cases hrest
      cases hc with
      | cons hc _ => exact ⟨rfl, Exec.load_reg hc⟩
  | @compare op l r hop =>
    obtain ⟨b, c, rfl⟩ := List.length_eq_two.1 hlen
    obtain ⟨cc, test, hcc, htest, happly⟩ := condition_spec hop
    refine ⟨_, _, _, generate_valueRule ?_, emits_compare hv hu hin htest happly⟩
    exact Except.bind_eq_ok.2 ⟨op, rfl, Except.bind_eq_ok.2 ⟨cc, hcc, rfl⟩⟩

end Amd64

end

/-- The code computes the values one after the other into the registers. -/
structure EmitsAll (known : Nat) (reserved : List Physical) (vs : List Value) (u u' : Supply)
    (code : List Instr) (outs : List Register) : Prop where
  grows : u.registers ≤ u'.registers
  labels : u'.labels = u.labels
  empty : vs = [] → code = []
  results : List.Forall₂ (fun v out => v = .read out ∨ out.Between u.registers u'.registers) vs outs
  ready : Ready reserved u' outs
  straight : ∀ i ∈ code, i.Straight
  legal : ∀ i ∈ code, i.Legal u'.registers reserved
  fresh : ∀ i ∈ code, ∀ d ∈ i.defines,
    d.Between u.registers u'.registers ∨ (∃ v ∈ vs, v.hasCall = true) ∧ d ∈ Amd64.callerSaved
  computes : ∀ (w : World) {s s' : State} {xs : List Word} {m : Machine},
    w.evalAll vs s = some (xs, s') → Reflects w known s m →
    ∃ n, Machine.Runs w.near code m n ∧ Reflects w known s' n ∧ n.Holds outs xs

section
variable {known : Nat} {reserved : List Physical} {v : Value} {vs : List Value} {u u₁ u₂ : Supply}
  {code rest : List Instr} {out : Register} {outs : List Register}

theorem EmitsAll.length (h : EmitsAll known reserved vs u u₁ code outs) : outs.length = vs.length :=
  h.results.length_eq.symm

theorem emitsAll_nil : EmitsAll known reserved [] u u [] [] := by
  refine ⟨Nat.le_refl _, rfl, fun _ => rfl, .nil, ?_, by simp, by simp, by simp, ?_⟩
  · intro r hr
    cases hr
  · intro w s s' xs m h hm
    obtain ⟨rfl, rfl⟩ := World.evalAll_nil.1 h
    exact ⟨m, .nil m, hm, .nil⟩

/-- The register that holds a value is free to be read. -/
theorem Emits.free (h : Emits known reserved v [] [] u u₁ code out)
    (hv : Evaluable known reserved [v]) (hu : known ≤ u.registers) :
    out.Free u₁.registers reserved := by
  rcases h.result with rfl | hout
  · have := hv.free_reads hu (r := out) (by simp [Value.reads])
    exact ⟨this.1.mono h.grows, this.2⟩
  · refine ⟨hout.known, fun p _ e => ?_⟩
    obtain ⟨id, hid, -⟩ := hout
    rw [hid] at e
    cases e

/-- What was computed first is still there after the rest was computed. -/
theorem Emits.kept (h : Emits known reserved v [] [] u u₁ code out)
    (hrest : EmitsAll known reserved vs u₁ u₂ rest outs)
    (hv : Evaluable known reserved (v :: vs)) (hu : known ≤ u.registers) :
    ∀ i ∈ rest, out ∉ Exec.changes i := by
  intro i hi hout
  have hvs : ∀ {w : Value}, w = v → w ∈ v :: vs := fun e => e ▸ List.mem_cons_self
  rcases hrest.fresh i hi out ((hrest.legal i hi).conventional.mem_changes.1 hout) with hnew | ⟨⟨c, hc, hcall⟩, hsaved⟩
  · refine hnew.not_known ?_
    rcases h.result with rfl | hold
    · exact fun id e => Nat.le_trans (hv.known _ (hvs rfl) id (by simp [Value.reads, e]))
        (Nat.le_trans hu h.grows)
    · exact hold.known
  · obtain ⟨p, -, rfl⟩ := List.mem_map.1 hsaved
    rcases h.result with rfl | ⟨id, e, -⟩
    · have := hv.separate c (List.mem_cons_of_mem _ hc) hcall _ (hvs rfl) (.physical p) (by simp [Value.reads])
      cases this
    · cases e

theorem Emits.cons (h : Emits known reserved v [] [] u u₁ code out)
    (hrest : EmitsAll known reserved vs u₁ u₂ rest outs)
    (hv : Evaluable known reserved (v :: vs)) (hu : known ≤ u.registers) :
    EmitsAll known reserved (v :: vs) u u₂ (code ++ rest) (out :: outs) := by
  have hfirst : Evaluable known reserved [v] := hv.subtrees fun x hx => ⟨v, List.mem_cons_self, by
    rw [List.mem_singleton.1 hx]; exact .refl v⟩
  have hkept := h.kept hrest hv hu
  refine ⟨Nat.le_trans h.grows hrest.grows, hrest.labels.trans h.labels, nofun, .cons ?_ ?_,
    fun r hr => ?_, fun i hi => ?_, fun i hi => ?_, fun i hi d hd => ?_, ?_⟩
  · exact h.result.imp_right fun hb => hb.mono (Nat.le_refl _) hrest.grows
  · exact hrest.results.imp fun v out hv => hv.imp_right fun hb => hb.mono h.grows (Nat.le_refl _)
  · rcases List.mem_cons.1 hr with rfl | hr
    · have := h.free hfirst hu
      exact ⟨this.1.mono hrest.grows, this.2⟩
    · exact hrest.ready r hr
  · exact (List.mem_append.1 hi).elim (h.straight i) (hrest.straight i)
  · exact (List.mem_append.1 hi).elim (fun hi => (h.legal i hi).mono hrest.grows) (hrest.legal i)
  · rcases List.mem_append.1 hi with hi | hi
    · refine (h.fresh i hi d hd).imp (fun hb => hb.mono (Nat.le_refl _) hrest.grows) fun hc => ?_
      exact ⟨⟨v, List.mem_cons_self, hc.1⟩, hc.2⟩
    · refine (hrest.fresh i hi d hd).imp (fun hb => hb.mono h.grows (Nat.le_refl _)) fun hc => ?_
      obtain ⟨⟨c, hc, hcall⟩, hsaved⟩ := hc
      exact ⟨⟨c, List.mem_cons_of_mem _ hc, hcall⟩, hsaved⟩
  · intro w s s' xs m hxs hm
    obtain ⟨x, s₁, ys, hx, hys, rfl⟩ := World.evalAll_cons.1 hxs
    obtain ⟨m₁, hruns₁, hm₁, hout⟩ := h.computes w World.evalAll_nil_self hx hm .nil
    obtain ⟨m₂, hruns₂, hm₂, houts⟩ := hrest.computes w hys hm₁
    exact ⟨m₂, hruns₁.append hruns₂, hm₂, .cons ((hruns₂.read_eq hkept).trans hout) houts⟩

/-- Code that follows the code of the leaves. -/
theorem EmitsAll.then (h : EmitsAll known reserved vs u u₁ code outs) {own : List Instr}
    (hown : Emits known reserved v vs outs u₁ u₂ own out)
    (hcalls : ∀ x ∈ vs, x.hasCall = true → v.hasCall = true)
    (hvs : ∀ (w : World) (s : State) r, w.eval v s = some r → ∃ xs s₁, w.evalAll vs s = some (xs, s₁)) :
    Emits known reserved v [] [] u u₂ (code ++ own) out := by
  refine ⟨Nat.le_trans h.grows hown.grows, hown.labels.trans h.labels,
    hown.result.imp_right fun hb => hb.mono h.grows (Nat.le_refl _), fun i hi => ?_, fun i hi => ?_,
    fun i hi d hd => ?_, ?_⟩
  · exact (List.mem_append.1 hi).elim (h.straight i) (hown.straight i)
  · exact (List.mem_append.1 hi).elim (fun hi => (h.legal i hi).mono hown.grows) (hown.legal i)
  · rcases List.mem_append.1 hi with hi | hi
    · refine (h.fresh i hi d hd).imp (fun hb => hb.mono (Nat.le_refl _) hown.grows) fun hc => ?_
      obtain ⟨⟨c, hc, hcall⟩, hsaved⟩ := hc
      exact ⟨hcalls c hc hcall, hsaved⟩
    · exact (hown.fresh i hi d hd).imp_left fun hb => hb.mono h.grows (Nat.le_refl _)
  · intro w s s₁ s' xs x m hnil hx hm _
    obtain ⟨-, rfl⟩ := World.evalAll_nil.1 hnil
    obtain ⟨ys, s₂, hys⟩ := hvs w s _ hx
    obtain ⟨m₁, hruns₁, hm₁, houts⟩ := h.computes w hys hm
    obtain ⟨m₂, hruns₂, hm₂, hout⟩ := hown.computes w hys hx hm₁ houts
    exact ⟨m₂, hruns₁.append hruns₂, hm₂, hout⟩

end

/-! ## Trees -/

namespace Amd64

section
variable {w : World} {rule : Rule} {found : Match} {s s₁ : State} {a v : Value} {x : Word}

theorem ValueMatches.exists_evalAll (h : ValueMatches rule v found) (hv : w.eval v s = some (x, s₁)) :
    ∃ xs s₁, w.evalAll found.leaves s = some (xs, s₁) := by
  cases h with
  | loadAny a =>
    obtain ⟨y, h, -⟩ := World.eval_load.1 hv
    exact ⟨_, _, World.evalAll_one h⟩
  | unary op v =>
    obtain ⟨y, h, -⟩ := World.eval_unary.1 hv
    exact ⟨_, _, World.evalAll_one h⟩
  | arithConst l _ _ =>
    obtain ⟨y, s₂, z, h, -⟩ := World.eval_binary.1 hv
    exact ⟨_, _, World.evalAll_one h⟩
  | arithAny l r _ =>
    obtain ⟨y, s₂, z, h, h', -⟩ := World.eval_binary.1 hv
    exact ⟨_, _, World.evalAll_two h h'⟩
  | compare l r _ =>
    obtain ⟨y, s₂, z, h, h', -⟩ := World.eval_binary.1 hv
    exact ⟨_, _, World.evalAll_two h h'⟩
  | _ => exact ⟨[], s, rfl⟩

theorem WriteMatches.exists_evalAll {r : Register} (h : WriteMatches r rule v found)
    (hv : w.eval v s = some (x, s₁)) : ∃ xs s₁, w.evalAll found.leaves s = some (xs, s₁) := by
  cases h with
  | load a =>
    obtain ⟨y, h, -⟩ := World.eval_load.1 hv
    exact ⟨_, _, World.evalAll_one h⟩
  | any v => exact ⟨_, _, World.evalAll_one hv⟩
  | _ => exact ⟨[], s, rfl⟩

theorem StoreMatches.exists_evalAll {y : Word} {s₂ : State} (h : StoreMatches rule a v found)
    (ha : w.eval a s = some (x, s₁)) (hv : w.eval v s₁ = some (y, s₂)) :
    ∃ xs s₁, w.evalAll found.leaves s = some (xs, s₁) := by
  cases h with
  | label l v _ =>
    obtain ⟨_, s₃, _, hl, hd, -⟩ := World.eval_binary.1 ha
    obtain ⟨-, rfl⟩ := World.eval_address.1 hl
    obtain ⟨-, rfl⟩ := World.eval_const.1 hd
    exact ⟨_, _, World.evalAll_one hv⟩
  | const a _ => exact ⟨_, _, World.evalAll_one ha⟩
  | any a v => exact ⟨_, _, World.evalAll_two ha hv⟩
  | _ => exact ⟨[], s, rfl⟩

end

variable {known : Nat} {reserved : List Physical}

mutual

/-- **The code of a tile computes the tree that it covers.** -/
theorem exists_emit {u : Supply} {v : Value} : (t : Tile) → t.Covers catalogue.trees (.value v) →
    Evaluable known reserved [v] → known ≤ u.registers →
    ∃ code out u', t.emit u = .ok (code, some out) u' ∧ Emits known reserved v [] [] u u' code out
  | ⟨rule, found, leaves, _⟩, ⟨hrule, hfound, hleaves⟩, hv, hu => by
    have hmatch := (matches_of_apply hrule hfound).valueMatches
    have hsub : ∀ x ∈ found.leaves, x.Subtree v := by
      intro x hx
      rcases Pattern.leaves_subtree hfound x hx with hx | ⟨y, hy, hsub⟩
      · cases hx
      · rwa [List.mem_singleton.1 hy] at hsub
    obtain ⟨code, inputs, u₁, hemit, hall⟩ := exists_emitLeaves rule.name leaves hleaves
      (hv.subtrees fun x hx => ⟨v, List.mem_cons_self, hsub x hx⟩) hu
    obtain ⟨own, out, u₂, hgen, hown⟩ :=
      emits_of_matches hmatch hv (Nat.le_trans hu hall.grows) hall.length hall.ready
    refine ⟨code ++ own, out, u₂, ?_, hall.then hown (fun x hx => (hsub x hx).hasCall) ?_⟩
    · exact EStateM.bind_eq_ok.2 ⟨_, _, hemit, EStateM.bind_eq_ok.2 ⟨_, _, hgen, rfl⟩⟩
    · rintro w s ⟨x, s'⟩ hx
      exact hmatch.exists_evalAll hx

/-- The code of tiles computes the trees that they cover. -/
theorem exists_emitLeaves {u : Supply} {vs : List Value} (parent : String) : (ts : List Tile) →
    Tile.CoverAll catalogue.trees ts vs → Evaluable known reserved vs → known ≤ u.registers →
    ∃ code outs u', Tile.emitLeaves parent ts u = .ok (code, outs) u' ∧
      EmitsAll known reserved vs u u' code outs
  | [], hcover, _, _ => by
    cases vs with
    | nil => exact ⟨[], [], u, rfl, emitsAll_nil⟩
    | cons v vs => exact hcover.elim
  | t :: ts, hcover, hvs, hu => by
    cases vs with
    | nil => exact hcover.elim
    | cons v vs =>
      have hfirst : Evaluable known reserved [v] := hvs.subtrees fun x hx => ⟨x, by simp_all, .refl x⟩
      have hrest : Evaluable known reserved vs := hvs.subtrees fun x hx => ⟨x, by simp [hx], .refl x⟩
      obtain ⟨code, out, u₁, hemit, hv⟩ := exists_emit t hcover.1 hfirst hu
      obtain ⟨rest, outs, u₂, hemits, hvs'⟩ :=
        exists_emitLeaves parent ts hcover.2 hrest (Nat.le_trans hu hv.grows)
      refine ⟨code ++ rest, out :: outs, u₂, ?_, hv.cons hvs' hvs hu⟩
      exact EStateM.bind_eq_ok.2 ⟨_, _, hemit, EStateM.bind_eq_ok.2 ⟨_, _, hemits, rfl⟩⟩

end

end Amd64

end Codegen
