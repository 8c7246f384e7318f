/-
  Straight-line code.

  * What an instruction does if its operands can be read (`execute_mov_reg` and
    so on);
  * `Machine.Runs` is a run through a list of instructions none of which transfers
    control, wherever the list stands;
  * if the list stands in the stream of the machine, these are steps of the machine
    (`Runs.safeSteps`).

  All accesses of memory are to near addresses.
-/
import Codegen.Proofs.Machine.Runs

namespace Codegen

/-! ## Operands that can be read -/

namespace Machine

/-- The memory operand denotes an address, whatever labels get addresses later. -/
def Denotes (m : Machine) (o : Mem) (a : Word) : Prop :=
  ∀ G, Extends m.globals G →
    Exec.address o { m with globals := G } = .ok a { m with globals := G }

theorem Denotes.address {m : Machine} {o : Mem} {a : Word} (h : m.Denotes o a) :
    Exec.address o m = .ok a m := h m.globals (Extends.refl _)

/-- The address of a register and a displacement. -/
theorem denotes_base {m : Machine} {b : Register} {x : Word} (d : Word) (h : m.read b = .ok x) :
    m.Denotes ⟨Label.none, some b, d⟩ (x + d) := by
  intro G _
  rw [show x + d = d + 0 + x by simp [Int64.add_comm]]
  exact EStateM.bind_eq_ok.2 ⟨0, _, rfl,
    EStateM.bind_eq_ok.2 ⟨x, _, Exec.read_eq_ok.2 ⟨rfl, h⟩, rfl⟩⟩

/-- The address of a label and a displacement. -/
theorem denotes_label {m : Machine} {l : Label} {x : Word} (d : Word)
    (h : if l = Label.none then x = 0 else m.globals.lookup l = some x) :
    m.Denotes ⟨l, none, d⟩ (x + d) := by
  intro G hG
  rw [show x + d = d + x + 0 by simp [Int64.add_comm]]
  refine EStateM.bind_eq_ok.2 ⟨x, _, ?_, EStateM.bind_eq_ok.2 ⟨0, _, rfl, rfl⟩⟩
  unfold Exec.anchor
  split
  · next hl => rw [if_pos hl] at h; rw [h]; rfl
  · next hl =>
    rw [if_neg hl] at h
    have e : ({ m with globals := G } : Machine).globalAddress l = (x, { m with globals := G }) := by
      simp only [globalAddress, hG h]
    change EStateM.Result.ok (({ m with globals := G } : Machine).globalAddress l).1
      (({ m with globals := G } : Machine).globalAddress l).2 = _
    rw [e]

end Machine

namespace Exec

variable {m : Machine} {d r : Register} {x y a : Word} {o : Mem} {src : Operand} {op : String}

theorem load_imm : load (.imm x) m = .ok x m := rfl

theorem load_reg (h : m.read r = .ok x) : load (.reg r) m = .ok x m := read_eq_ok.2 ⟨rfl, h⟩

theorem load_mem (h : m.Denotes o a) : load (.mem o) m = .ok (m.word a) m :=
  EStateM.bind_eq_ok.2 ⟨a, m, h.address, rfl⟩

theorem execute_mov_reg (h : load src m = .ok x m) :
    execute (.mov (.reg d) src) m = .ok () (m.write d x) :=
  EStateM.bind_eq_ok.2 ⟨x, m, h, rfl⟩

theorem execute_mov_mem (h : load src m = .ok x m) (ha : m.Denotes o a) :
    execute (.mov (.mem o) src) m = .ok () (m.store a x) :=
  EStateM.bind_eq_ok.2 ⟨x, m, h, EStateM.bind_eq_ok.2 ⟨a, m, ha.address, rfl⟩⟩

theorem execute_binary {f : Word → Word → Word} (hd : m.read d = .ok x) (h : load src m = .ok y m)
    (hop : op ≠ "cmp") (hf : arithmetic? op = some f) :
    execute (.binary op (.reg d) src) m = .ok () (m.write d (f x y)) := by
  refine EStateM.bind_eq_ok.2 ⟨x, m, load_reg hd, EStateM.bind_eq_ok.2 ⟨y, m, h, ?_⟩⟩
  simp only [if_neg hop, hf]
  rfl

theorem execute_cmp (hd : m.read d = .ok x) (h : load src m = .ok y m) :
    execute (.binary "cmp" (.reg d) src) m = .ok () { m with compared := (x, y) } :=
  EStateM.bind_eq_ok.2 ⟨x, m, load_reg hd, EStateM.bind_eq_ok.2 ⟨y, m, h, rfl⟩⟩

theorem execute_unary {f : Word → Word} (hd : m.read d = .ok x) (hf : change? op = some f) :
    execute (.unary op d) m = .ok () (m.write d (f x)) := by
  refine EStateM.bind_eq_ok.2 ⟨x, m, load_reg hd, ?_⟩
  simp only [hf]
  rfl

theorem execute_setcc {test : Word → Word → Bool} (hd : m.read d = .ok x)
    (hop : condition? op = some test) :
    execute (.setcc op d) m =
      .ok () (m.write d ((x &&& ~~~255) ||| Word.ofBool (test m.compared.1 m.compared.2))) :=
  EStateM.bind_eq_ok.2 ⟨x, m, load_reg hd,
    EStateM.bind_eq_ok.2 ⟨_, m, holds_eq_ok.2 ⟨rfl, test, hop, rfl⟩, rfl⟩⟩

theorem execute_lea (h : m.Denotes o a) : execute (.lea d o) m = .ok () (m.write d a) :=
  EStateM.bind_eq_ok.2 ⟨a, m, h.address, rfl⟩

theorem mapM_read_eq_ok {rs : List Register} {xs : List Word}
    (h : List.Forall₂ (fun r x => m.read r = .ok x) rs xs) : rs.mapM read m = .ok xs m := by
  induction h with
  | nil => rfl
  | cons hr _ ih =>
    rw [List.mapM_cons]
    exact EStateM.bind_eq_ok.2 ⟨_, m, read_eq_ok.2 ⟨rfl, hr⟩, EStateM.bind_eq_ok.2 ⟨_, m, ih, rfl⟩⟩

theorem execute_call {l : Label} {arguments clobbers : List Register} {xs : List Word} {hook : Hook}
    (hhook : m.hooks.get? l = some hook)
    (h : List.Forall₂ (fun r x => m.read r = .ok x) arguments xs) (hx : hook xs = .ok x) :
    execute (.call l arguments clobbers) m =
      .ok () ((m.poison clobbers).write Machine.resultRegister x) := by
  refine call_eq_ok.2 ⟨hook, hhook, EStateM.bind_eq_ok.2 ⟨xs, m, mapM_read_eq_ok h, ?_⟩⟩
  refine EStateM.bind_eq_ok.2 ⟨(), m.poison clobbers, rfl, ?_⟩
  rw [hx]
  rfl

section
variable {l : Label} {j : Nat} {cc : String} {test : Word → Word → Bool}

theorem execute_jmp (h : m.labels.get? l = some j) :
    execute (.jmp l) m = .ok () { m with position := j } :=
  EStateM.bind_eq_ok.2 ⟨m, m, rfl, by rw [h]; rfl⟩

theorem execute_jcc_true (hcc : condition? cc = some test)
    (htest : test m.compared.1 m.compared.2 = true) (h : m.labels.get? l = some j) :
    execute (.jcc cc l) m = .ok () { m with position := j } :=
  EStateM.bind_eq_ok.2 ⟨true, m, holds_eq_ok.2 ⟨rfl, test, hcc, htest⟩, execute_jmp h⟩

theorem execute_jcc_false (hcc : condition? cc = some test)
    (htest : test m.compared.1 m.compared.2 = false) : execute (.jcc cc l) m = .ok () m :=
  EStateM.bind_eq_ok.2 ⟨false, m, holds_eq_ok.2 ⟨rfl, test, hcc, htest⟩, rfl⟩

end

end Exec

/-- Control goes on after the instruction. -/
def Instr.Straight (i : Instr) : Prop := i.target? = none ∧ i.fallsThrough = true

theorem Instr.Straight.sameControl {i : Instr} {m n : Machine} (hi : i.Straight)
    (e : Exec.execute i m = .ok () n) : Exec.SameControl m n := by
  cases (Exec.control_execute e).1 with
  | falls h _ => exact h
  | jumps hl _ _ => rw [hi.1] at hl; cases hl
  | returns h _ => rw [h] at hi; cases hi.2

/-! ## Safe steps -/

namespace Machine

variable {near : Word → Prop} {m n : Machine} {i : Instr} {code code' : List Instr}

/-- The memory operands of the instruction denote near addresses. -/
def Safe (near : Word → Prop) (i : Instr) (m : Machine) : Prop := Exec.Near near i.memories m

theorem safe_of_denotes (h : ∀ o ∈ i.memories, ∃ a, m.Denotes o a ∧ near a) : Safe near i m := by
  have key : ∀ os : List Mem, (∀ o ∈ os, ∃ a, m.Denotes o a ∧ near a) → Exec.Near near os m := by
    intro os
    induction os with
    | nil => exact fun _ => trivial
    | cons o os ih =>
      intro h a n e
      obtain ⟨a', ha', hnear⟩ := h o List.mem_cons_self
      rw [ha'.address] at e
      cases e
      exact ⟨hnear, ih fun o ho => h o (List.mem_cons_of_mem _ ho)⟩
  exact key _ h

theorem safe_of_forall (h : ∀ a, near a) (i : Instr) (m : Machine) : Safe near i m :=
  Exec.near_of_forall h _ m

/-- The machine executes instructions that use near addresses only. -/
inductive SafeSteps (near : Word → Prop) : Machine → Machine → Prop
  | refl (m : Machine) : SafeSteps near m m
  | head {m₁ m₂ m₃ : Machine} {i : Instr} {k : Nat} (hret : m₁.returned = false)
      (hnext : Exec.firstInstr m₁.position (m₁.items.drop m₁.position) = some (i, k))
      (hsafe : Safe near i (m₁.fetch k)) (e : Exec.execute i (m₁.fetch k) = .ok () m₂)
      (hs : SafeSteps near m₂ m₃) : SafeSteps near m₁ m₃

theorem SafeSteps.trans {m₁ m₂ m₃ : Machine} (h : SafeSteps near m₁ m₂)
    (h' : SafeSteps near m₂ m₃) : SafeSteps near m₁ m₃ := by
  induction h with
  | refl => exact h'
  | head hret hnext hsafe e _ ih => exact .head hret hnext hsafe e (ih h')

theorem SafeSteps.steps (h : SafeSteps near m n) : ∃ j, Steps j m n := by
  induction h with
  | refl m => exact ⟨0, .refl m⟩
  | head hret hnext _ e _ ih =>
    obtain ⟨j, hs⟩ := ih
    exact ⟨j + 1, .head ⟨hret, _, _, hnext, e⟩ hs⟩

/-- A label in front of the next instruction is skipped. -/
theorem SafeSteps.skip {l : Label} (hl : m.items[m.position]? = some (.label l))
    (hret : m.returned = false) (hn : n.returned = true)
    (h : SafeSteps near { m with position := m.position + 1 } n) : SafeSteps near m n := by
  cases h with
  | refl => rw [show m.returned = true from hn] at hret; cases hret
  | head _ hnext hsafe e hs =>
    refine .head hret ?_ hsafe e hs
    rw [List.drop_eq_getElem?_toList_append, hl]
    exact hnext

/-! ## Code -/

/-- The machine about to execute the instruction at its position. -/
def tick (m : Machine) : Machine := m.fetch m.position

/-- The machine runs through instructions that do not transfer control. -/
inductive Runs (near : Word → Prop) : List Instr → Machine → Machine → Prop
  | nil (m : Machine) : Runs near [] m m
  | cons {i : Instr} {code : List Instr} {m₁ m₂ m₃ : Machine} (hi : i.Straight)
      (hsafe : Safe near i m₁.tick) (e : Exec.execute i m₁.tick = .ok () m₂)
      (h : Runs near code m₂ m₃) : Runs near (i :: code) m₁ m₃

theorem Runs.append {m₁ m₂ m₃ : Machine} (h : Runs near code m₁ m₂) (h' : Runs near code' m₂ m₃) :
    Runs near (code ++ code') m₁ m₃ := by
  induction h with
  | nil => exact h'
  | cons hi hsafe e _ ih => exact .cons hi hsafe e (ih h')

theorem Runs.single (hi : i.Straight) (hsafe : Safe near i m.tick)
    (e : Exec.execute i m.tick = .ok () n) : Runs near [i] m n := .cons hi hsafe e (.nil n)

/-- A run through code ends right behind it. -/
theorem Runs.control (h : Runs near code m n) :
    n.items = m.items ∧ n.labels = m.labels ∧ n.returned = m.returned ∧
      n.position = m.position + code.length := by
  induction h with
  | nil => exact ⟨rfl, rfl, rfl, rfl⟩
  | cons hi _ e _ ih =>
    obtain ⟨h₁, h₂, h₃, h₄⟩ := ih
    have hs := hi.sameControl e
    refine ⟨h₁.trans hs.items, h₂.trans hs.labels, h₃.trans hs.returned, ?_⟩
    rw [h₄, hs.position, List.length_cons]
    change _ + 1 + _ = _
    omega

/-- A run through code changes only what its instructions define. -/
theorem Runs.read_eq (h : Runs near code m n) {r : Register}
    (hr : ∀ i ∈ code, r ∉ Exec.changes i) : n.read r = m.read r := by
  induction h with
  | nil => rfl
  | cons hi _ e _ ih =>
    rw [ih fun i hi => hr i (List.mem_cons_of_mem _ hi)]
    exact (Exec.control_execute e).2 r (hr _ List.mem_cons_self)

end Machine

namespace Stream

/-- The code stands at a position of the stream. -/
def At (items : Stream) (q : Nat) (code : List Instr) : Prop := code.map Item.instr <+: items.drop q

variable {items : Stream} {q : Nat} {i : Instr} {code code' : List Instr}

theorem at_append :
    items.At q (code ++ code') ↔ items.At q code ∧ items.At (q + code.length) code' := by
  unfold At
  rw [List.map_append, ← List.drop_drop]
  constructor
  · rintro ⟨rest, h⟩
    rw [List.append_assoc] at h
    refine ⟨⟨_, h⟩, rest, ?_⟩
    rw [← h, List.drop_append_of_le_length (by simp), List.drop_of_length_le (by simp)]
    rfl
  · rintro ⟨⟨rest, h⟩, rest', h'⟩
    rw [← h, List.drop_append_of_le_length (by simp), List.drop_of_length_le (by simp),
      List.nil_append] at h'
    exact ⟨rest', by rw [← h, ← h', List.append_assoc]⟩

theorem At.firstInstr (h : items.At q (i :: code)) :
    Exec.firstInstr q (items.drop q) = some (i, q) := by
  obtain ⟨rest, h⟩ := h
  rw [← h]
  rfl

end Stream

/-- The instruction at the position of a machine is executed. -/
theorem Machine.SafeSteps.single {near : Word → Prop} {m n : Machine} {i : Instr} {code : List Instr}
    (hcode : m.items.At m.position (i :: code)) (hret : m.returned = false)
    (hsafe : Safe near i m.tick) (e : Exec.execute i m.tick = .ok () n) : SafeSteps near m n :=
  .head hret hcode.firstInstr hsafe e (.refl n)

/-- The instruction at the position of a machine, which uses no memory, is executed. -/
theorem Machine.SafeSteps.one {near : Word → Prop} {m n : Machine} {i : Instr} {code : List Instr}
    (hcode : m.items.At m.position (i :: code)) (hret : m.returned = false)
    (hmem : i.memories = []) (e : Exec.execute i m.tick = .ok () n) : SafeSteps near m n :=
  .single hcode hret (safe_of_denotes fun o ho => by rw [hmem] at ho; cases ho) e

/-- Code that stands in the stream of a machine is executed by its steps. -/
theorem Machine.Runs.safeSteps {near : Word → Prop} {m n : Machine} {code : List Instr}
    (h : Runs near code m n) (hcode : m.items.At m.position code) (hret : m.returned = false) :
    SafeSteps near m n := by
  induction h with
  | nil => exact .refl _
  | @cons i code m₁ m₂ m₃ hi hsafe e h ih =>
    have hs := hi.sameControl e
    refine .head hret hcode.firstInstr hsafe e (ih ?_ (hs.returned.trans hret))
    rw [hs.items, hs.position]
    exact (Stream.at_append.1 (show m₁.items.At m₁.position ([i] ++ code) from hcode)).2

end Codegen
