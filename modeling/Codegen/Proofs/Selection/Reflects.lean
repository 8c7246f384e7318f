/-
  Machines that reflect states.

  A machine reflects a state of the interpreter if it has what is defined there:
  the registers that the state knows and the memory.  Registers drawn later are
  free.  What the interpreter does to a state is done to the machine by writes,
  stores and calls.
-/
import Codegen.Proofs.Machine.Code
import Codegen.Proofs.Meaning.Body
import Codegen.Proofs.Meaning.Interpreter

namespace Codegen

namespace Register

/-- A physical register, or a virtual one among the first so many. -/
def Known (known : Nat) (r : Register) : Prop := ∀ id, r = .virtual id → id ≤ known

/-- A virtual register drawn from the supply between two moments. -/
def Between (lo hi : Nat) (r : Register) : Prop := ∃ id, r = .virtual id ∧ lo < id ∧ id ≤ hi

instance (known : Nat) : DecidablePred (Known known)
  | .virtual id => decidable_of_iff (id ≤ known) ⟨fun h _ e => by cases e; exact h, fun h => h id rfl⟩
  | .physical _ => .isTrue nofun

theorem known_physical (known : Nat) (p : Physical) : Known known p := nofun

theorem Known.mono {known known' : Nat} {r : Register} (h : r.Known known) (hle : known ≤ known') :
    r.Known known' := fun id e => Nat.le_trans (h id e) hle

theorem Between.mono {lo hi lo' hi' : Nat} {r : Register} (h : r.Between lo hi) (hlo : lo' ≤ lo)
    (hhi : hi ≤ hi') : r.Between lo' hi' := by
  obtain ⟨id, rfl, h₁, h₂⟩ := h
  exact ⟨id, rfl, by omega, by omega⟩

theorem Between.known {lo hi : Nat} {r : Register} (h : r.Between lo hi) : r.Known hi := by
  obtain ⟨id, rfl, -, h⟩ := h
  intro id' e
  cases e
  exact h

theorem Between.not_known {lo hi : Nat} {r : Register} (h : r.Between lo hi) : ¬ r.Known lo := by
  obtain ⟨id, rfl, h, -⟩ := h
  intro hk
  have := hk id rfl
  omega

end Register

/-- The words that a body may access. -/
def World.near (w : World) (a : Word) : Prop := a ∉ w.hidden

/-- The machine has the registers and the memory that the state defines. -/
structure Reflects (w : World) (known : Nat) (s : State) (m : Machine) : Prop where
  hooks : m.hooks = w.hooks
  globals : m.globals = w.globals
  registers : ∀ {r x}, r.Known known → s.registers r = some x → m.read r = .ok x
  memory : ∀ a, m.word a = s.memory a

namespace Reflects

variable {w : World} {known : Nat} {s : State} {m : Machine} {r : Register} {x a : Word}

theorem tick (h : Reflects w known s m) : Reflects w known s m.tick :=
  ⟨h.hooks, h.globals, h.registers, h.memory⟩

theorem compare (h : Reflects w known s m) (c : Word × Word) :
    Reflects w known s { m with compared := c } :=
  ⟨h.hooks, h.globals, h.registers, h.memory⟩

theorem write (h : Reflects w known s m) (r : Register) (x : Word) :
    Reflects w known (s.write r x) (m.write r x) where
  hooks := h.hooks
  globals := h.globals
  registers := fun {r' x'} hr' hx' => by
    rw [Machine.read_write]
    simp only [State.write] at hx'
    split at hx'
    · next e => rw [if_pos e, Option.some.inj hx']
    · next e => rw [if_neg e]; exact h.registers hr' hx'
  memory := h.memory

/-- A register that the state does not know may be written. -/
theorem scratch (h : Reflects w known s m) (hr : ¬ r.Known known) (x : Word) :
    Reflects w known s (m.write r x) where
  hooks := h.hooks
  globals := h.globals
  registers := fun {r' x'} hr' hx' => by
    rw [Machine.read_write, if_neg]
    · exact h.registers hr' hx'
    · rintro rfl; exact hr hr'
  memory := h.memory

theorem store (h : Reflects w known s m) (a x : Word) :
    Reflects w known (s.store a x) (m.store a x) where
  hooks := h.hooks
  globals := h.globals
  registers := h.registers
  memory b := by
    simp only [Machine.word, Machine.store, State.store]
    by_cases hb : b = a
    · subst hb; simp
    · rw [Bindings.get?_set_ne _ _ hb, if_neg hb]; exact h.memory b

/-- After a call, the caller-saved registers are undefined, but for the result. -/
theorem afterCall (h : Reflects w known s m) (x : Word) :
    Reflects w known (s.afterCall x)
      ((m.poison (Amd64.convention.callerSaved.map Register.physical)).write Machine.resultRegister x) where
  hooks := h.hooks
  globals := h.globals
  registers := fun {r' x'} hr' hx' => by
    rw [Machine.read_write, Machine.read_poison]
    change (if r' = Machine.resultRegister then _ else _) = _ at hx'
    split at hx'
    · next e => rw [if_pos e, Option.some.inj hx']
    · next e =>
      split at hx'
      · cases hx'
      · next hsaved => rw [if_neg e, if_neg hsaved]; exact h.registers hr' hx'
  memory := h.memory

/-- The address of a label and a displacement. -/
theorem denotes_label (h : Reflects w known s m) {l : Label} (hl : w.address? l = some x) (d : Word) :
    m.Denotes ⟨l, none, d⟩ (x + d) := by
  refine Machine.denotes_label d ?_
  unfold World.address? at hl
  split
  · next e => rw [if_pos e] at hl; exact (Option.some.inj hl).symm
  · next e => rw [if_neg e] at hl; rw [h.globals]; exact hl

end Reflects

/-! ## Evaluation, taken apart -/

namespace World

variable {w : World} {s s' : State} {x : Word}

section
-- the lemmas below open the definition, nothing after them does
attribute [local simp] eval

theorem eval_load {a : Value} :
    w.eval (.load a) s = some (x, s') ↔
      ∃ y, w.eval a s = some (y, s') ∧ w.near y ∧ s'.memory y = x := by
  simp only [eval, near]
  constructor
  · intro h
    obtain ⟨⟨y, s₁⟩, ha, h⟩ := Option.bind_eq_some_iff.1 h
    split at h
    · cases h
    · next hy => cases h; exact ⟨y, ha, hy, rfl⟩
  · rintro ⟨y, ha, hy, rfl⟩
    rw [ha]
    exact if_neg hy

theorem eval_binary {op : BinaryOp} {l r : Value} :
    w.eval (.binary op l r) s = some (x, s') ↔
      ∃ y s₁ z, w.eval l s = some (y, s₁) ∧ w.eval r s₁ = some (z, s') ∧ op.apply? y z = some x := by
  simp only [eval]
  constructor
  · intro h
    obtain ⟨⟨y, s₁⟩, hl, h⟩ := Option.bind_eq_some_iff.1 h
    obtain ⟨⟨z, s₂⟩, hr, h⟩ := Option.bind_eq_some_iff.1 h
    obtain ⟨v, hv, h⟩ := Option.bind_eq_some_iff.1 h
    cases h
    exact ⟨y, s₁, z, hl, hr, hv⟩
  · rintro ⟨y, s₁, z, hl, hr, hv⟩
    simp [hl, hr, hv]

theorem eval_unary {op : UnaryOp} {v : Value} :
    w.eval (.unary op v) s = some (x, s') ↔
      ∃ y, w.eval v s = some (y, s') ∧ op.apply? y = some x := by
  simp only [eval]
  constructor
  · intro h
    obtain ⟨⟨y, s₁⟩, hl, h⟩ := Option.bind_eq_some_iff.1 h
    obtain ⟨v, hv, h⟩ := Option.bind_eq_some_iff.1 h
    cases h
    exact ⟨y, hl, hv⟩
  · rintro ⟨y, hl, hv⟩
    simp [hl, hv]

theorem eval_read {r : Register} :
    w.eval (.read r) s = some (x, s') ↔ s.registers r = some x ∧ s = s' := by
  simp

theorem eval_const {c : Word} : w.eval (.const c) s = some (x, s') ↔ c = x ∧ s = s' := by
  simp

theorem eval_address {l : Label} :
    w.eval (.address l) s = some (x, s') ↔ w.address? l = some x ∧ s = s' := by
  simp

theorem eval_call {f : Label} {n : Int} :
    w.eval (.call f n) s = some (x, s') ↔
      ∃ hook xs, w.hooks.get? f = some hook ∧
        ((Amd64.convention.arguments.take n.toNat).map Register.physical).mapM s.registers = some xs ∧
        hook xs = .ok x ∧ s.afterCall x = s' := by
  have hcall : w.call? s f n = some x ↔ ∃ hook xs, w.hooks.get? f = some hook ∧
      ((Amd64.convention.arguments.take n.toNat).map Register.physical).mapM s.registers = some xs ∧
      hook xs = .ok x := by
    refine Option.bind_eq_some_iff.trans (exists_congr fun hook => ?_)
    constructor
    · rintro ⟨hhook, h⟩
      obtain ⟨xs, hxs, h⟩ := Option.bind_eq_some_iff.1 h
      exact ⟨xs, hhook, hxs, by cases e : hook xs <;> rw [e] at h <;> cases h; rfl⟩
    · rintro ⟨xs, hhook, hxs, h⟩
      exact ⟨hhook, Option.bind_eq_some_iff.2 ⟨xs, hxs, by rw [h]; rfl⟩⟩
  rw [eval, Option.map_eq_some_iff]
  constructor
  · rintro ⟨y, hy, e⟩
    cases e
    obtain ⟨hook, xs, h₁, h₂, h₃⟩ := hcall.1 hy
    exact ⟨hook, xs, h₁, h₂, h₃, rfl⟩
  · rintro ⟨hook, xs, h₁, h₂, h₃, rfl⟩
    exact ⟨x, hcall.2 ⟨hook, xs, h₁, h₂, h₃⟩, rfl⟩

end

/-- The values of trees that are evaluated one after the other, and the state
    afterwards. -/
def evalAll (w : World) : List Value → State → Option (List Word × State)
  | [], s => some ([], s)
  | v :: vs, s => do
    let (x, s) ← w.eval v s
    let (xs, s) ← w.evalAll vs s
    return (x :: xs, s)

theorem evalAll_cons {v : Value} {vs : List Value} {xs : List Word} :
    w.evalAll (v :: vs) s = some (xs, s') ↔
      ∃ x s₁ ys, w.eval v s = some (x, s₁) ∧ w.evalAll vs s₁ = some (ys, s') ∧ x :: ys = xs := by
  simp only [evalAll]
  constructor
  · intro h
    obtain ⟨⟨y, s₁⟩, hl, h⟩ := Option.bind_eq_some_iff.1 h
    obtain ⟨⟨ys, s₂⟩, hr, h⟩ := Option.bind_eq_some_iff.1 h
    cases h
    exact ⟨y, s₁, ys, hl, hr, rfl⟩
  · rintro ⟨y, s₁, ys, hl, hr, rfl⟩
    simp [hl, hr]

theorem evalAll_one {v : Value} {x : Word} (h : w.eval v s = some (x, s')) :
    w.evalAll [v] s = some ([x], s') :=
  evalAll_cons.2 ⟨x, s', [], h, rfl, rfl⟩

theorem evalAll_two {v v' : Value} {x y : Word} {s₁ : State} (h : w.eval v s = some (x, s₁))
    (h' : w.eval v' s₁ = some (y, s')) : w.evalAll [v, v'] s = some ([x, y], s') :=
  evalAll_cons.2 ⟨x, s₁, [y], h, evalAll_one h', rfl⟩

theorem evalAll_nil_self : w.evalAll [] s = some ([], s) := rfl

theorem evalAll_nil {xs : List Word} : w.evalAll [] s = some (xs, s') ↔ [] = xs ∧ s = s' := by
  simp [evalAll]

theorem exec_value {v : Value} {o : Outcome} :
    w.exec (.value v) s = some o ↔ ∃ x s', w.eval v s = some (x, s') ∧ .goes s' = o := by
  simp only [exec, Option.map_eq_some_iff, Prod.exists]

theorem exec_write {r : Register} {v : Value} {o : Outcome} :
    w.exec (.write r v) s = some o ↔
      ∃ x s', w.eval v s = some (x, s') ∧ .goes (s'.write r x) = o := by
  simp only [exec, Option.map_eq_some_iff, Prod.exists]

theorem exec_store {a v : Value} {o : Outcome} :
    w.exec (.store a v) s = some o ↔
      ∃ x s₁ y s₂, w.eval a s = some (x, s₁) ∧ w.eval v s₁ = some (y, s₂) ∧ w.near x ∧
        .goes (s₂.store x y) = o := by
  simp only [exec, near]
  constructor
  · intro h
    obtain ⟨⟨x, s₁⟩, ha, h⟩ := Option.bind_eq_some_iff.1 h
    obtain ⟨⟨y, s₂⟩, hv, h⟩ := Option.bind_eq_some_iff.1 h
    split at h
    · cases h
    · next hx => cases h; exact ⟨x, s₁, y, s₂, ha, hv, hx, rfl⟩
  · rintro ⟨x, s₁, y, s₂, ha, hv, hx, rfl⟩
    rw [ha]
    refine Option.bind_eq_some_iff.2 ⟨_, rfl, Option.bind_eq_some_iff.2 ⟨_, hv, if_neg hx⟩⟩

end World

end Codegen
