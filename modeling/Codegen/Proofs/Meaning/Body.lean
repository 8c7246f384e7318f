/-
  The bodies that a backend is made for.

  Trees use the operators that are declared, and calls have as many arguments as
  there are registers for them.  Virtual registers come from the supply.  The
  frame pointer is not written, the registers reserved for spill code are not
  used, and no operation has both a call and a read of a physical register.
-/
import Codegen.Flow.Compress
import Codegen.Rule.Amd64

namespace Codegen

namespace Value

/-- The operators of the tree are declared, and there are registers for the
    arguments of its calls. -/
def Declared : Value → Prop
  | .const _ | .read _ | .address _ => True
  | .load a => a.Declared
  | .binary op l r => op ∈ BinaryOp.declared ∧ l.Declared ∧ r.Declared
  | .unary op v => (op = .not ∨ op = .neg) ∧ v.Declared
  | .call _ n => 0 ≤ n ∧ n ≤ Amd64.convention.arguments.length

/-- The registers that the tree reads. -/
def reads : Value → List Register
  | .const _ | .address _ | .call .. => []
  | .read r => [r]
  | .load a => a.reads
  | .binary _ l r => l.reads ++ r.reads
  | .unary _ v => v.reads

/-- The registers that calls of the tree use: those of the arguments and of the
    result. -/
def implied : Value → List Physical
  | .const _ | .address _ | .read _ => []
  | .load a => a.implied
  | .binary _ l r => l.implied ++ r.implied
  | .unary _ v => v.implied
  | .call _ n => Amd64.convention.result :: Amd64.convention.arguments.take n.toNat

/-- Is there a call in the tree? -/
def hasCall : Value → Bool
  | .const _ | .address _ | .read _ => false
  | .load a => a.hasCall
  | .binary _ l r => l.hasCall || r.hasCall
  | .unary _ v => v.hasCall
  | .call .. => true

/-- The first tree is a part of the second one. -/
inductive Subtree : Value → Value → Prop
  | refl (v : Value) : Subtree v v
  | load {v a : Value} (h : Subtree v a) : Subtree v (.load a)
  | left {v l r : Value} {op : BinaryOp} (h : Subtree v l) : Subtree v (.binary op l r)
  | right {v l r : Value} {op : BinaryOp} (h : Subtree v r) : Subtree v (.binary op l r)
  | unary {v x : Value} {op : UnaryOp} (h : Subtree v x) : Subtree v (.unary op x)

namespace Subtree

variable {v u : Value}

theorem declared (h : Subtree v u) (hu : u.Declared) : v.Declared := by
  induction h with
  | refl => exact hu
  | load _ ih => exact ih hu
  | left _ ih => exact ih hu.2.1
  | right _ ih => exact ih hu.2.2
  | unary _ ih => exact ih hu.2

theorem reads (h : Subtree v u) : v.reads ⊆ u.reads := by
  induction h with
  | refl => exact List.Subset.refl _
  | load _ ih => exact ih
  | left _ ih => exact fun r hr => List.mem_append_left _ (ih hr)
  | right _ ih => exact fun r hr => List.mem_append_right _ (ih hr)
  | unary _ ih => exact ih

theorem implied (h : Subtree v u) : v.implied ⊆ u.implied := by
  induction h with
  | refl => exact List.Subset.refl _
  | load _ ih => exact ih
  | left _ ih => exact fun r hr => List.mem_append_left _ (ih hr)
  | right _ ih => exact fun r hr => List.mem_append_right _ (ih hr)
  | unary _ ih => exact ih

theorem hasCall (h : Subtree v u) (hv : v.hasCall = true) : u.hasCall = true := by
  induction h with
  | refl => exact hv
  | load _ ih => exact ih
  | left _ ih => simp [Value.hasCall, ih]
  | right _ ih => simp [Value.hasCall, ih]
  | unary _ ih => exact ih

end Subtree

end Value

/-- Trees that are evaluated one after the other in a single operation: their
    virtual registers are among the first `known`, and they do not use the
    `reserved` registers. -/
structure Evaluable (known : Nat) (reserved : List Physical) (vs : List Value) : Prop where
  declared : ∀ v ∈ vs, v.Declared
  known : ∀ v ∈ vs, ∀ id, .virtual id ∈ v.reads → id ≤ known
  free : ∀ v ∈ vs, ∀ p ∈ reserved, .physical p ∉ v.reads ∧ p ∉ v.implied
  /-- No tree calls if one of them reads a physical register. -/
  separate : ∀ v ∈ vs, v.hasCall = true → ∀ u ∈ vs, ∀ r ∈ u.reads, r.isPhysical = false

/-- Parts of trees can be evaluated, too. -/
theorem Evaluable.subtrees {known : Nat} {reserved : List Physical} {vs us : List Value}
    (h : Evaluable known reserved us) (hsub : ∀ v ∈ vs, ∃ u ∈ us, v.Subtree u) :
    Evaluable known reserved vs where
  declared v hv := by
    obtain ⟨u, hu, hvu⟩ := hsub v hv
    exact hvu.declared (h.declared u hu)
  known v hv id hid := by
    obtain ⟨u, hu, hvu⟩ := hsub v hv
    exact h.known u hu id (hvu.reads hid)
  free v hv p hp := by
    obtain ⟨u, hu, hvu⟩ := hsub v hv
    exact ⟨fun hr => (h.free u hu p hp).1 (hvu.reads hr), fun hi => (h.free u hu p hp).2 (hvu.implied hi)⟩
  separate v hv hcall v' hv' r hr := by
    obtain ⟨u, hu, hvu⟩ := hsub v hv
    obtain ⟨u', hu', hvu'⟩ := hsub v' hv'
    exact h.separate u hu (hvu.hasCall hcall) u' hu' r (hvu'.reads hr)

namespace Stmt

/-- The trees of an operation in the order of evaluation. -/
def values : Stmt → List Value
  | .value v | .write _ v => [v]
  | .store a v => [a, v]
  | .ret _ => []

/-- An operation that a backend is made for. -/
structure Sound (known : Nat) (reserved : List Physical) (op : Stmt) : Prop where
  values : Evaluable known reserved op.values
  /-- A register that is written is known, not reserved, and not the frame
      pointer. -/
  written : ∀ r v, op = .write r v → r ≠ Amd64.convention.framePointer ∧
    (∀ id, r = .virtual id → id ≤ known) ∧ ∀ p : Physical, r = p → p ∉ reserved
  /-- A value is not returned in a reserved register. -/
  returned : op = .ret true → Amd64.convention.result ∉ reserved

end Stmt

/-- A body that a backend is made for. -/
structure Flow.Sound (g : Flow) (known : Nat) (reserved : List Physical) : Prop where
  /-- Branches have both arms. -/
  arms : ∀ i cond t f, g.block i = .branch cond t f → t.isSome = true ∧ f.isSome = true
  operations : ∀ i body next, g.block i = .straight body next → ∀ op ∈ body, op.Sound known reserved
  conditions : ∀ i cond t f, g.block i = .branch cond t f → Evaluable known reserved [cond]

end Codegen
