/-
  Control-flow graphs.

  The blocks of a graph are numbered, and blocks name their successors by
  number, so that a graph may have cycles and shared blocks.  A successor may
  be missing: after a sequential block control then leaves the function, and
  no pass accepts a branch with a missing arm.

  * `Block.successors` lists where control may continue;
  * `Flow.reachable` lists the blocks reachable from the root in depth-first
    preorder.
-/
import Codegen.Fault

namespace Codegen

/-- A node of a control-flow graph whose blocks are named by `ι`. -/
inductive Block (ι : Type) where
  /-- Run the operations in order, then continue with `next`. -/
  | straight (body : List Stmt) (next : Option ι)
  /-- Continue with `onTrue` if the condition is not zero, else with `onFalse`. -/
  | branch (cond : Value) (onTrue onFalse : Option ι)
  deriving DecidableEq, Repr

namespace Block

variable {ι κ : Type}

/-- The blocks that control may continue with.  The end of a function has no
    successor; a branch has two, each of which may be missing. -/
def successors : Block ι → List (Option ι)
  | straight _ none => []
  | straight _ (some i) => [some i]
  | branch _ t f => [t, f]

/-- The block with its successors renamed. -/
def map (f : ι → κ) : Block ι → Block κ
  | straight body next => straight body (next.map f)
  | branch cond t e => branch cond (t.map f) (e.map f)

/-- The block with its successors renamed, unless a name has no counterpart. -/
def rename? (f : ι → Option κ) : Block ι → Option (Block κ)
  | straight body none => some (straight body none)
  | straight body (some i) => (f i).map fun j => straight body (some j)
  | branch cond t e => do
    let t' ← arm t
    let e' ← arm e
    return branch cond t' e'
where
  arm : Option ι → Option (Option κ)
    | none => some none
    | some i => (f i).map some

end Block

/-- A control-flow graph: its blocks and the block where it is entered. -/
structure Flow where
  size : Nat
  blocks : Vector (Block (Fin size)) size
  root : Option (Fin size)

namespace Flow

/-- The graph without blocks. -/
def empty : Flow := ⟨0, #v[], none⟩

/-- The graph of numbered blocks, if every number used is in range. -/
def ofBlocks? (blocks : Array (Block Nat)) (root : Option Nat) : Option Flow := do
  let name (i : Nat) : Option (Fin blocks.size) := if h : i < blocks.size then some ⟨i, h⟩ else none
  let bs ← blocks.toVector.mapM (Block.rename? name)
  match root with
  | none => return ⟨blocks.size, bs, none⟩
  | some r => return ⟨blocks.size, bs, some (← name r)⟩

/-- The block of a number. -/
def block (g : Flow) (i : Fin g.size) : Block (Fin g.size) := g.blocks.get i

/-- The successors of a block. -/
def successors (g : Flow) (i : Fin g.size) : List (Option (Fin g.size)) := (g.block i).successors

/-- The successors of the root, which must be there. -/
def rootSuccessors (g : Flow) : Except Fault (List (Option (Fin g.size))) :=
  match g.root with
  | none => .error .missingBlock
  | some r => .ok (g.successors r)

/-! ## Traversal

A traversal ends because each block is entered once: the number of blocks not
seen yet shrinks. -/

/-- The number of elements of `Fin n` that are not in a list. -/
def unseen {n : Nat} (seen : List (Fin n)) : Nat :=
  (List.finRange n).countP fun j => !seen.contains j

theorem countP_lt_countP {α : Type} {p q : α → Bool} {l : List α} {a : α} (ha : a ∈ l)
    (hp : p a = true) (hq : q a = false) (h : ∀ b, q b = true → p b = true) :
    l.countP q < l.countP p := by
  induction l with
  | nil => cases ha
  | cons b l ih =>
    have hle : l.countP q ≤ l.countP p := List.countP_mono_left fun x _ hx => h x hx
    rcases List.mem_cons.1 ha with rfl | hmem
    · simp only [List.countP_cons, hp, hq]
      simp; omega
    · have := ih hmem
      simp only [List.countP_cons]
      by_cases hb : q b = true
      · simp only [hb, h b hb]; omega
      · rw [if_neg hb]; split <;> omega

/-- Seeing one more element leaves fewer unseen. -/
theorem unseen_cons_lt {n : Nat} {seen : List (Fin n)} {i : Fin n} (h : i ∉ seen) :
    unseen (i :: seen) < unseen seen := by
  refine countP_lt_countP (List.mem_finRange i) ?_ ?_ ?_
  · simpa using h
  · simp
  · intro j hj
    simp only [List.contains_cons, Bool.not_or, Bool.and_eq_true] at hj
    exact hj.2

/-- Visits the blocks on the stack and what is reachable from them through
    blocks not seen yet; `seen` lists what was visited, the latest first. -/
def visit (g : Flow) : List (Option (Fin g.size)) → List (Fin g.size) → List (Fin g.size)
  | [], seen => seen
  | none :: stack, seen => g.visit stack seen
  | some i :: stack, seen =>
    if i ∈ seen then g.visit stack seen
    else g.visit (g.successors i ++ stack) (i :: seen)
termination_by stack seen => (unseen seen, stack.length)
decreasing_by
  · exact Prod.Lex.right _ (by simp)
  · exact Prod.Lex.right _ (by simp)
  · exact Prod.Lex.left _ _ (unseen_cons_lt ‹_›)

/-- The blocks reachable from the root, in depth-first preorder. -/
def reachable (g : Flow) : List (Fin g.size) := (g.visit [g.root] []).reverse

end Flow

end Codegen
