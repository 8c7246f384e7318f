/-
  Merging chains of sequential blocks.

  A sequential block that is entered by exactly one edge, from a sequential
  block, is absorbed into its predecessor.  The entry into the graph counts as
  an edge into the root.

  * `Flow.inDegrees` counts the edges that enter each reachable block; a block
    that was not reached has none;
  * `Flow.compress` is the graph with every chain merged.  A block keeps its
    number; what was absorbed is no longer reachable.
-/
import Codegen.Flow.Basic
import Codegen.Indexed

namespace Codegen.Flow

/-! ## Entering edges -/

/-- The number of blocks without an entering edge. -/
def untouched {n : Nat} (deg : Vector Nat n) : Nat :=
  (List.finRange n).countP fun j => deg.get j == 0

/-- Counts the edges to the listed successors.  A successor met for the first
    time goes on the stack. -/
def enter {n : Nat} : List (Option (Fin n)) → List (Fin n) → Vector Nat n →
    Except Fault (List (Fin n) × Vector Nat n)
  | [], stack, deg => .ok (stack, deg)
  | none :: _, _, _ => .error .missingArm
  | some s :: rest, stack, deg =>
    enter rest (if deg.get s = 0 then s :: stack else stack) (deg.set s (deg.get s + 1) s.isLt)

/-- Counting an edge into an untouched block touches one block. -/
theorem untouched_set_zero {n : Nat} (deg : Vector Nat n) (s : Fin n) (v : Nat) (h : deg.get s = 0) :
    untouched (deg.set s (v + 1) s.isLt) + 1 = untouched deg := by
  have key : ∀ l : List (Fin n), l.Nodup →
      l.countP (fun j => (deg.set s (v + 1) s.isLt).get j == 0) + (if s ∈ l then 1 else 0) =
        l.countP fun j => deg.get j == 0 := by
    intro l hl
    induction l with
    | nil => simp
    | cons a l ih =>
      obtain ⟨hal, hl⟩ := List.nodup_cons.1 hl
      have := ih hl
      by_cases ha : a = s
      · subst ha
        rw [if_neg hal] at this
        simp only [List.countP_cons, List.mem_cons, true_or, if_true, ← this]
        simp [h]
      · have e := Indexed.get_set_ne deg (v + 1) ha
        simp only [List.countP_cons, List.mem_cons, e, Ne.symm ha, false_or]
        omega
  have := key (List.finRange n) (List.nodup_finRange n)
  rwa [if_pos (List.mem_finRange s)] at this

/-- Counting an edge into another block touches none. -/
theorem untouched_set_pos {n : Nat} (deg : Vector Nat n) (s : Fin n) (v : Nat) (h : deg.get s ≠ 0) :
    untouched (deg.set s (v + 1) s.isLt) = untouched deg := by
  refine List.countP_congr fun a _ => ?_
  by_cases ha : a = s
  · subst ha
    simp [h]
  · rw [Indexed.get_set_ne deg (v + 1) ha]

/-- Whatever goes on the stack is no longer untouched. -/
theorem enter_measure {n : Nat} {succ : List (Option (Fin n))} {stack : List (Fin n)}
    {deg : Vector Nat n} {out : List (Fin n) × Vector Nat n}
    (h : enter succ stack deg = .ok out) :
    out.1.length + untouched out.2 = stack.length + untouched deg := by
  induction succ generalizing stack deg with
  | nil => simp only [enter, Except.ok.injEq] at h; subst h; rfl
  | cons s rest ih =>
    cases s with
    | none => simp [enter] at h
    | some s =>
      rw [enter] at h
      rw [ih h]
      by_cases hs : deg.get s = 0
      · have := untouched_set_zero deg s (deg.get s) hs
        rw [if_pos hs, List.length_cons]
        omega
      · rw [if_neg hs, untouched_set_pos deg s (deg.get s) hs]

/-- Takes blocks off the stack and counts the edges that leave them. -/
def countEdges (g : Flow) (stack : List (Fin g.size)) (deg : Vector Nat g.size) :
    Except Fault (Vector Nat g.size) :=
  match stack with
  | [] => .ok deg
  | i :: stack =>
    match _h : enter (g.successors i) stack deg with
    | .error e => .error e
    | .ok out => g.countEdges out.1 out.2
termination_by stack.length + untouched deg
decreasing_by
  have := enter_measure _h
  simp only [List.length_cons]
  omega

/-- How many edges enter each block from reachable blocks, the entry into the
    root included. -/
def inDegrees (g : Flow) (root : Fin g.size) : Except Fault (Vector Nat g.size) :=
  g.countEdges [root] ((Vector.replicate g.size 0).set root 1 root.isLt)

/-! ## Chains -/

/-- Absorbs the chain of sequential blocks that starts at `next`, each entered
    by one edge: their operations, and where control continues after them.  At
    most `limit` blocks are absorbed. -/
def absorb (g : Flow) (deg : Vector Nat g.size) :
    (limit : Nat) → (next : Option (Fin g.size)) → List Stmt × Option (Fin g.size)
  | 0, next => ([], next)
  | _ + 1, none => ([], none)
  | limit + 1, some i =>
    match g.block i with
    | .straight body next =>
      if deg.get i = 1 then
        let (ops, last) := g.absorb deg limit next
        (body ++ ops, last)
      else ([], some i)
    | .branch .. => ([], some i)

/-- The block with the chain after it absorbed.  A graph with `size` blocks has
    no longer chain. -/
def merge (g : Flow) (deg : Vector Nat g.size) : Block (Fin g.size) → Block (Fin g.size)
  | .straight body next =>
    let (ops, last) := g.absorb deg g.size next
    .straight (body ++ ops) last
  | .branch cond t f => .branch cond t f

/-- The graph with every chain of sequential blocks merged. -/
def compress (g : Flow) : Except Fault Flow :=
  match g.root with
  | none => .ok g
  | some root => do
    let deg ← g.inDegrees root
    return ⟨g.size, g.blocks.map (g.merge deg), some root⟩

end Codegen.Flow
