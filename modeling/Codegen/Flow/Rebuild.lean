/-
  Compression, one call at a time.

  `Flow.compress` says what each block becomes.  Here the blocks are rebuilt on demand,
  from the root on: a block is rebuilt when it is called for the first time and remembered
  from then on, a sequential block takes in the blocks that follow it one by one, and what
  a block continues with is called next.

  `Rebuild.step` is one step of this.  Nothing in it counts the blocks taken in, or looks
  whether one was taken in before.
-/
import Codegen.Flow.Compress

namespace Codegen.Flow

/-- A sequential block that is taking in the chain after it. -/
structure Growing (n : Nat) where
  block : Fin n
  /-- The operations taken in so far, its own included. -/
  ops : List Stmt
  /-- What comes after them. -/
  next : Option (Fin n)

/-- How far the blocks of a graph are rebuilt. -/
structure Rebuild (n : Nat) where
  /-- The calls to be answered, the next one first.  A call for a missing block has
      nothing to do. -/
  calls : List (Option (Fin n))
  /-- The block that is taking in a chain. -/
  growing : Option (Growing n) := none
  /-- The blocks rebuilt so far.  A block that is taking in a chain is there already, but
      it is still empty. -/
  memo : Vector (Option (Block (Fin n))) n

/-- The operations of the next block and what comes after it, if it is sequential and
    entered by one edge. -/
def takeIn (g : Flow) (deg : Vector Nat g.size) : Option (Fin g.size) →
    Option (List Stmt × Option (Fin g.size))
  | none => none
  | some i =>
    match g.block i with
    | .straight body next => if deg.get i = 1 then some (body, next) else none
    | .branch .. => none

namespace Rebuild

/-- Nothing is rebuilt yet, and the root is called. -/
def start {n : Nat} (root : Fin n) : Rebuild n where
  calls := [some root]
  memo := Vector.replicate n none

/-- A block is rebuilt. -/
def remember {n : Nat} (memo : Vector (Option (Block (Fin n))) n) (i : Fin n)
    (b : Block (Fin n)) : Vector (Option (Block (Fin n))) n :=
  memo.set i (some b) i.isLt

/-- The next state, unless there is nothing left to be done. -/
def step (g : Flow) (deg : Vector Nat g.size) (r : Rebuild g.size) : Option (Rebuild g.size) :=
  match r.growing with
  | some c =>
    match g.takeIn deg c.next with
    | some (body, next) => some { r with growing := some ⟨c.block, c.ops ++ body, next⟩ }
    | none =>
      some ⟨c.next :: r.calls, none, remember r.memo c.block (.straight c.ops c.next)⟩
  | none =>
    match r.calls with
    | [] => none
    | none :: calls => some { r with calls }
    | some i :: calls =>
      match r.memo.get i with
      | some _ => some { r with calls }
      | none =>
        match g.block i with
        | .branch cond t f =>
          some ⟨t :: f :: calls, none, remember r.memo i (.branch cond t f)⟩
        | .straight body next =>
          some ⟨calls, some ⟨i, body, next⟩, remember r.memo i (.straight [] none)⟩

end Rebuild

end Codegen.Flow
