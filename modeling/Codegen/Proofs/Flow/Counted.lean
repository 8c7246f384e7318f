/-
  Counting the entering edges, pass by pass.

  The count takes one block off its stack at a time.  `Counts` records the blocks in the
  order in which they are taken, until the stack is empty; `countEdges_eq_ok_iff` says that
  this is what the count does.  One table both counts the edges and tells which blocks were
  seen: each block that control can get to is taken once, in some order, and so each edge
  between such blocks is counted once (`inDegrees_exact`).
-/
import Codegen.Proofs.Flow.Edges

namespace Codegen.Flow

variable {g : Flow} {root : Fin g.size} {stack done order : List (Fin g.size)}
  {deg deg' : Vector Nat g.size}

/-- From the given stack and table, the blocks `order` are taken off the stack one after the
    other, and the edges that leave each are counted, until nothing is left on the stack. -/
inductive Counts (g : Flow) : List (Fin g.size) → Vector Nat g.size → List (Fin g.size) →
    Vector Nat g.size → Prop
  | stop (deg : Vector Nat g.size) : Counts g [] deg [] deg
  | pass {i : Fin g.size} {stack order : List (Fin g.size)} {deg deg' : Vector Nat g.size}
      {out : List (Fin g.size) × Vector Nat g.size} (h : enter (g.successors i) stack deg = .ok out)
      (hrest : Counts g out.1 out.2 order deg') : Counts g (i :: stack) deg (i :: order) deg'

/-- The count succeeds if and only if its passes come to an end. -/
theorem countEdges_eq_ok_iff :
    g.countEdges stack deg = .ok deg' ↔ ∃ order, Counts g stack deg order deg' := by
  constructor
  · induction stack, deg using countEdges.induct with
    | case1 deg =>
      intro h
      rw [countEdges] at h
      cases h
      exact ⟨[], .stop _⟩
    | case2 deg i stack e he =>
      intro h
      rw [countEdges] at h
      split at h
      · cases h
      · next out hout => rw [he] at hout; cases hout
    | case3 deg i stack out hout ih =>
      intro h
      rw [countEdges_cons hout] at h
      obtain ⟨order, hrest⟩ := ih h
      exact ⟨i :: order, .pass hout hrest⟩
  · rintro ⟨order, h⟩
    induction h with
    | stop deg => rw [countEdges]
    | pass hout _ ih => rw [countEdges_cons hout]; exact ih

/-- All passes together: what was on the stack, and whatever came on it later, is done. -/
theorem Counting.counts (h : Counting g root done stack deg) (hc : Counts g stack deg order deg') :
    Counting g root (order.reverse ++ done) [] deg' := by
  induction hc generalizing done with
  | stop deg => exact h
  | @pass i stack order deg deg' out hout _ ih =>
    have := ih (h.step hout)
    rwa [List.reverse_cons, List.append_assoc]

/-- What it means that a table of the entering edges is exact, and was filled by taking the
    blocks in the given order. -/
structure ExactCount (g : Flow) (root : Fin g.size) (order : List (Fin g.size))
    (deg : Vector Nat g.size) : Prop where
  /-- The count starts at the root, which has an entry already, and comes to an end. -/
  passes : Counts g [root] ((Vector.replicate g.size 0).set root 1 root.isLt) order deg
  /-- No block is taken twice. -/
  once : order.Nodup
  /-- The blocks that are taken are those that control can get to. -/
  taken : ∀ i, i ∈ order ↔ g.Reached i
  /-- They are the ones with an entry. -/
  entry : ∀ j, deg.get j ≠ 0 ↔ g.Reached j
  /-- An entry is the number of edges from them, and one more for the root.  A branch with
      both arms on one block has two edges to it. -/
  edges : ∀ j, deg.get j =
    (order.map fun i => (g.successors i).count (some j)).sum + if j = root then 1 else 0

/-- **The entering edges are counted exactly**, on every graph in which no branch that control
    can get to misses an arm. -/
theorem inDegrees_exact (g : Flow) (root : Fin g.size) (hroot : g.root = some root)
    (harms : g.HasArms) : ∃ order deg, g.inDegrees root = .ok deg ∧ g.ExactCount root order deg := by
  obtain ⟨deg, hok, -⟩ := exists_inDegrees harms hroot
  obtain ⟨order, hcounts⟩ := countEdges_eq_ok_iff.1 hok
  have hdone : Counting g root (order.reverse ++ []) [] deg := (counting_start hroot).counts hcounts
  rw [List.append_nil] at hdone
  have hperm : order.Perm g.reachable :=
    (List.reverse_perm order).symm.trans (hdone.perm_reachable hroot)
  have hmem : ∀ i, i ∈ order ↔ g.Reached i := fun i => hperm.mem_iff.trans mem_reachable
  refine ⟨order, deg, hok, hcounts, hperm.nodup_iff.2 (nodup_reachable g), hmem, fun j => ?_,
    fun j => ?_⟩
  · rw [hdone.seen, ← hmem]
    simp
  · rw [hdone.count, ((List.reverse_perm order).map _).sum_eq, Nat.add_comm]

/-- A loop around a branch whose arms are one block, and a block that nothing leads to. -/
def doubleArmSample : Flow where
  size := 5
  blocks := #v[.branch (.const 1) (some 1) (some 1), .straight [] (some 2),
    .branch (.const 0) (some 0) (some 3), .straight [.ret false] none, .straight [] (some 1)]
  root := some 0

theorem hasArms_doubleArmSample : doubleArmSample.HasArms := by
  intro i _ cond t f hi
  match i, hi with
  | ⟨0, _⟩, hi | ⟨2, _⟩, hi => cases hi; exact ⟨rfl, rfl⟩
  | ⟨1, _⟩, hi | ⟨3, _⟩, hi | ⟨4, _⟩, hi => cases hi

theorem inDegrees_exact_doubleArm :
    ∃ root, doubleArmSample.root = some root ∧ doubleArmSample.HasArms ∧
      ∃ order deg, doubleArmSample.inDegrees root = .ok deg ∧ doubleArmSample.ExactCount root order deg :=
  ⟨⟨0, by decide⟩, rfl, hasArms_doubleArmSample,
    inDegrees_exact doubleArmSample _ rfl hasArms_doubleArmSample⟩

example : (doubleArmSample.inDegrees ⟨0, by decide⟩).toOption.map Vector.toList =
    some [2, 2, 1, 1, 0] := by cbv

end Codegen.Flow
