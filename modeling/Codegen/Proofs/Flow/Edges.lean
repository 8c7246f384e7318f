/-
  Reachable blocks and the edges between them.

  `Flow.reachable` lists the blocks that control can get to from the root, each once
  (`mem_reachable`, `nodup_reachable`).  `Flow.inDegrees` succeeds if no branch among
  them misses an arm, and counts the edges that enter each block from reachable ones,
  the entry into the graph included (`exists_inDegrees`).
-/
import Codegen.Flow.Compress
import Codegen.Proofs.Outcomes

namespace Codegen.Flow

variable {g : Flow} {i j : Fin g.size} {n : Nat}

/-- Control can get to a block from the root over so many edges. -/
inductive ReachedIn (g : Flow) : Nat → Fin g.size → Prop
  | root {r : Fin g.size} (h : g.root = some r) : ReachedIn g 0 r
  | step {n : Nat} {i j : Fin g.size} (h : ReachedIn g n i) (hj : some j ∈ g.successors i) :
    ReachedIn g (n + 1) j

/-- Control can get to a block from the root. -/
def Reached (g : Flow) (i : Fin g.size) : Prop := ∃ n, g.ReachedIn n i

theorem Reached.step (h : g.Reached i) (hj : some j ∈ g.successors i) : g.Reached j :=
  h.imp' _ fun _ h => h.step hj

/-- No branch that control can get to misses an arm. -/
def HasArms (g : Flow) : Prop :=
  ∀ i ∈ g.reachable, ∀ cond t f, g.block i = .branch cond t f → t.isSome = true ∧ f.isSome = true

theorem mem_successors_straight {body : List Stmt} {next : Option (Fin g.size)}
    (hi : g.block i = .straight body next) : some j ∈ g.successors i ↔ next = some j := by
  rw [successors, hi]
  cases next with
  | none => simp [Block.successors]
  | some k => simp [Block.successors, eq_comm]

theorem mem_successors_branch {cond : Value} {t f : Option (Fin g.size)}
    (hi : g.block i = .branch cond t f) : some j ∈ g.successors i ↔ t = some j ∨ f = some j := by
  rw [successors, hi]
  simp [Block.successors, eq_comm]

/-! ## The blocks that are listed -/

/-- What a visit adds to the blocks seen. -/
structure Visited (g : Flow) (stack : List (Option (Fin g.size))) (seen out : List (Fin g.size)) :
    Prop where
  keeps : seen ⊆ out
  nodup : seen.Nodup → out.Nodup
  visits : ∀ i, some i ∈ stack → i ∈ out
  closed : ∀ i ∈ out, i ∈ seen ∨ ∀ j, some j ∈ g.successors i → j ∈ out
  /-- Nothing is added but what the stack leads to. -/
  least : ∀ P : Fin g.size → Prop, (∀ i, some i ∈ stack → P i) →
    (∀ i j, P i → some j ∈ g.successors i → P j) → ∀ i ∈ out, i ∈ seen ∨ P i

theorem visited_visit (g : Flow) (stack : List (Option (Fin g.size))) (seen : List (Fin g.size)) :
    Visited g stack seen (g.visit stack seen) := by
  induction stack, seen using visit.induct with
  | case1 seen =>
    rw [visit]
    exact ⟨List.Subset.refl _, id, nofun, fun i hi => Or.inl hi, fun P _ _ i hi => Or.inl hi⟩
  | case2 stack seen ih =>
    rw [visit]
    refine ⟨ih.keeps, ih.nodup, fun i hi => ih.visits i (by simpa using hi), ih.closed, ?_⟩
    exact fun P hP => ih.least P fun i hi => hP i (List.mem_cons_of_mem _ hi)
  | case3 i stack seen hi ih =>
    rw [visit, if_pos hi]
    refine ⟨ih.keeps, ih.nodup, fun j hj => ?_, ih.closed, ?_⟩
    · rcases List.mem_cons.1 hj with e | hj
      · cases e; exact ih.keeps hi
      · exact ih.visits j hj
    · exact fun P hP => ih.least P fun j hj => hP j (List.mem_cons_of_mem _ hj)
  | case4 i stack seen hi ih =>
    rw [visit, if_neg hi]
    have hmem := ih.keeps List.mem_cons_self
    refine ⟨fun j hj => ih.keeps (List.mem_cons_of_mem _ hj),
      fun h => ih.nodup (List.nodup_cons.2 ⟨hi, h⟩), fun j hj => ?_, fun j hj => ?_, ?_⟩
    · rcases List.mem_cons.1 hj with e | hj
      · cases e; exact hmem
      · exact ih.visits j (List.mem_append_right _ hj)
    · rcases ih.closed j hj with hseen | hclosed
      · rcases List.mem_cons.1 hseen with rfl | hseen
        · exact Or.inr fun k hk => ih.visits k (List.mem_append_left _ hk)
        · exact Or.inl hseen
      · exact Or.inr hclosed
    · intro P hP hstep j hj
      have hPi : P i := hP i List.mem_cons_self
      have hstack : ∀ k, some k ∈ g.successors i ++ stack → P k := fun k hk =>
        (List.mem_append.1 hk).elim (hstep i k hPi) fun hk => hP k (List.mem_cons_of_mem _ hk)
      rcases ih.least P hstack hstep j hj with hseen | hPj
      · rcases List.mem_cons.1 hseen with rfl | hseen
        · exact Or.inr hPi
        · exact Or.inl hseen
      · exact Or.inr hPj

/-- **The reachable blocks are those that control can get to.** -/
theorem mem_reachable : i ∈ g.reachable ↔ g.Reached i := by
  have h := visited_visit g [g.root] []
  rw [reachable, List.mem_reverse]
  constructor
  · intro hi
    have hroot : ∀ r, some r ∈ [g.root] → g.Reached r := fun r hr =>
      ⟨0, .root (List.mem_singleton.1 hr).symm⟩
    exact (h.least g.Reached hroot (fun _ _ => Reached.step) i hi).resolve_left (by simp)
  · rintro ⟨n, hn⟩
    induction hn with
    | root hr => exact h.visits _ (by simp [hr])
    | step _ hj ih => exact (h.closed _ ih).resolve_left (by simp) _ hj

theorem nodup_reachable (g : Flow) : g.reachable.Nodup :=
  List.nodup_reverse.2 ((visited_visit g [g.root] []).nodup List.nodup_nil)

/-! ## The edges that are counted -/

/-- The number of edges that enter a block from reachable blocks, the entry into the
    graph included. -/
def entering (g : Flow) (root j : Fin g.size) : Nat :=
  (if j = root then 1 else 0) + (g.reachable.map fun i => (g.successors i).count (some j)).sum

/-- Counting the edges to the successors of one block. -/
theorem enter_eq_ok {succ : List (Option (Fin n))} {stack stack' : List (Fin n)}
    {deg deg' : Vector Nat n} (h : enter succ stack deg = .ok (stack', deg')) :
    (∀ j, deg'.get j = deg.get j + succ.count (some j)) ∧
      ∃ new, stack' = new ++ stack ∧ new.Nodup ∧ ∀ j, j ∈ new ↔ deg.get j = 0 ∧ some j ∈ succ := by
  induction succ generalizing stack deg with
  | nil => cases h; exact ⟨by simp, [], rfl, List.nodup_nil, by simp⟩
  | cons s rest ih =>
    cases s with
    | none => cases h
    | some s =>
      obtain ⟨hdeg, new, hstack, hnodup, hnew⟩ := ih h
      have hset : ∀ j, (deg.set s (deg.get s + 1) s.isLt).get j = deg.get j + if j = s then 1 else 0 := by
        intro j
        by_cases e : j = s
        · subst e; simp
        · rw [Indexed.get_set_ne deg _ e, if_neg e]; rfl
      refine ⟨fun j => ?_, ?_⟩
      · rw [hdeg, hset, List.count_cons]
        by_cases e : j = s
        · subst e; simp; omega
        · have : (some s == some j) = false := by simpa using Ne.symm e
          simp [e, this]
      · have hmem : ∀ j, j ∈ new ↔ j ≠ s ∧ deg.get j = 0 ∧ some j ∈ rest := by
          intro j
          rw [hnew, hset]
          by_cases e : j = s <;> simp [e]
        by_cases hs : deg.get s = 0
        · rw [if_pos hs] at hstack
          refine ⟨new ++ [s], by rw [hstack]; simp, ?_, fun j => ?_⟩
          · exact List.nodup_append.2 ⟨hnodup, by simp, fun j hj k hk e =>
              ((hmem j).1 hj).1 (e.trans (List.mem_singleton.1 hk))⟩
          · rw [List.mem_append, hmem, List.mem_singleton, List.mem_cons, Option.some.injEq]
            by_cases e : j = s
            · subst e; simp [hs]
            · simp [e]
        · rw [if_neg hs] at hstack
          refine ⟨new, hstack, hnodup, fun j => ?_⟩
          rw [hmem, List.mem_cons, Option.some.injEq]
          by_cases e : j = s
          · subst e; simp [hs]
          · simp [e]

theorem exists_enter {succ : List (Option (Fin n))} (h : ∀ b ∈ succ, b.isSome = true)
    (stack : List (Fin n)) (deg : Vector Nat n) : ∃ out, enter succ stack deg = .ok out := by
  induction succ generalizing stack deg with
  | nil => exact ⟨_, rfl⟩
  | cons b succ ih =>
    cases b with
    | none => cases h none List.mem_cons_self
    | some i => exact ih (fun b hb => h b (List.mem_cons_of_mem _ hb)) _ _

/-- The state of the count: the edges out of the blocks `done` were counted, and those
    of the blocks on the stack are still to be. -/
structure Counting (g : Flow) (root : Fin g.size) (done stack : List (Fin g.size))
    (deg : Vector Nat g.size) : Prop where
  nodup : (done ++ stack).Nodup
  seen : ∀ j, deg.get j ≠ 0 ↔ j ∈ done ∨ j ∈ stack
  count : ∀ j, deg.get j =
    (if j = root then 1 else 0) + (done.map fun i => (g.successors i).count (some j)).sum
  reached : ∀ j, j ∈ done ∨ j ∈ stack → g.Reached j

theorem counting_start {root : Fin g.size} (hroot : g.root = some root) :
    Counting g root [] [root] ((Vector.replicate g.size 0).set root 1 root.isLt) := by
  have hget : ∀ j, ((Vector.replicate g.size 0).set root 1 root.isLt).get j = if j = root then 1 else 0 := by
    intro j
    by_cases e : j = root
    · subst e; simp
    · rw [Indexed.get_set_ne _ _ e, if_neg e]
      exact Vector.getElem_replicate j.isLt
  refine ⟨by simp, fun j => ?_, fun j => by rw [hget]; rfl, fun j hj => ?_⟩
  · rw [hget]
    by_cases e : j = root <;> simp [e]
  · obtain rfl : j = root := by simpa using hj
    exact ⟨0, .root hroot⟩

/-- The edges out of one more block are counted. -/
theorem Counting.step {root : Fin g.size} {done stack stack' : List (Fin g.size)}
    {deg deg' : Vector Nat g.size} (h : Counting g root done (i :: stack) deg)
    (henter : enter (g.successors i) stack deg = .ok (stack', deg')) :
    Counting g root (i :: done) stack' deg' := by
  obtain ⟨hdeg, new, rfl, hnodup, hnew⟩ := enter_eq_ok henter
  have hperm : (done ++ i :: stack).Perm ((i :: done) ++ stack) := List.perm_middle
  have hold : ∀ j, j ∈ i :: done ∨ j ∈ stack ↔ deg.get j ≠ 0 := fun j => by
    rw [h.seen, ← List.mem_append, ← List.mem_append]
    exact hperm.symm.mem_iff
  refine ⟨?_, fun j => ?_, fun j => ?_, fun j hj => ?_⟩
  · have hdisjoint : ∀ a ∈ (i :: done) ++ stack, ∀ b ∈ new, a ≠ b := by
      rintro a ha b hb rfl
      exact (hold a).1 (List.mem_append.1 ha) ((hnew a).1 hb).1
    have hall : (((i :: done) ++ stack) ++ new).Nodup :=
      List.nodup_append.2 ⟨hperm.nodup_iff.1 h.nodup, hnodup, hdisjoint⟩
    refine (List.Perm.nodup_iff ?_).1 hall
    rw [List.append_assoc]
    exact List.Perm.append_left _ List.perm_append_comm
  · rw [hdeg, List.mem_append, or_left_comm, hold, hnew]
    by_cases hzero : deg.get j = 0
    · simp [hzero, List.count_eq_zero]
    · simp [hzero]
  · rw [hdeg, h.count, List.map_cons, List.sum_cons]
    omega
  · rw [List.mem_append, or_left_comm, hold, hnew] at hj
    rcases hj with ⟨-, hj⟩ | hj
    · exact (h.reached i (Or.inr List.mem_cons_self)).step hj
    · exact h.reached j ((h.seen j).1 hj)

theorem countEdges_cons {i : Fin g.size} {stack : List (Fin g.size)} {deg : Vector Nat g.size}
    {out : List (Fin g.size) × Vector Nat g.size} (h : enter (g.successors i) stack deg = .ok out) :
    g.countEdges (i :: stack) deg = g.countEdges out.1 out.2 := by
  rw [countEdges]
  split
  · next e he => rw [h] at he; cases he
  · next out' he => rw [h] at he; cases he; rfl

/-- The count comes to an end, with nothing left on the stack. -/
theorem exists_countEdges (harms : g.HasArms) {root : Fin g.size} (stack : List (Fin g.size))
    (deg : Vector Nat g.size) : ∀ done, Counting g root done stack deg →
      ∃ deg' done', g.countEdges stack deg = .ok deg' ∧ Counting g root done' [] deg' := by
  induction stack, deg using countEdges.induct with
  | case1 deg =>
    intro done h
    exact ⟨deg, done, by rw [countEdges], h⟩
  | case2 deg i stack e he =>
    intro done h
    have hi := mem_reachable.2 (h.reached i (Or.inr List.mem_cons_self))
    have hsome : ∀ b ∈ g.successors i, b.isSome = true := by
      intro b hb
      cases hblock : g.block i with
      | straight body next =>
        rw [successors, hblock] at hb
        cases next with
        | none => cases hb
        | some j => rw [List.mem_singleton.1 hb]; rfl
      | branch cond t f =>
        rw [successors, hblock] at hb
        simp only [Block.successors, List.mem_cons, List.not_mem_nil, or_false] at hb
        obtain ⟨ht, hf⟩ := harms i hi cond t f hblock
        rcases hb with rfl | rfl
        · exact ht
        · exact hf
    obtain ⟨out, hok⟩ := exists_enter hsome stack deg
    rw [hok] at he
    cases he
  | case3 deg i stack out hout ih =>
    intro done h
    obtain ⟨stack', deg'⟩ := out
    obtain ⟨deg₁, done₁, hcount, h₁⟩ := ih _ (h.step hout)
    exact ⟨deg₁, done₁, (countEdges_cons hout).trans hcount, h₁⟩

/-- Whatever was counted at the end are the reachable blocks. -/
theorem Counting.perm_reachable {root : Fin g.size} {done : List (Fin g.size)}
    {deg : Vector Nat g.size} (hroot : g.root = some root) (h : Counting g root done [] deg) :
    done.Perm g.reachable := by
  have hdone : done.Nodup := by simpa using h.nodup
  refine (List.perm_ext_iff_of_nodup hdone (nodup_reachable g)).2 fun j => ?_
  rw [mem_reachable]
  refine ⟨fun hj => h.reached j (Or.inl hj), ?_⟩
  have hmem : ∀ j, deg.get j ≠ 0 → j ∈ done := fun j hj => by simpa using (h.seen j).1 hj
  rintro ⟨n, hn⟩
  induction hn with
  | root hr =>
    cases hroot.symm.trans hr
    exact hmem _ (by rw [h.count, if_pos rfl]; omega)
  | @step n i j _ hj ih =>
    refine hmem j ?_
    have hpos : 0 < (g.successors i).count (some j) := List.count_pos_iff.2 hj
    have hle : (g.successors i).count (some j) ≤
        (done.map fun i => (g.successors i).count (some j)).sum :=
      List.single_le_sum (fun _ _ => Nat.zero_le _) _ (List.mem_map_of_mem ih)
    rw [h.count]
    omega

/-- **Entering edges are counted exactly.** -/
theorem exists_inDegrees (harms : g.HasArms) {root : Fin g.size} (hroot : g.root = some root) :
    ∃ deg, g.inDegrees root = .ok deg ∧ ∀ j, deg.get j = g.entering root j := by
  obtain ⟨deg, done, hdeg, h⟩ := exists_countEdges harms [root] _ [] (counting_start hroot)
  refine ⟨deg, hdeg, fun j => ?_⟩
  rw [h.count, entering, ((h.perm_reachable hroot).map _).sum_eq]

/-- A block entered by one edge from a reachable block is entered from no other one,
    and it is not the root. -/
theorem unique_predecessor {root k : Fin g.size} (hone : g.entering root j = 1)
    (hk : g.Reached k) (hj : some j ∈ g.successors k) :
    j ≠ root ∧ ∀ {k'}, g.Reached k' → some j ∈ g.successors k' → k' = k := by
  have hpos : ∀ {i}, some j ∈ g.successors i → 0 < (g.successors i).count (some j) :=
    fun h => List.count_pos_iff.2 h
  -- the edge from `k` is taken out of the sum
  have hsum := ((List.perm_cons_erase (mem_reachable.2 hk)).map
    fun i => (g.successors i).count (some j)).sum_eq
  rw [List.map_cons, List.sum_cons] at hsum
  have hk₀ := hpos hj
  rw [entering, hsum] at hone
  refine ⟨fun e => ?_, fun {k'} hk' hj' => ?_⟩
  · rw [if_pos e] at hone
    omega
  · by_contra hne
    have hmem : k' ∈ g.reachable.erase k := (List.mem_erase_of_ne hne).2 (mem_reachable.2 hk')
    have hle : (g.successors k').count (some j) ≤
        ((g.reachable.erase k).map fun i => (g.successors i).count (some j)).sum :=
      List.single_le_sum (fun _ _ => Nat.zero_le _) _ (List.mem_map_of_mem hmem)
    have hk₁ := hpos hj'
    omega

end Codegen.Flow
