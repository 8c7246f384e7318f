/-
  Compression terminates.

  Rebuilding the blocks of a graph comes to an end since no cycle of sequential blocks that
  control can get to is entered by single edges only (`exists_ne_one_of_cycle`): each block
  that is taken in is one edge further from the root.  Every reachable block is called and
  rebuilt once, or taken in once (`existsUnique_takes`).
-/
import Codegen.Proofs.Flow.Rebuild

namespace Codegen.Flow

variable {g : Flow} {deg : Vector Nat g.size} {root i j : Fin g.size} {body : List Stmt}
  {next : Option (Fin g.size)} {r : Rebuild g.size} {t t' : Nat}

/-! ## Cycles -/

section
variable (hroot : g.root = some root) (hdeg : ∀ j, deg.get j = g.entering root j)
include hroot hdeg

/-- **A cycle of sequential blocks that control can get to is entered by a second edge
    somewhere.** -/
theorem exists_ne_one_of_cycle {is : List (Fin g.size)} {ops : List Stmt} (hi : g.Reached i)
    (h : Chain g (i :: is) ops (some i)) : ∃ k ∈ i :: is, deg.get k ≠ 1 := by
  by_contra hall
  push Not at hall
  have habs : ∀ k ∈ is, g.Absorbable deg k := by
    intro k hk
    obtain ⟨body, next, hblock, -⟩ := h.continues (List.mem_cons_of_mem i hk)
    exact ⟨hall k (List.mem_cons_of_mem i hk), body, next, hblock⟩
  -- the block before `i` is not nearer to the root than `i`, and yet one edge nearer
  obtain ⟨k, hk, body, hblock⟩ := h.leaves
  have hone : g.entering root i = 1 := (hdeg i).symm.trans (hall i List.mem_cons_self)
  have hdepth := depth_eq_succ hroot hone (h.reached hi k hk) ((mem_successors_straight hblock).2 rfl)
  have hmem := List.mem_map_of_mem (f := g.depth) hk
  rw [depths_of_chain hroot hdeg h hi habs, List.mem_range'_1] at hmem
  omega

end

namespace Rebuild

/-! ## Runs -/

/-- The blocks after so many steps. -/
def after (g : Flow) (deg : Vector Nat g.size) (root : Fin g.size) (t : Nat) : Rebuild g.size :=
  (fun r => (r.step g deg).getD r)^[t] (start root)

theorem after_succ (t : Nat) :
    after g deg root (t + 1) = ((after g deg root t).step g deg).getD (after g deg root t) :=
  Function.iterate_succ_apply' ..

theorem after_of_step (h : (after g deg root t).step g deg = some r) : after g deg root (t + 1) = r := by
  rw [after_succ, h]; rfl

/-- A number of steps that is enough for every graph of this size. -/
def stepLimit (n : Nat) : Nat := n * (n + 4) + 2

theorem toDo_start (root : Fin g.size) : (start root).toDo 0 < stepLimit g.size := by
  have hle : unbuilt (start root).memo ≤ g.size := by
    have := List.countP_le_length (p := fun i => ((start root).memo.get i).isNone)
      (l := List.finRange g.size)
    rwa [List.length_finRange] at this
  have hmul := Nat.mul_le_mul_right (g.size + 4) hle
  simp only [toDo, stepLimit, start, List.length_singleton, Option.elim_none] at hmul ⊢
  omega

section
variable (hroot : g.root = some root) (hdeg : ∀ j, deg.get j = g.entering root j)
include hroot hdeg

theorem faithful_start : (start root).Faithful deg root 0 := by
  have hmemo : ∀ i, (start root).memo.get i = none := fun i => Vector.getElem_replicate i.isLt
  refine ⟨Or.inr List.mem_cons_self, fun {i} hi => ?_, fun {i b} hi => ?_, ?_, ?_, ?_⟩
  · rcases hi with hi | hi
    · exact absurd (hmemo i) hi
    · obtain rfl : i = root := Option.some.inj (List.mem_singleton.1 hi)
      exact (reached_merged hroot hdeg i).1 ⟨0, .root rfl⟩
  · rw [hmemo] at hi; cases hi
  all_goals intro c hc; cases hc

/-- At each point of a run, so many steps were not in vain, or nothing is left to be done. -/
theorem faithful_after (t : Nat) : ∃ limit, (after g deg root t).Faithful deg root limit ∧
    ((after g deg root t).toDo limit + t ≤ (start root).toDo 0 ∨
      (after g deg root t).step g deg = none) := by
  induction t with
  | zero => exact ⟨0, faithful_start hroot hdeg, Or.inl (Nat.le_refl _)⟩
  | succ t ih =>
    obtain ⟨limit, hfaithful, hdone⟩ := ih
    rw [after_succ]
    cases hs : (after g deg root t).step g deg with
    | none => exact ⟨limit, hfaithful, Or.inr hs⟩
    | some r =>
      obtain ⟨limit', hfaithful', hlt⟩ := hfaithful.move hroot hdeg (move_of_step hs)
      refine ⟨limit', hfaithful', Or.inl ?_⟩
      rcases hdone with hle | hnone
      · change r.toDo limit' + (t + 1) ≤ _
        omega
      · rw [hs] at hnone; cases hnone

/-- **The number of steps allowed is enough.** -/
theorem step_after : (after g deg root (stepLimit g.size)).step g deg = none := by
  obtain ⟨limit, -, hle | hnone⟩ := faithful_after hroot hdeg (stepLimit g.size)
  · have := toDo_start (g := g) root
    omega
  · exact hnone

/-- What is rebuilt at the next point of a run. -/
theorem memo_after_succ (t : Nat) : (after g deg root (t + 1)).memo.get i ≠ none ↔
    (after g deg root t).memo.get i ≠ none ∨ (after g deg root t).Calls i := by
  rw [after_succ]
  cases hs : (after g deg root t).step g deg with
  | none =>
    refine ⟨Or.inl, fun h => h.resolve_right fun hcall => ?_⟩
    have := hcall.call
    rw [(idle_of_step hs).2] at this
    cases this
  | some r =>
    obtain ⟨limit, hfaithful, -⟩ := faithful_after hroot hdeg t
    exact (move_of_step hs).memo_iff fun c hc => (hfaithful.growing hc).1

/-- No block is rebuilt twice. -/
theorem not_calls_of_lt (h : (after g deg root t).Calls i) (hlt : t < t') :
    ¬ (after g deg root t').Calls i := by
  have hmemo : (after g deg root t').memo.get i ≠ none := by
    induction hlt with
    | refl => exact (memo_after_succ hroot hdeg t).2 (Or.inr h)
    | step _ ih => exact (memo_after_succ hroot hdeg _).2 (Or.inl ih)
  exact fun h' => hmemo h'.fresh

theorem calls_unique (h : (after g deg root t).Calls i) (h' : (after g deg root t').Calls i) : t = t' := by
  rcases Nat.lt_trichotomy t t' with hlt | rfl | hlt
  · exact absurd h' (not_calls_of_lt hroot hdeg h hlt)
  · rfl
  · exact absurd h (not_calls_of_lt hroot hdeg h' hlt)

/-- The blocks that are called are the kept ones. -/
theorem exists_calls_iff : (∃ t, (after g deg root t).Calls i) ↔ g.Kept deg i := by
  constructor
  · rintro ⟨t, h⟩
    obtain ⟨limit, hfaithful, -⟩ := faithful_after hroot hdeg t
    exact hfaithful.kept (Or.inr (List.mem_of_mem_head? h.call))
  · intro hi
    by_contra hno
    have hnone : ∀ t, (after g deg root t).memo.get i = none := by
      intro t
      by_contra hne
      induction t with
      | zero => exact hne (Vector.getElem_replicate i.isLt)
      | succ t ih =>
        exact ((memo_after_succ hroot hdeg t).1 hne).elim ih fun h => hno ⟨t, h⟩
    obtain ⟨limit, hfaithful, -⟩ := faithful_after hroot hdeg (stepLimit g.size)
    have := hfaithful.memo_eq hroot hdeg (step_after hroot hdeg) i
    rw [hnone, if_pos ((mem_survivors hroot hdeg).2 hi)] at this
    cases this

/-! ## Each block once -/

omit hroot hdeg in
/-- After a sequential block was called or taken in, the block that follows it comes next. -/
theorem growing_of_taken (h : r.Takes deg j) (hblock : g.block j = .straight body next) :
    ∃ r' c, r.step g deg = some r' ∧ r'.growing = some c ∧ c.next = next := by
  rcases h with ⟨hidle, hcall, hfresh⟩ | ⟨c, hc, hnext, hone, -⟩
  · obtain ⟨calls, hcalls⟩ := List.head?_eq_some_iff.1 hcall
    refine ⟨⟨calls, some ⟨j, body, next⟩, remember r.memo j (.straight [] none)⟩,
      ⟨j, body, next⟩, ?_, rfl, rfl⟩
    simp only [step, hidle, hcalls, hfresh, hblock]
  · refine ⟨{ r with growing := some ⟨c.block, c.ops ++ body, next⟩ }, ⟨c.block, c.ops ++ body, next⟩,
      ?_, rfl, rfl⟩
    simp only [step, hc, hnext, takeIn_of_absorbable hone hblock]

omit hroot hdeg in
/-- Before a block takes in what follows, the block in front of that was called or taken in. -/
theorem taken_before {c : Growing g.size} (h : (after g deg root t).growing = some c) :
    ∃ t₀ k body, t = t₀ + 1 ∧ (after g deg root t₀).Takes deg k ∧
      g.block k = .straight body c.next := by
  cases t with
  | zero => cases h
  | succ t =>
    rw [after_succ] at h
    cases hs : (after g deg root t).step g deg with
    | none =>
      rw [hs, Option.getD_none, (idle_of_step hs).1] at h
      cases h
    | some r =>
      rw [hs] at h
      obtain ⟨k, body, htaken, hblock⟩ := (move_of_step hs).growing_eq_some h
      exact ⟨t, k, body, rfl, htaken, hblock⟩

theorem reached_of_taken (h : (after g deg root t).Takes deg j) : g.Reached j := by
  obtain ⟨limit, hfaithful, -⟩ := faithful_after hroot hdeg t
  rcases h with h | ⟨c, hc, hnext, -⟩
  · exact ((exists_calls_iff hroot hdeg).1 ⟨t, h⟩).1
  · exact hfaithful.reached hc j hnext

/-- A block that is taken in is entered from the block taken before it. -/
theorem Absorbs.before (h : (after g deg root t).Absorbs deg j) :
    ∃ t₀ k body, t = t₀ + 1 ∧ (after g deg root t₀).Takes deg k ∧ g.Reached k ∧
      g.block k = .straight body (some j) := by
  obtain ⟨c, hc, hnext, -⟩ := h
  obtain ⟨t₀, k, body, rfl, htaken, hblock⟩ := taken_before hc
  rw [hnext] at hblock
  exact ⟨t₀, k, body, rfl, htaken, reached_of_taken hroot hdeg htaken, hblock⟩

/-- **Every block that control can get to is called and rebuilt once, or taken in once.** -/
theorem existsUnique_takes (hj : g.Reached j) : ∃! t, (after g deg root t).Takes deg j := by
  -- by the distance of `j`: when an absorbed block is taken in depends on its predecessor
  induction hn : g.depth j using Nat.strongRecOn generalizing j with
  | ind n ih =>
    rcases hj.kept_or_absorbed deg with hkept | ⟨habs, k, body, hk, hblock⟩
    · have hnot : ∀ t, ¬ (after g deg root t).Absorbs deg j := by
        intro t h
        obtain ⟨-, k, body, -, -, hk, hblock⟩ := h.before hroot hdeg
        obtain ⟨-, -, -, habs⟩ := h
        exact hkept.2 k body hk hblock habs
      obtain ⟨t, ht⟩ := (exists_calls_iff hroot hdeg).2 hkept
      refine ⟨t, Or.inl ht, fun t' ht' => ?_⟩
      exact calls_unique hroot hdeg (ht'.resolve_right (hnot t')) ht
    · have hone : g.entering root j = 1 := (hdeg j).symm.trans habs.1
      have hsucc : some j ∈ g.successors k := (mem_successors_straight hblock).2 rfl
      have hlt := depth_eq_succ hroot hone hk hsucc
      obtain ⟨t, ht, hunique⟩ := ih (g.depth k) (by omega) hk rfl
      obtain ⟨r', c, hs, hc, hnext⟩ := growing_of_taken ht hblock
      refine ⟨t + 1, Or.inr ⟨c, ?_, hnext, habs⟩, fun t' ht' => ?_⟩
      · rw [after_of_step hs, hc]
      · have hkept : ¬ (after g deg root t').Calls j := fun h =>
          ((exists_calls_iff hroot hdeg).1 ⟨t', h⟩).2 k body hk hblock habs
        obtain ⟨t₀, k', body', rfl, htaken, hk', hblock'⟩ := (ht'.resolve_left hkept).before hroot hdeg
        obtain rfl := (unique_predecessor hone hk hsucc).2 hk' ((mem_successors_straight hblock').2 rfl)
        rw [hunique t₀ htaken]

end

/-- What it means that rebuilding the blocks of a graph terminates. -/
structure Terminates (g : Flow) (deg : Vector Nat g.size) (root : Fin g.size) : Prop where
  /-- A cycle of sequential blocks that control can get to is entered by a second edge
      somewhere. -/
  cycles : ∀ {i is ops}, g.Reached i → Chain g (i :: is) ops (some i) → ∃ k ∈ i :: is, deg.get k ≠ 1
  /-- So many steps are enough. -/
  ends : (after g deg root (stepLimit g.size)).step g deg = none
  /-- Each block that control can get to is called and rebuilt once, or taken in once. -/
  once : ∀ {j}, g.Reached j → ∃! t, (after g deg root t).Takes deg j
  /-- No other block is. -/
  reached : ∀ {j t}, (after g deg root t).Takes deg j → g.Reached j
  /-- No block is rebuilt twice. -/
  calls : ∀ {i t t'}, (after g deg root t).Calls i → (after g deg root t').Calls i → t = t'
  /-- The blocks rebuilt in the end are those of the compressed graph. -/
  memo : ∀ i, (after g deg root (stepLimit g.size)).memo.get i =
    if i ∈ g.survivors deg root then some (g.merge deg (g.block i)) else none

end Rebuild

/-- **Compression terminates, on graphs of any shape.**  It gives a graph, whose blocks are
    those that come to be rebuilt when the root is called, and this comes to an end although
    nothing but the entering edges keeps a block from taking in a cycle. -/
theorem compress_terminates (g : Flow) (harms : g.HasArms) :
    (∃ g', g.compress = .ok g') ∧
    ∀ root, g.root = some root → ∃ deg, g.inDegrees root = .ok deg ∧
      g.compress = .ok (g.merged deg root) ∧ Rebuild.Terminates g deg root := by
  have hrooted : ∀ root, g.root = some root → ∃ deg, g.inDegrees root = .ok deg ∧
      g.compress = .ok (g.merged deg root) ∧ Rebuild.Terminates g deg root := by
    intro root hroot
    obtain ⟨deg, hok, hdeg⟩ := exists_inDegrees harms hroot
    obtain ⟨limit, hfaithful, -⟩ := Rebuild.faithful_after hroot hdeg (Rebuild.stepLimit g.size)
    have hends := Rebuild.step_after hroot hdeg
    exact ⟨deg, hok, compress_eq_merged hroot hok, exists_ne_one_of_cycle hroot hdeg, hends,
      Rebuild.existsUnique_takes hroot hdeg, Rebuild.reached_of_taken hroot hdeg,
      Rebuild.calls_unique hroot hdeg, hfaithful.memo_eq hroot hdeg hends⟩
  refine ⟨?_, hrooted⟩
  cases hroot : g.root with
  | none => exact ⟨g, by unfold compress; rw [hroot]⟩
  | some root =>
    obtain ⟨deg, -, hok, -⟩ := hrooted root hroot
    exact ⟨g.merged deg root, hok⟩

/-- Two sequential blocks that follow each other for ever, entered at the second one. -/
def ringSample : Flow where
  size := 2
  blocks := #v[.straight [.value (.const 0)] (some 1), .straight [.value (.const 1)] (some 0)]
  root := some 1

theorem hasArms_ringSample : ringSample.HasArms := by
  intro i _ cond t f hi
  match i, hi with
  | ⟨0, _⟩, hi | ⟨1, _⟩, hi => cases hi

theorem compress_terminates_ring : ringSample.HasArms ∧ (∃ g', ringSample.compress = .ok g') ∧
    ∃ root, ringSample.root = some root ∧ ∃ deg, ringSample.inDegrees root = .ok deg ∧
      ringSample.compress = .ok (ringSample.merged deg root) ∧ Rebuild.Terminates ringSample deg root :=
  ⟨hasArms_ringSample, (compress_terminates ringSample hasArms_ringSample).1, ⟨1, by decide⟩, rfl,
    (compress_terminates ringSample hasArms_ringSample).2 _ rfl⟩

end Codegen.Flow
