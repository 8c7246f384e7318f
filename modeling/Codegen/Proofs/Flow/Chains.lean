/-
  Chains of blocks.

  A block of the compressed graph stands for a chain of sequential blocks of the graph.
  A block is absorbed into its predecessor if it is entered by one edge only, so a block
  that is absorbed has one predecessor and lies one edge further from the root.  Hence
  no chain runs into itself, no two chains meet, and together the chains of the kept
  blocks have all that is reachable (`exists_chain`, `chain_disjoint`).  The kept blocks
  are those that are reachable after compression (`reached_merged`).
-/
import Codegen.Proofs.Flow.Edges
import Codegen.Proofs.Meaning.Compress

namespace Codegen.Flow

variable {g : Flow} {i j k : Fin g.size} {n : Nat} {is : List (Fin g.size)} {ops : List Stmt}
  {last next : Option (Fin g.size)} {body : List Stmt}

/-- Control runs through the listed sequential blocks: their operations, and where it
    continues. -/
inductive Chain (g : Flow) : List (Fin g.size) → List Stmt → Option (Fin g.size) → Prop
  | single {i : Fin g.size} {body : List Stmt} {next : Option (Fin g.size)}
      (hi : g.block i = .straight body next) : Chain g [i] body next
  | cons {i j : Fin g.size} {is : List (Fin g.size)} {body ops : List Stmt}
      {last : Option (Fin g.size)} (hi : g.block i = .straight body (some j))
      (h : Chain g (j :: is) ops last) : Chain g (i :: j :: is) (body ++ ops) last

namespace Chain

/-- A block of a chain continues inside the chain, or it is the last one. -/
theorem continues (h : Chain g is ops last) (hk : k ∈ is) :
    ∃ body next, g.block k = .straight body next ∧ (next = last ∨ ∃ j ∈ is.tail, next = some j) := by
  induction h with
  | @single i body next hi =>
    obtain rfl := List.mem_singleton.1 hk
    exact ⟨body, next, hi, Or.inl rfl⟩
  | @cons i j is body ops last hi h ih =>
    rcases List.mem_cons.1 hk with rfl | hk
    · exact ⟨body, some j, hi, Or.inr ⟨j, List.mem_cons_self, rfl⟩⟩
    · obtain ⟨body', next, hk, hnext⟩ := ih hk
      exact ⟨body', next, hk, hnext.imp_right fun ⟨x, hx, e⟩ => ⟨x, List.mem_cons_of_mem _ hx, e⟩⟩

/-- A block of a chain but the first one is entered from the chain. -/
theorem entered (h : Chain g is ops last) (hj : j ∈ is.tail) :
    ∃ k ∈ is, ∃ body, g.block k = .straight body (some j) := by
  induction h with
  | single => cases hj
  | @cons i x is body ops last hi h ih =>
    rcases List.mem_cons.1 hj with rfl | hj
    · exact ⟨i, List.mem_cons_self, body, hi⟩
    · obtain ⟨k, hk, hblock⟩ := ih hj
      exact ⟨k, List.mem_cons_of_mem _ hk, hblock⟩

/-- So is the block that a chain continues with. -/
theorem leaves (h : Chain g is ops (some j)) : ∃ k ∈ is, ∃ body, g.block k = .straight body (some j) := by
  generalize hlast : some j = last at h
  induction h with
  | @single i body next hi => subst hlast; exact ⟨i, List.mem_cons_self, body, hi⟩
  | cons hi h ih =>
    obtain ⟨k, hk, hblock⟩ := ih hlast
    exact ⟨k, List.mem_cons_of_mem _ hk, hblock⟩

theorem reached (h : Chain g (i :: is) ops last) (hi : g.Reached i) : ∀ k ∈ i :: is, g.Reached k := by
  generalize hs : i :: is = js at h
  induction h generalizing i is with
  | single =>
    cases hs
    exact fun k hk => List.mem_singleton.1 hk ▸ hi
  | @cons i' j is' body ops last hblock h ih =>
    cases hs
    have hj : g.Reached j := hi.step ((mem_successors_straight hblock).2 rfl)
    intro k hk
    rcases List.mem_cons.1 hk with rfl | hk
    · exact hi
    · exact ih hj rfl k hk

end Chain

/-! ## How far a block is from the root -/

/-- The least number of edges from the root to a block. -/
noncomputable def depth (g : Flow) (i : Fin g.size) : Nat := sInf {n | g.ReachedIn n i}

theorem Reached.at_depth (h : g.Reached i) : g.ReachedIn (g.depth i) i := Nat.sInf_mem h

theorem ReachedIn.depth_le (h : g.ReachedIn n i) : g.depth i ≤ n := Nat.sInf_le h

/-- A block but the root has a predecessor that is nearer to the root. -/
theorem Reached.exists_nearer (h : g.Reached j) (hroot : g.root ≠ some j) :
    ∃ k, g.Reached k ∧ some j ∈ g.successors k ∧ g.depth k < g.depth j := by
  have hdepth := h.at_depth
  generalize g.depth j = n at hdepth
  cases hdepth with
  | root hr => exact absurd hr hroot
  | @step n k _ hk hj => exact ⟨k, ⟨n, hk⟩, hj, Nat.lt_succ_of_le hk.depth_le⟩

/-- A block entered by one edge is one edge further than its predecessor. -/
theorem depth_eq_succ {root : Fin g.size} (hroot : g.root = some root) (hone : g.entering root j = 1)
    (hk : g.Reached k) (hj : some j ∈ g.successors k) : g.depth j = g.depth k + 1 := by
  refine Nat.le_antisymm (hk.at_depth.step hj).depth_le ?_
  have hne : g.root ≠ some j := fun e =>
    (unique_predecessor hone hk hj).1 (Option.some.inj (e.symm.trans hroot))
  obtain ⟨k', hk', hj', hlt⟩ := (hk.step hj).exists_nearer hne
  rw [(unique_predecessor hone hk hj).2 hk' hj'] at hlt
  exact hlt

/-! ## What is absorbed -/

/-- The block is absorbed by a sequential block that continues with it. -/
def Absorbable (g : Flow) (deg : Vector Nat g.size) (j : Fin g.size) : Prop :=
  deg.get j = 1 ∧ ∃ body next, g.block j = .straight body next

/-- The blocks that are absorbed from `next` on. -/
def absorbed (g : Flow) (deg : Vector Nat g.size) :
    (limit : Nat) → (next : Option (Fin g.size)) → List (Fin g.size)
  | 0, _ => []
  | _ + 1, none => []
  | limit + 1, some i =>
    match g.block i with
    | .straight _ next => if deg.get i = 1 then i :: g.absorbed deg limit next else []
    | .branch .. => []

/-- The blocks that a block of the compressed graph stands for. -/
def chain (g : Flow) (deg : Vector Nat g.size) (i : Fin g.size) : List (Fin g.size) :=
  match g.block i with
  | .straight _ next => i :: g.absorbed deg g.size next
  | .branch .. => [i]

theorem mem_chain_self (deg : Vector Nat g.size) (i : Fin g.size) : i ∈ g.chain deg i := by
  unfold chain
  split
  · exact List.mem_cons_self
  · exact List.mem_cons_self

variable {deg : Vector Nat g.size}

/-- What is absorbed after a block makes a chain with it.  The chain ends where nothing
    more can be absorbed, unless the limit was reached. -/
theorem chain_absorbed (deg : Vector Nat g.size) (limit : Nat) (hk : g.block k = .straight body next) :
    Chain g (k :: g.absorbed deg limit next) (body ++ (g.absorb deg limit next).1)
        (g.absorb deg limit next).2 ∧
      (∀ j ∈ g.absorbed deg limit next, g.Absorbable deg j) ∧
      ((g.absorbed deg limit next).length < limit →
        ∀ j, (g.absorb deg limit next).2 = some j → ¬ g.Absorbable deg j) := by
  induction limit generalizing k body next with
  | zero => exact ⟨by simpa [absorb, absorbed] using Chain.single hk, by simp [absorbed], by simp⟩
  | succ limit ih =>
    have hstop : ∀ {last}, (last = next) → (∀ j, last = some j → ¬ g.Absorbable deg j) →
        Chain g [k] (body ++ []) last ∧ (∀ j ∈ ([] : List (Fin g.size)), g.Absorbable deg j) ∧
          (0 < limit + 1 → ∀ j, last = some j → ¬ g.Absorbable deg j) := by
      rintro _ rfl hlast
      exact ⟨by simpa using Chain.single hk, by simp, fun _ => hlast⟩
    cases next with
    | none =>
      refine hstop rfl ?_
      simp [absorb]
    | some i =>
      cases hi : g.block i with
      | branch cond t f =>
        simp only [absorb, absorbed, hi]
        refine hstop rfl ?_
        rintro j ⟨⟩ ⟨-, body, next, hj⟩
        rw [hi] at hj
        cases hj
      | straight body' next' =>
        by_cases hdeg : deg.get i = 1
        · simp only [absorb, absorbed, hi, hdeg, if_true]
          obtain ⟨hchain, hall, hend⟩ := ih hi
          refine ⟨hchain.cons hk, fun j hj => ?_, fun hlt => hend (by simpa using hlt)⟩
          rcases List.mem_cons.1 hj with rfl | hj
          · exact ⟨hdeg, body', next', hi⟩
          · exact hall j hj
        · simp only [absorb, absorbed, hi, hdeg, if_false]
          refine hstop rfl ?_
          rintro j ⟨⟩ ⟨hone, -⟩
          exact hdeg hone

section
variable {root : Fin g.size} (hroot : g.root = some root)
  (hdeg : ∀ j, deg.get j = g.entering root j)
include hroot hdeg

/-- Along a chain every block is one edge further from the root. -/
theorem depths_of_chain (h : Chain g (i :: is) ops last) (hi : g.Reached i)
    (hall : ∀ j ∈ is, g.Absorbable deg j) :
    (i :: is).map g.depth = List.range' (g.depth i) (is.length + 1) := by
  generalize hs : i :: is = js at h
  induction h generalizing i is with
  | single => cases hs; rfl
  | @cons i' j is' body ops last hblock h ih =>
    cases hs
    have hj : some j ∈ g.successors i' := (mem_successors_straight hblock).2 rfl
    have hone : g.entering root j = 1 := (hdeg j).symm.trans (hall j List.mem_cons_self).1
    rw [List.map_cons, ih (hi.step hj) (fun x hx => hall x (List.mem_cons_of_mem _ hx)) rfl,
      depth_eq_succ hroot hone hi hj]
    rfl

/-- What a block that control can get to stands for. -/
theorem chain_straight (hi : g.Reached i) (hblock : g.block i = .straight body next) :
    Chain g (g.chain deg i) (body ++ (g.absorb deg g.size next).1) (g.absorb deg g.size next).2 ∧
      (g.chain deg i).Nodup ∧ (∀ j ∈ (g.chain deg i).tail, g.Absorbable deg j) ∧
      ∀ j, (g.absorb deg g.size next).2 = some j → ¬ g.Absorbable deg j := by
  have hchain : g.chain deg i = i :: g.absorbed deg g.size next := by rw [chain, hblock]
  obtain ⟨h, hall, hend⟩ := chain_absorbed deg g.size hblock
  have hnodup : (i :: g.absorbed deg g.size next).Nodup := by
    refine List.Nodup.of_map g.depth ?_
    rw [depths_of_chain hroot hdeg h hi hall]
    exact List.nodup_range'
  have hlength := hnodup.length_le_card
  rw [Fintype.card_fin] at hlength
  rw [hchain]
  exact ⟨h, hnodup, hall, hend hlength⟩

/-- A chain is a single branch or made of sequential blocks. -/
theorem chain_cases (hi : g.Reached i) :
    (∃ cond t f, g.block i = .branch cond t f ∧ g.chain deg i = [i]) ∨
      ∃ body next, g.block i = .straight body next ∧ g.chain deg i = i :: (g.chain deg i).tail ∧
        Chain g (g.chain deg i) (body ++ (g.absorb deg g.size next).1) (g.absorb deg g.size next).2 := by
  cases hblock : g.block i with
  | branch cond t f => exact Or.inl ⟨cond, t, f, rfl, by rw [chain, hblock]⟩
  | straight body next =>
    exact Or.inr ⟨body, next, rfl, by rw [chain, hblock]; rfl, (chain_straight hroot hdeg hi hblock).1⟩

theorem reached_of_mem_chain (hi : g.Reached i) (hk : k ∈ g.chain deg i) : g.Reached k := by
  rcases chain_cases hroot hdeg hi with ⟨cond, t, f, -, hchain⟩ | ⟨body, next, -, hcons, hchain⟩
  · rw [hchain] at hk
    exact List.mem_singleton.1 hk ▸ hi
  · rw [hcons] at hchain hk
    exact hchain.reached hi k hk

/-- The kept blocks: control can get to them, and no sequential block absorbs them. -/
def Kept (g : Flow) (deg : Vector Nat g.size) (j : Fin g.size) : Prop :=
  g.Reached j ∧ ∀ k body, g.Reached k → g.block k = .straight body (some j) → ¬ g.Absorbable deg j

omit hroot hdeg in
theorem Reached.kept_or_absorbed (h : g.Reached j) (deg : Vector Nat g.size) :
    g.Kept deg j ∨ g.Absorbable deg j ∧ ∃ k body, g.Reached k ∧ g.block k = .straight body (some j) := by
  by_cases hj : ∃ k body, g.Reached k ∧ g.block k = .straight body (some j) ∧ g.Absorbable deg j
  · obtain ⟨k, body, hk, hblock, hj⟩ := hj
    exact Or.inr ⟨hj, k, body, hk, hblock⟩
  · exact Or.inl ⟨h, fun k body hk hblock hj' => hj ⟨k, body, hk, hblock, hj'⟩⟩

/-- A block in a chain but not at its head is absorbed from the chain. -/
theorem absorbed_of_mem_chain (hi : g.Reached i) (hj : j ∈ g.chain deg i) (hne : j ≠ i) :
    g.Absorbable deg j ∧ ∃ k ∈ g.chain deg i, ∃ body, g.block k = .straight body (some j) := by
  cases hblock : g.block i with
  | branch cond t f =>
    rw [chain, hblock] at hj
    exact absurd (List.mem_singleton.1 hj) hne
  | straight body next =>
    obtain ⟨hchain, -, hall, -⟩ := chain_straight hroot hdeg hi hblock
    have htail : j ∈ (g.chain deg i).tail := by
      rw [chain, hblock] at hj ⊢
      exact (List.mem_cons.1 hj).resolve_left hne
    exact ⟨hall j htail, hchain.entered htail⟩

/-- The head of a chain is the only kept block in it. -/
theorem eq_of_kept_mem_chain (hi : g.Reached i) (hj : g.Kept deg j) (hmem : j ∈ g.chain deg i) :
    j = i := by
  by_contra hne
  obtain ⟨habs, k, hk, body, hblock⟩ := absorbed_of_mem_chain hroot hdeg hi hmem hne
  exact hj.2 k body (reached_of_mem_chain hroot hdeg hi hk) hblock habs

/-- **No two chains of kept blocks meet.** -/
theorem chain_disjoint (hi : g.Kept deg i) (hk : g.Kept deg k) (hji : j ∈ g.chain deg i)
    (hjk : j ∈ g.chain deg k) : i = k := by
  -- by the distance of `j`: an absorbed block has one predecessor, which is in both chains
  induction hn : g.depth j using Nat.strongRecOn generalizing j with
  | ind n ih =>
    by_cases hei : j = i
    · exact eq_of_kept_mem_chain hroot hdeg hk.1 hi (hei ▸ hjk)
    by_cases hek : j = k
    · exact (eq_of_kept_mem_chain hroot hdeg hi.1 hk (hek ▸ hji)).symm
    obtain ⟨habs, x, hx, _, hxj⟩ := absorbed_of_mem_chain hroot hdeg hi.1 hji hei
    obtain ⟨-, y, hy, _, hyj⟩ := absorbed_of_mem_chain hroot hdeg hk.1 hjk hek
    have hone : g.entering root j = 1 := (hdeg j).symm.trans habs.1
    have hxr := reached_of_mem_chain hroot hdeg hi.1 hx
    have hyr := reached_of_mem_chain hroot hdeg hk.1 hy
    have hxs : some j ∈ g.successors x := (mem_successors_straight hxj).2 rfl
    obtain rfl : y = x := (unique_predecessor hone hxr hxs).2 hyr ((mem_successors_straight hyj).2 rfl)
    have hlt := depth_eq_succ hroot hone hxr hxs
    exact ih (g.depth y) (by omega) hx hy rfl

/-- A sequential block of a chain continues with what the chain continues with, or
    with a block that is absorbed. -/
theorem next_of_mem_chain (hi : g.Reached i) (hk : k ∈ g.chain deg i)
    (hblock : g.block k = .straight body (some j)) :
    (∃ ops, g.merge deg (g.block i) = .straight ops (some j) ∧ ¬ g.Absorbable deg j) ∨
      j ∈ g.chain deg i ∧ g.Absorbable deg j := by
  rcases chain_cases hroot hdeg hi with ⟨cond, t, f, hbranch, hchain⟩ | ⟨body', next, hstraight, -, -⟩
  · rw [hchain] at hk
    rw [List.mem_singleton.1 hk, hbranch] at hblock
    cases hblock
  · obtain ⟨hchain, -, hall, hend⟩ := chain_straight hroot hdeg hi hstraight
    obtain ⟨body'', next', hk', hnext⟩ := hchain.continues hk
    rw [hblock] at hk'
    cases hk'
    rcases hnext with hlast | ⟨x, hx, e⟩
    · refine Or.inl ⟨_, by rw [hstraight]; simp only [merge]; rw [← hlast], hend j hlast.symm⟩
    · cases e
      exact Or.inr ⟨List.mem_of_mem_tail hx, hall _ hx⟩

/-- **Every block that control can get to is in the chain of a kept block.** -/
theorem exists_chain (hj : g.Reached j) : ∃ i, g.Kept deg i ∧ j ∈ g.chain deg i := by
  induction hn : g.depth j using Nat.strongRecOn generalizing j with
  | ind n ih =>
    rcases hj.kept_or_absorbed deg with hkept | ⟨habs, k, body, hk, hblock⟩
    · exact ⟨j, hkept, mem_chain_self deg j⟩
    · have hone : g.entering root j = 1 := (hdeg j).symm.trans habs.1
      have hlt := depth_eq_succ hroot hone hk ((mem_successors_straight hblock).2 rfl)
      obtain ⟨i, hi, hmem⟩ := ih (g.depth k) (by omega) hk rfl
      rcases next_of_mem_chain hroot hdeg hi.1 hmem hblock with ⟨_, -, hnot⟩ | ⟨hmem, -⟩
      · exact absurd habs hnot
      · exact ⟨i, hi, hmem⟩

/-- A chain starts at the block that is nearest to the root. -/
theorem depth_le_of_mem_chain (hi : g.Reached i) (hk : k ∈ g.chain deg i) : g.depth i ≤ g.depth k := by
  induction hn : g.depth k using Nat.strongRecOn generalizing k with
  | ind n ih =>
    by_cases hne : k = i
    · rw [← hn, hne]
    · obtain ⟨habs, x, hx, _, hxk⟩ := absorbed_of_mem_chain hroot hdeg hi hk hne
      have hlt := depth_eq_succ hroot ((hdeg k).symm.trans habs.1) (reached_of_mem_chain hroot hdeg hi hx)
        ((mem_successors_straight hxk).2 rfl)
      have hle := ih (g.depth x) (by omega) hx rfl
      omega

/-! ## Reachability after compression -/

/-- Control gets to the kept blocks after compression. -/
theorem reached_merged_of_kept (hj : g.Kept deg j) : (g.merged deg root).Reached j := by
  induction hn : g.depth j using Nat.strongRecOn generalizing j with
  | ind n ih =>
    by_cases hne : g.root = some j
    · obtain rfl : root = j := Option.some.inj (hroot.symm.trans hne)
      exact ⟨0, .root rfl⟩
    obtain ⟨k, hk, hsucc, hlt⟩ := hj.1.exists_nearer hne
    obtain ⟨i, hi, hmem⟩ := exists_chain hroot hdeg hk
    have hdepth := depth_le_of_mem_chain hroot hdeg hi.1 hmem
    have hreach := ih (g.depth i) (by omega) hi rfl
    have hmerged := block_merged deg root i
    cases hblock : g.block k with
    | branch cond t f =>
      obtain rfl : k = i := by
        by_contra hne
        obtain ⟨⟨-, body, next, hk⟩, -⟩ := absorbed_of_mem_chain hroot hdeg hi.1 hmem hne
        rw [hblock] at hk
        cases hk
      rw [hblock] at hmerged
      exact hreach.step ((mem_successors_branch hmerged).2 ((mem_successors_branch hblock).1 hsucc))
    | straight body next =>
      obtain rfl : next = some j := (mem_successors_straight hblock).1 hsucc
      rcases next_of_mem_chain hroot hdeg hi.1 hmem hblock with ⟨ops, hmerge, -⟩ | ⟨-, habs⟩
      · rw [hmerge] at hmerged
        exact hreach.step ((mem_successors_straight hmerged).2 rfl)
      · exact absurd habs (hj.2 k body hk hblock)

/-- After compression control gets to kept blocks only. -/
theorem kept_of_reached_merged {n : Nat} {j : Fin (g.merged deg root).size}
    (h : (g.merged deg root).ReachedIn n j) : g.Kept deg j := by
  induction h with
  | @root r hr =>
    obtain rfl : root = r := Option.some.inj hr
    refine ⟨⟨0, .root hroot⟩, fun k body hk hblock habs => ?_⟩
    have hone : g.entering root root = 1 := (hdeg root).symm.trans habs.1
    exact (unique_predecessor hone hk ((mem_successors_straight hblock).2 rfl)).1 rfl
  | @step n i j _ hj ih =>
    have hmerged : (g.merged deg root).block i = g.merge deg (g.block i) := block_merged deg root i
    rcases chain_cases hroot hdeg ih.1 with ⟨cond, t, f, hbranch, -⟩ | ⟨body, next, hstraight, -, -⟩
    · rw [hbranch] at hmerged
      have hsucc : some j ∈ g.successors i :=
        (mem_successors_branch hbranch).2 ((mem_successors_branch hmerged).1 hj)
      refine ⟨ih.1.step hsucc, fun k body hk hblock habs => ?_⟩
      have hone : g.entering root j = 1 := (hdeg j).symm.trans habs.1
      obtain rfl := (unique_predecessor hone ih.1 hsucc).2 hk ((mem_successors_straight hblock).2 rfl)
      rw [hbranch] at hblock
      cases hblock
    · rw [hstraight] at hmerged
      obtain ⟨hchain, -, -, hend⟩ := chain_straight hroot hdeg ih.1 hstraight
      have hlast : (g.absorb deg g.size next).2 = some j := (mem_successors_straight hmerged).1 hj
      rw [hlast] at hchain
      obtain ⟨k, hk, body', hblock⟩ := hchain.leaves
      have hk := reached_of_mem_chain hroot hdeg ih.1 hk
      exact ⟨hk.step ((mem_successors_straight hblock).2 rfl), fun _ _ _ _ => hend j hlast⟩

/-- **After compression control gets to exactly the kept blocks.** -/
theorem reached_merged (j : Fin g.size) : (g.merged deg root).Reached j ↔ g.Kept deg j :=
  ⟨fun ⟨_, h⟩ => kept_of_reached_merged hroot hdeg h, reached_merged_of_kept hroot hdeg⟩

end

end Codegen.Flow
