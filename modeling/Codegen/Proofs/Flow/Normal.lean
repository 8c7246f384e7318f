/-
  Compressed graphs are in normal form.

  The edges between the blocks of a chain lead to absorbed blocks, and the edges that leave
  a chain are those of the block that stands for it.  So compression changes for no kept
  block how many edges enter it (`inEdges_merged`).  A chain ends where nothing more can be
  absorbed; hence nothing can be absorbed in the compressed graph (`normal_merged`), and
  compressing it once more changes none of its blocks (`Normal.isomorphism_merged`).
-/
import Codegen.Proofs.Flow.Trace

namespace Codegen

theorem Block.count_successors {n : Nat} (body : List Stmt) (next : Option (Fin n)) (j : Fin n) :
    (Block.straight body next).successors.count (some j) = if next = some j then 1 else 0 := by
  cases next with
  | none => rfl
  | some k => simp [Block.successors, List.count_singleton]

theorem Block.mem_successors {n : Nat} {body : List Stmt} {next : Option (Fin n)} {j : Fin n} :
    some j ∈ (Block.straight body next).successors ↔ next = some j := by
  rw [← List.count_pos_iff, count_successors]
  split <;> simp [*]

theorem Block.map_id {ι : Type} (b : Block ι) : b.map id = b := by
  cases b <;> simp [Block.map]

namespace Flow

/-- The number of edges that enter a block from reachable blocks; the entry into the graph
    is an edge into the root. -/
def inEdges (g : Flow) (j : Fin g.size) : Nat :=
  (if g.root = some j then 1 else 0) + (g.reachable.map fun i => (g.successors i).count (some j)).sum

/-- No sequential block is followed by a sequential block that one edge enters. -/
def Normal (g : Flow) : Prop :=
  ∀ i ∈ g.reachable, ∀ ops j, g.block i = .straight ops (some j) →
    ∀ ops' next, g.block j = .straight ops' next → g.inEdges j ≠ 1

/-- The reachable blocks of two graphs correspond: the roots, and the operations, conditions
    and successors of each block. -/
structure Isomorphism (g h : Flow) (f : Fin g.size → Fin h.size) : Prop where
  root : g.root.map f = h.root
  injective : ∀ i ∈ g.reachable, ∀ j ∈ g.reachable, f i = f j → i = j
  surjective : ∀ j, j ∈ h.reachable ↔ ∃ i ∈ g.reachable, f i = j
  block : ∀ i ∈ g.reachable, h.block (f i) = (g.block i).map f

variable {g : Flow} {i j k : Fin g.size} {is : List (Fin g.size)} {ops : List Stmt}
  {last : Option (Fin g.size)} {deg : Vector Nat g.size} {root : Fin g.size}

theorem inEdges_eq_entering (hroot : g.root = some root) (j : Fin g.size) :
    g.inEdges j = g.entering root j := by
  rw [inEdges, entering, hroot]
  simp only [Option.some.injEq, eq_comm]

/-! ## Edges of a chain -/

/-- The edges out of a chain enter its later blocks, and what it continues with. -/
theorem Chain.sum_count (h : Chain g is ops last) (j : Fin g.size) :
    (is.map fun k => (g.successors k).count (some j)).sum =
      is.tail.count j + if last = some j then 1 else 0 := by
  induction h with
  | single hi => simp [successors, hi, Block.count_successors]
  | @cons i x is body ops last hi h ih =>
    rw [List.map_cons, List.sum_cons, ih, successors, hi, Block.count_successors, List.tail_cons,
      List.tail_cons, List.count_cons]
    by_cases hx : x = j
    · simp [hx]; omega
    · simp [hx]

/-- The blocks that are reachable after compression, as blocks of the graph. -/
def survivors (g : Flow) (deg : Vector Nat g.size) (root : Fin g.size) : List (Fin g.size) :=
  (g.merged deg root).reachable

theorem inEdges_merged_eq (deg : Vector Nat g.size) (root j : Fin g.size) :
    (g.merged deg root).inEdges j = (if some root = some j then 1 else 0) +
      ((g.survivors deg root).map fun i => (g.merge deg (g.block i)).successors.count (some j)).sum := by
  refine congrArg (fun counts => (if some root = some j then 1 else 0) + List.sum counts)
    (List.map_congr_left fun i _ => ?_)
  exact congrArg (fun b => b.successors.count (some j)) (block_merged deg root i)

section
variable (hroot : g.root = some root) (hdeg : ∀ j, deg.get j = g.entering root j)
include hroot hdeg

theorem mem_survivors : i ∈ g.survivors deg root ↔ g.Kept deg i :=
  mem_reachable.trans (reached_merged hroot hdeg i)

/-- The edges that leave a chain for a kept block are those of the block that stands for
    the chain. -/
theorem sum_count_chain (hi : g.Kept deg i) (hj : g.Kept deg j) :
    ((g.chain deg i).map fun k => (g.successors k).count (some j)).sum =
      (g.merge deg (g.block i)).successors.count (some j) := by
  rcases chain_cases hroot hdeg hi.1 with
    ⟨cond, t, f, hbranch, hchain⟩ | ⟨body, next, hstraight, hcons, hchain⟩
  · rw [hchain, List.map_singleton, List.sum_singleton, successors, hbranch]
    rfl
  · have htail : j ∉ (g.chain deg i).tail := fun hmem => by
      obtain rfl := eq_of_kept_mem_chain hroot hdeg hi.1 hj (List.mem_of_mem_tail hmem)
      have hnodup := (chain_straight hroot hdeg hi.1 hstraight).2.1
      rw [hcons] at hnodup
      exact (List.nodup_cons.1 hnodup).1 hmem
    rw [hchain.sum_count, List.count_eq_zero_of_not_mem htail, Nat.zero_add, hstraight]
    exact (Block.count_successors _ _ j).symm

theorem nodup_chain (hi : g.Reached i) : (g.chain deg i).Nodup := by
  rcases chain_cases hroot hdeg hi with ⟨cond, t, f, -, hchain⟩ | ⟨body, next, hstraight, -⟩
  · rw [hchain]; exact List.nodup_singleton i
  · exact (chain_straight hroot hdeg hi hstraight).2.1

/-- The chains of the kept blocks make up what is reachable. -/
theorem perm_flatMap_chain : g.reachable.Perm ((g.survivors deg root).flatMap (g.chain deg)) := by
  have hkept : ∀ i, i ∈ g.survivors deg root ↔ g.Kept deg i := fun i => mem_survivors hroot hdeg
  have hnodup : ((g.survivors deg root).flatMap (g.chain deg)).Nodup := by
    refine List.nodup_flatMap.2 ⟨fun i hi => nodup_chain hroot hdeg ((hkept i).1 hi).1, ?_⟩
    refine List.Pairwise.imp_of_mem (fun {i k} hi hk hne => ?_) (nodup_reachable (g.merged deg root))
    exact fun j hji hjk =>
      hne (chain_disjoint hroot hdeg ((hkept i).1 hi) ((hkept k).1 hk) hji hjk)
  refine (List.perm_ext_iff_of_nodup (nodup_reachable g) hnodup).2 fun j => ?_
  rw [List.mem_flatMap, mem_reachable]
  constructor
  · intro hj
    obtain ⟨i, hi, hmem⟩ := exists_chain hroot hdeg hj
    exact ⟨i, (hkept i).2 hi, hmem⟩
  · rintro ⟨i, hi, hmem⟩
    exact reached_of_mem_chain hroot hdeg ((hkept i).1 hi).1 hmem

/-- **Compression changes for no kept block how many edges enter it.** -/
theorem inEdges_merged (hj : g.Kept deg j) : (g.merged deg root).inEdges j = g.inEdges j := by
  have hsum : (g.reachable.map fun k => (g.successors k).count (some j)).sum =
      ((g.survivors deg root).map fun i => (g.merge deg (g.block i)).successors.count (some j)).sum := by
    rw [((perm_flatMap_chain hroot hdeg).map _).sum_eq, List.map_flatMap, List.flatMap_def,
      List.sum_flatten, List.map_map]
    refine congrArg List.sum (List.map_congr_left fun i hi => ?_)
    exact sum_count_chain hroot hdeg ((mem_survivors hroot hdeg).1 hi) hj
  rw [inEdges_merged_eq, inEdges, hroot, hsum]

/-! ## The normal form -/

/-- A chain ends where nothing more can be absorbed. -/
theorem normal_merged : (g.merged deg root).Normal := by
  intro (i : Fin g.size) hi ops (j : Fin g.size) hij ops' next hj
  have hkept := (reached_merged hroot hdeg i).1 (mem_reachable.1 hi)
  have hkept' := (reached_merged hroot hdeg j).1
    ((mem_reachable.1 hi).step ((mem_successors_straight hij).2 rfl))
  rw [inEdges_merged hroot hdeg hkept', inEdges_eq_entering hroot, ← hdeg]
  intro hone
  -- `j` is sequential in the graph too, so that it would have been absorbed
  have habs : g.Absorbable deg j := by
    refine ⟨hone, ?_⟩
    cases hblock : g.block j with
    | straight body next => exact ⟨body, next, rfl⟩
    | branch cond t f => rw [block_merged, hblock] at hj; cases hj
  cases hblock : g.block i with
  | branch cond t f => rw [block_merged, hblock] at hij; cases hij
  | straight body next =>
    rw [block_merged, hblock] at hij
    exact (chain_straight hroot hdeg hkept.1 hblock).2.2.2 j (Block.straight.inj hij).2 habs

theorem hasArms_merged (harms : g.HasArms) : (g.merged deg root).HasArms := by
  intro (i : Fin g.size) hi cond t f hblock
  have hkept := (reached_merged hroot hdeg i).1 (mem_reachable.1 hi)
  rcases chain_cases hroot hdeg hkept.1 with ⟨cond', t', f', hbranch, -⟩ | ⟨body, next, hstraight, -⟩
  · rw [block_merged, hbranch] at hblock
    cases hblock
    exact harms i (mem_reachable.2 hkept.1) cond t f hbranch
  · rw [block_merged, hstraight] at hblock
    cases hblock

end

/-! ## Compressing twice -/

theorem absorb_of_not_absorbable {next : Option (Fin g.size)}
    (h : ∀ j, next = some j → ¬ g.Absorbable deg j) (limit : Nat) :
    g.absorb deg limit next = ([], next) := by
  cases limit with
  | zero => rfl
  | succ limit =>
    cases next with
    | none => rfl
    | some j =>
      rw [absorb]
      split
      · next body next hj =>
        rw [if_neg fun hone => h j rfl ⟨hone, body, next, hj⟩]
      · rfl

section
variable (hroot : g.root = some root) (hdeg : ∀ j, deg.get j = g.entering root j)
  (hnormal : g.Normal)
include hroot hdeg hnormal

theorem Normal.not_absorbable {body : List Stmt} (hi : g.Reached i)
    (hblock : g.block i = .straight body (some j)) : ¬ g.Absorbable deg j := by
  rintro ⟨hone, body', next, hj⟩
  rw [hdeg, ← inEdges_eq_entering hroot] at hone
  exact hnormal i (mem_reachable.2 hi) body j hblock body' next hj hone

theorem Normal.merge_block (hi : g.Reached i) : g.merge deg (g.block i) = g.block i := by
  cases hblock : g.block i with
  | branch cond t f => rfl
  | straight body next =>
    have habs : ∀ j, next = some j → ¬ g.Absorbable deg j := by
      rintro j rfl
      exact hnormal.not_absorbable hroot hdeg hi hblock
    rw [merge, absorb_of_not_absorbable habs]
    simp only [List.append_nil]

theorem Normal.reached_merged (j : Fin g.size) : (g.merged deg root).Reached j ↔ g.Reached j := by
  rw [Flow.reached_merged hroot hdeg]
  exact ⟨fun h => h.1, fun h => ⟨h, fun k body hk hblock => hnormal.not_absorbable hroot hdeg hk hblock⟩⟩

/-- **A graph in normal form is left as it is.** -/
theorem Normal.isomorphism_merged : Isomorphism (g.merged deg root) g id := by
  have hreached : ∀ i : Fin g.size, i ∈ (g.merged deg root).reachable ↔ i ∈ g.reachable := fun i =>
    mem_reachable.trans ((hnormal.reached_merged hroot hdeg i).trans mem_reachable.symm)
  refine ⟨hroot.symm, fun i _ j _ e => e, fun j => ?_, fun (i : Fin g.size) hi => ?_⟩
  · constructor
    · exact fun hj => ⟨j, (hreached j).2 hj, rfl⟩
    · rintro ⟨i, hi, rfl⟩
      exact (hreached i).1 hi
  · have hblock := (block_merged deg root i).trans
      (hnormal.merge_block hroot hdeg (mem_reachable.1 ((hreached i).1 hi)))
    exact hblock.symm.trans (Block.map_id _).symm

end

theorem compress_eq_merged (hroot : g.root = some root) (hok : g.inDegrees root = .ok deg) :
    g.compress = .ok (g.merged deg root) := by
  unfold compress
  rw [hroot]
  exact Except.bind_eq_ok.2 ⟨deg, hok, rfl⟩

/-- **Compression gives a normal form, and giving it twice changes nothing.**  Each block of
    the compressed graph is entered by as many edges as the block that it comes from. -/
theorem compress_normal (g : Flow) (harms : g.HasArms) :
    ∃ g', g.compress = .ok g' ∧ g'.Normal ∧
      (∃ origin chain, Merges g g' origin chain ∧
        ∀ i ∈ g'.reachable, g'.inEdges i = g.inEdges (origin i)) ∧
      ∃ g'' f, g'.compress = .ok g'' ∧ Isomorphism g'' g' f := by
  cases hroot : g.root with
  | none =>
    have hnil := reachable_eq_nil hroot
    have hok : g.compress = .ok g := by unfold compress; rw [hroot]
    refine ⟨g, hok, ?_, ⟨id, _, merges_self hroot, fun _ _ => rfl⟩, g, id, hok, ?_⟩
    · intro i hi
      rw [hnil] at hi
      cases hi
    · constructor
      · simp
      all_goals simp [hnil]
  | some root =>
    obtain ⟨deg, hok, hdeg⟩ := exists_inDegrees harms hroot
    have hroot' : (g.merged deg root).root = some root := rfl
    have hnormal := normal_merged hroot hdeg
    obtain ⟨deg', hok', hdeg'⟩ := exists_inDegrees (hasArms_merged hroot hdeg harms) hroot'
    refine ⟨g.merged deg root, compress_eq_merged hroot hok, hnormal,
      ⟨id, _, merges_merged hroot hdeg, fun i hi => ?_⟩, (g.merged deg root).merged deg' root, id,
      compress_eq_merged hroot' hok', hnormal.isomorphism_merged hroot' hdeg'⟩
    exact inEdges_merged hroot hdeg ((reached_merged hroot hdeg i).1 (mem_reachable.1 hi))

theorem compress_normal_loop : loopSample.HasArms ∧
    ∃ g', loopSample.compress = .ok g' ∧ g'.Normal ∧
      (∃ origin chain, Merges loopSample g' origin chain ∧
        ∀ i ∈ g'.reachable, g'.inEdges i = loopSample.inEdges (origin i)) ∧
      ∃ g'' f, g'.compress = .ok g'' ∧ Isomorphism g'' g' f :=
  ⟨hasArms_loopSample, compress_normal loopSample hasArms_loopSample⟩

end Flow

end Codegen
