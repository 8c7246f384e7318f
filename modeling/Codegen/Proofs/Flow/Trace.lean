/-
  Compression preserves control flow.

  A run of a graph shows the operations it executes and the conditions it tests, in
  order; an oracle, which knows what was shown so far, says how a test comes out.  A
  run ends when it leaves a sequential block that nothing follows, and it may go on
  forever, with or without showing anything.

  * A compressed graph shows what the graph shows, and its runs end when those of the
    graph do (`SameRuns`).
  * Its blocks stand for chains of blocks, and each reachable block of the graph is in
    one chain, once (`Merges`).
-/
import Codegen.Proofs.Flow.Chains

namespace Codegen

/-- What a run shows. -/
inductive Event where
  /-- An operation is executed. -/
  | operation (op : Stmt)
  /-- A condition is tested. -/
  | test (cond : Value)
  deriving DecidableEq, Repr

/-- Says how a test comes out, which is the last of the events shown so far. -/
abbrev Oracle := List Event → Bool

/-- How far a run got in a graph of `n` blocks. -/
structure Course (n : Nat) where
  /-- The block that comes next; a run that has ended has none. -/
  block : Option (Fin n)
  /-- The events shown so far. -/
  past : List Event

namespace Flow

/-- Runs one block. -/
def advance (g : Flow) (oracle : Oracle) (c : Course g.size) : Course g.size :=
  match c.block with
  | none => c
  | some i =>
    match g.block i with
    | .straight body next => ⟨next, c.past ++ body.map .operation⟩
    | .branch cond t f =>
      let past := c.past ++ [.test cond]
      ⟨if oracle past then t else f, past⟩

/-- A run from the root after so many blocks. -/
def after (g : Flow) (oracle : Oracle) (k : Nat) : Course g.size := (g.advance oracle)^[k] ⟨g.root, []⟩

/-- The `n`-th event of the run is `e`. -/
def Shows (g : Flow) (oracle : Oracle) (n : Nat) (e : Event) : Prop :=
  ∃ k, (g.after oracle k).past[n]? = some e

/-- The run comes to an end. -/
def Ends (g : Flow) (oracle : Oracle) : Prop := ∃ k, (g.after oracle k).block = none

/-- The runs of two graphs show the same events, and end alike. -/
structure SameRuns (g g' : Flow) : Prop where
  shows : ∀ oracle n e, g'.Shows oracle n e ↔ g.Shows oracle n e
  ends : ∀ oracle, g'.Ends oracle ↔ g.Ends oracle

/-- The blocks of `g'` stand for chains of blocks of `g`. -/
structure Merges (g g' : Flow) (origin : Fin g'.size → Fin g.size)
    (chain : Fin g'.size → List (Fin g.size)) : Prop where
  root : g'.root.map origin = g.root
  sequential : ∀ i ∈ g'.reachable, ∀ ops next, g'.block i = .straight ops next →
    g.Chain (chain i) ops (next.map origin)
  branching : ∀ i ∈ g'.reachable, ∀ cond t f, g'.block i = .branch cond t f →
    g.block (origin i) = .branch cond (t.map origin) (f.map origin) ∧ chain i = [origin i]
  /-- A block comes from the first block of its chain, which is in no other chain. -/
  distinct : ∀ i ∈ g'.reachable, (chain i).head? = some (origin i) ∧
    ∀ k ∈ g'.reachable, origin i ∈ chain k → k = i
  /-- Each reachable block is in one chain, once. -/
  once : ∀ j ∈ g.reachable, ∃ i ∈ g'.reachable, (chain i).count j = 1 ∧
    ∀ k ∈ g'.reachable, j ∈ chain k → k = i
  reached : ∀ i ∈ g'.reachable, ∀ j ∈ chain i, j ∈ g.reachable

variable {g : Flow} {oracle : Oracle} {c : Course g.size} {k m n : Nat}

/-! ## Runs -/

theorem after_succ (k : Nat) : g.after oracle (k + 1) = g.advance oracle (g.after oracle k) :=
  Function.iterate_succ_apply' ..

theorem advance_straight {i : Fin g.size} {body : List Stmt} {next : Option (Fin g.size)}
    (hi : g.block i = .straight body next) (past : List Event) :
    g.advance oracle ⟨some i, past⟩ = ⟨next, past ++ body.map .operation⟩ := by
  simp only [advance, hi]

theorem advance_branch {i : Fin g.size} {cond : Value} {t f : Option (Fin g.size)}
    (hi : g.block i = .branch cond t f) (past : List Event) :
    g.advance oracle ⟨some i, past⟩ =
      ⟨if oracle (past ++ [.test cond]) then t else f, past ++ [.test cond]⟩ := by
  simp only [advance, hi]

/-- A run forgets nothing. -/
theorem past_advance (c : Course g.size) : c.past <+: (g.advance oracle c).past := by
  obtain ⟨b, past⟩ := c
  cases b with
  | none => exact List.prefix_rfl
  | some i =>
    unfold advance
    simp only
    split
    · exact List.prefix_append _ _
    · exact List.prefix_append _ _

theorem past_after (h : k ≤ m) : (g.after oracle k).past <+: (g.after oracle m).past := by
  induction h with
  | refl => exact List.prefix_rfl
  | step _ ih => exact ih.trans (after_succ (g := g) _ ▸ past_advance _)

/-- A run that has ended stays where it is. -/
theorem block_after (h : k ≤ m) (hend : (g.after oracle k).block = none) :
    (g.after oracle m).block = none := by
  induction h with
  | refl => exact hend
  | step _ ih =>
    rw [after_succ, advance, ih]
    exact ih

/-- A run goes through the blocks of a chain one after the other. -/
theorem Chain.advance {is : List (Fin g.size)} {ops : List Stmt} {i : Fin g.size}
    {last : Option (Fin g.size)} (h : Chain g (i :: is) ops last) (past : List Event) :
    (g.advance oracle)^[is.length + 1] ⟨some i, past⟩ = ⟨last, past ++ ops.map .operation⟩ := by
  generalize hs : i :: is = js at h
  induction h generalizing i is past with
  | single hi =>
    cases hs
    exact advance_straight hi past
  | cons hi h ih =>
    cases hs
    rw [Function.iterate_succ_apply, advance_straight hi, List.length_cons, ih _ rfl, List.map_append,
      List.append_assoc]

/-- One block of the compressed graph is one or more blocks of the graph. -/
theorem exists_advance_merged (oracle : Oracle) (deg : Vector Nat g.size) (root : Fin g.size)
    (c : Course g.size) :
    ∃ m, (g.merged deg root).advance oracle c = (g.advance oracle)^[m + 1] c := by
  obtain ⟨b, past⟩ := c
  cases b with
  | none => exact ⟨0, rfl⟩
  | some i =>
    have hmerged := block_merged deg root i
    cases hblock : g.block i with
    | branch cond t f =>
      rw [hblock] at hmerged
      exact ⟨0, (advance_branch hmerged past).trans (advance_branch hblock past).symm⟩
    | straight body next =>
      rw [hblock] at hmerged
      obtain ⟨hchain, -⟩ := chain_absorbed deg g.size hblock
      exact ⟨_, (advance_straight hmerged past).trans (hchain.advance past).symm⟩

theorem exists_after_merged (oracle : Oracle) (deg : Vector Nat g.size) {root : Fin g.size}
    (hroot : g.root = some root) (k : Nat) : ∃ m, k ≤ m ∧ (g.merged deg root).after oracle k = g.after oracle m := by
  induction k with
  | zero => exact ⟨0, Nat.le_refl 0, by rw [after, after, hroot]; rfl⟩
  | succ k ih =>
    obtain ⟨m, hle, hm⟩ := ih
    obtain ⟨d, hd⟩ := exists_advance_merged oracle deg root (g.after oracle m)
    refine ⟨d + 1 + m, by omega, ?_⟩
    rw [after_succ, hm, hd]
    exact (Function.iterate_add_apply _ (d + 1) m _).symm

/-- **Runs are the same after compression**, whatever is absorbed. -/
theorem sameRuns_merged (deg : Vector Nat g.size) {root : Fin g.size} (hroot : g.root = some root) :
    SameRuns g (g.merged deg root) := by
  constructor
  · intro oracle n e
    constructor
    · rintro ⟨k, hk⟩
      obtain ⟨m, -, hm⟩ := exists_after_merged oracle deg hroot k
      exact ⟨m, hm ▸ hk⟩
    · rintro ⟨k, hk⟩
      -- after as many blocks the compressed graph is at least as far
      obtain ⟨m, hle, hm⟩ := exists_after_merged oracle deg hroot k
      obtain ⟨more, hmore⟩ : (g.after oracle k).past <+: (g.after oracle m).past := past_after hle
      obtain ⟨hn, -⟩ := List.getElem?_eq_some_iff.1 hk
      refine ⟨k, ?_⟩
      rw [hm, ← hmore, List.getElem?_append_left hn, hk]
  · intro oracle
    constructor
    · rintro ⟨k, hk⟩
      obtain ⟨m, -, hm⟩ := exists_after_merged oracle deg hroot k
      exact ⟨m, hm ▸ hk⟩
    · rintro ⟨k, hk⟩
      obtain ⟨m, hle, hm⟩ := exists_after_merged oracle deg hroot k
      refine ⟨k, ?_⟩
      rw [hm]
      exact block_after hle hk

/-! ## Chains -/

theorem reachable_eq_nil (hroot : g.root = none) : g.reachable = [] := by
  rw [reachable, hroot, visit, visit]
  rfl

/-- A graph without a root has no chains. -/
theorem merges_self (hroot : g.root = none) : Merges g g id fun i => [i] := by
  have hnil := reachable_eq_nil hroot
  constructor
  · simp
  all_goals simp [hnil]

theorem merges_merged {deg : Vector Nat g.size} {root : Fin g.size} (hroot : g.root = some root)
    (hdeg : ∀ j, deg.get j = g.entering root j) : Merges g (g.merged deg root) id (g.chain deg) := by
  have hkept : ∀ i : Fin g.size, i ∈ (g.merged deg root).reachable ↔ g.Kept deg i := fun i =>
    mem_reachable.trans (reached_merged hroot hdeg i)
  have hblock : ∀ i : Fin g.size, (g.merged deg root).block i = g.merge deg (g.block i) :=
    block_merged deg root
  constructor
  · rw [hroot]; rfl
  · intro (i : Fin g.size) hi ops next hops
    have hreached := ((hkept i).1 hi).1
    rcases chain_cases hroot hdeg hreached with ⟨cond, t, f, hbranch, -⟩ | ⟨body, next', hstraight, -, hchain⟩
    · rw [hblock, hbranch] at hops
      cases hops
    · rw [hblock, hstraight] at hops
      cases hops
      change g.Chain _ _ (Option.map (id : Fin g.size → Fin g.size) _)
      rw [Option.map_id]
      exact hchain
  · intro (i : Fin g.size) hi cond t f hcond
    have hreached := ((hkept i).1 hi).1
    rcases chain_cases hroot hdeg hreached with ⟨cond', t', f', hbranch, hchain⟩ | ⟨body, next', hstraight, -⟩
    · rw [hblock, hbranch] at hcond
      cases hcond
      refine ⟨?_, hchain⟩
      change g.block i = .branch cond (Option.map (id : Fin g.size → Fin g.size) _) (Option.map id _)
      rw [Option.map_id]
      exact hbranch
    · rw [hblock, hstraight] at hcond
      cases hcond
  · intro (i : Fin g.size) hi
    have hi := (hkept i).1 hi
    refine ⟨?_, fun (k : Fin g.size) hk hmem => ?_⟩
    · rcases chain_cases hroot hdeg hi.1 with ⟨cond, t, f, -, hchain⟩ | ⟨body, next, -, hcons, -⟩
      · rw [hchain]; rfl
      · rw [hcons]; rfl
    · exact (eq_of_kept_mem_chain hroot hdeg ((hkept k).1 hk).1 hi hmem).symm
  · intro j hj
    obtain ⟨i, hi, hmem⟩ := exists_chain hroot hdeg (mem_reachable.1 hj)
    refine ⟨i, (hkept i).2 hi, ?_, fun (k : Fin g.size) hk hjk =>
      chain_disjoint hroot hdeg ((hkept k).1 hk) hi hjk hmem⟩
    refine List.count_eq_one_of_mem ?_ hmem
    rcases chain_cases hroot hdeg hi.1 with ⟨cond, t, f, -, hchain⟩ | ⟨body, next, hstraight, -⟩
    · rw [hchain]; exact List.nodup_singleton i
    · exact (chain_straight hroot hdeg hi.1 hstraight).2.1
  · intro (i : Fin g.size) hi j hj
    exact mem_reachable.2 (reached_of_mem_chain hroot hdeg ((hkept i).1 hi).1 hj)

/-- **Compression preserves control flow**: runs show the same events and end alike, and
    each reachable block is in exactly one of the chains that the new blocks stand for. -/
theorem compress_preserves_control (g : Flow) (harms : g.HasArms) :
    ∃ g', g.compress = .ok g' ∧ SameRuns g g' ∧ ∃ origin chain, Merges g g' origin chain := by
  cases hroot : g.root with
  | none =>
    refine ⟨g, by unfold compress; rw [hroot], ⟨fun _ _ _ => Iff.rfl, fun _ => Iff.rfl⟩, id, _,
      merges_self hroot⟩
  | some root =>
    obtain ⟨deg, hok, hdeg⟩ := exists_inDegrees harms hroot
    refine ⟨g.merged deg root, ?_, sameRuns_merged deg hroot, id, _, merges_merged hroot hdeg⟩
    unfold compress
    rw [hroot]
    exact Except.bind_eq_ok.2 ⟨deg, hok, rfl⟩

/-- A loop back to the root, a branch with equal arms, and three sequential blocks that
    become one. -/
def loopSample : Flow where
  size := 7
  blocks := #v[.straight [.value (.const 0)] (some 1), .branch (.const 1) (some 2) (some 3),
    .straight [.value (.const 2)] (some 0), .branch (.const 3) (some 4) (some 4),
    .straight [.value (.const 4)] (some 5), .straight [] (some 6), .straight [.ret false] none]
  root := some 0

theorem hasArms_loopSample : loopSample.HasArms := by
  intro i _ cond t f hi
  match i, hi with
  | ⟨1, _⟩, hi | ⟨3, _⟩, hi => cases hi; exact ⟨rfl, rfl⟩
  | ⟨0, _⟩, hi | ⟨2, _⟩, hi | ⟨4, _⟩, hi | ⟨5, _⟩, hi | ⟨6, _⟩, hi => cases hi

theorem compress_preserves_control_loop : loopSample.HasArms ∧
    ∃ g', loopSample.compress = .ok g' ∧ SameRuns loopSample g' ∧
      ∃ origin chain, Merges loopSample g' origin chain :=
  ⟨hasArms_loopSample, compress_preserves_control loopSample hasArms_loopSample⟩

end Flow

end Codegen
