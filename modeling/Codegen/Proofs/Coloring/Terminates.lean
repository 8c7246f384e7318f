/-
  Allocation terminates.

  A step takes a node out of the graph in one of two ways (`Removes`): it puts a simple
  node on the select stack, or it merges a node into another one.  What was taken out
  never comes back, so each virtual node is taken out at one point of the run, in one way
  (`existsUnique_removes`).  All other steps leave the stack and the aliases alone, and
  there are only so many of them (`step_run_start`).
-/
import Codegen.Proofs.Coloring.Allocate
import Codegen.Proofs.Coloring.Ending

namespace Codegen.Coloring

/-- How a node leaves the graph. -/
inductive Removal (n : Nat) where
  /-- It goes on the select stack. -/
  | stacked (i : Fin n)
  /-- It is merged into another node. -/
  | merged (v u : Fin n)

/-- The node that leaves the graph. -/
def Removal.node {n : Nat} : Removal n → Fin n
  | stacked i => i
  | merged v _ => v

/-- What becomes of the stack and of the aliases. -/
def Removal.Effect {n m : Nat} (s s' : State n m) : Removal n → Prop
  | stacked i => s'.stack = i :: s.stack ∧ s'.aliasOf = s.aliasOf
  | merged v u => s'.stack = s.stack ∧ s'.aliasOf = s.aliasOf.set v (some u) v.isLt

variable {n m : Nat} {p : Problem n m}

namespace State

variable {s s' : State n m} {i u v : Fin n} {k : Fin m} {r r' : Removal n} {t t' : Nat}

/-! ## What a step takes out of the graph -/

/-- If the move is tried, `v` is merged into `u`: they are two nodes that do not interfere,
    and merging them is safe. -/
structure Merges (p : Problem n m) (s : State n m) (k : Fin m) (u v : Fin n) : Prop where
  ends : s.ends p k = (u, v)
  ne : u ≠ v
  free : (p.precolored v || (s.linked.get u).get v || p.foreign u) = false
  safe : Safe p s u v

/-- The next step takes a node out of the graph: the newest one of the simplify worklist,
    or else one that the next move to be tried merges. -/
inductive Removes (p : Problem n m) (s : State n m) : Removal n → Prop
  | stacked {i : Fin n} (h : s.simplify.head? = some i) : Removes p s (.stacked i)
  | merged {k : Fin m} {u v : Fin n} (hs : s.simplify = []) (hk : s.nextMove? = some k)
      (hm : s.Merges p k u v) : Removes p s (.merged v u)

theorem isOpen_of_nextMove (h : s.nextMove? = some k) : (s.moveState.get k).isOpen = true := by
  have hk : s.moveState.get k = .pending := by simpa using List.find?_some h
  rw [hk]; rfl

theorem Merges.mergeable (h : s.Inv p {}) (hk : (s.moveState.get k).isOpen = true)
    (hm : s.Merges p k u v) : Mergeable p s u v := by
  obtain ⟨hu, hv⟩ := h.present_ends hk
  rw [hm.ends] at hu hv
  have hfree := hm.free
  simp only [Bool.or_eq_false_iff] at hfree
  exact ⟨hu, ⟨hfree.1.1, hv⟩, hm.ne, fun hl => Bool.false_ne_true (hfree.1.2.symm.trans hl), hfree.2⟩

theorem Merges.tryMove_eq (hm : s.Merges p k u v) :
    s.tryMove p k = ((s.setMove k .coalesced).combine p u v).addWorklist p u := by
  have hsafe : (p.precolored u && s.mergeSafe p u v || !p.precolored u && s.unionSafe p u v) = true := by
    simpa [Safe] using hm.safe
  rw [State.tryMove_eq, hm.ends]
  dsimp only
  rw [if_neg hm.ne, if_neg (Bool.eq_false_iff.1 hm.free), if_pos hsafe]

/-- A move that merges nothing leaves the stack and the aliases alone. -/
theorem sameShape_tryMove (h : ∀ u v, ¬ s.Merges p k u v) : SameShape s (s.tryMove p k) := by
  have hset : ∀ o, SameShape s (s.setMove k o) := fun _ => ⟨rfl, rfl, rfl⟩
  rw [State.tryMove_eq]
  split
  · exact (hset _).trans (sameShape_addWorklist _ _ _)
  · next hne =>
    split
    · exact ((hset _).trans (sameShape_addWorklist _ _ _)).trans (sameShape_addWorklist _ _ _)
    · next hfree =>
      split
      · next hsafe =>
        have hm : s.Merges p k (s.ends p k).1 (s.ends p k).2 :=
          ⟨rfl, hne, Bool.eq_false_iff.2 hfree, by simpa [Safe] using hsafe⟩
        exact absurd hm (h _ _)
      · exact hset _

/-- **A step that takes a node out of the graph** takes out one that is there, and records
    it. -/
theorem Removes.step (h : s.Inv p {}) (hr : s.Removes p r) :
    s.Active p r.node ∧ ∃ s', s.step p = some s' ∧ r.Effect s s' := by
  cases hr with
  | @stacked i hi =>
    obtain ⟨l, hl⟩ := List.head?_eq_some_iff.1 hi
    refine ⟨h.listed.active_iff.2 (Or.inl (by rw [hl]; exact List.mem_cons_self)),
      s.simplifyNode p i, by rw [State.step, hl], ?_⟩
    have hsame := sameShape_simplifyNode p s i
    exact ⟨hsame.stack, hsame.aliasOf⟩
  | @merged k u v hs hk hm =>
    have hmerge := hm.mergeable h (isOpen_of_nextMove hk)
    refine ⟨hmerge.active, s.tryMove p k, by rw [State.step, hs]; simp only [hk], ?_⟩
    have hsame := sameShape_addWorklist p ((s.setMove k .coalesced).combine p u v) u
    obtain ⟨hstack, halias, -⟩ := combine_shape (p := p) (s := s.setMove k .coalesced) h.linked
      ⟨hmerge.present, hmerge.active, hmerge.ne, hmerge.apart, hmerge.own⟩ h.listed
    rw [hm.tryMove_eq]
    exact ⟨hsame.stack.trans hstack, hsame.aliasOf.trans halias⟩

/-- Any other step leaves the stack and the aliases alone. -/
theorem sameShape_of_not_removes (hno : ∀ r, ¬ s.Removes p r) (hs : s.step p = some s') :
    SameShape s s' := by
  unfold State.step at hs
  split at hs
  · next i l hl => exact absurd (.stacked (by rw [hl]; rfl)) (hno (.stacked i))
  · next hl =>
    split at hs
    · next k hk =>
      rw [← Option.some.inj hs]
      exact sameShape_tryMove fun u v hm => hno _ (.merged hl hk hm)
    · split at hs
      · next u l hf =>
        rw [← Option.some.inj hs]
        have hsame := sameShape_freezeMoves p
          { s with freeze := s.freeze.erase u, simplify := push u s.simplify } u
        exact ⟨hsame.stack, hsame.aliasOf, hsame.linked⟩
      · obtain ⟨u, -, rfl⟩ := Option.map_eq_some_iff.1 hs
        have hsame := sameShape_freezeMoves p
          { s with spill := s.spill.erase u, simplify := push u s.simplify } u
        exact ⟨hsame.stack, hsame.aliasOf, hsame.linked⟩

/-- At most one node is taken out at a time, in one way. -/
theorem Removes.eq (hr : s.Removes p r) (hr' : s.Removes p r') : r = r' := by
  cases hr with
  | stacked hi =>
    cases hr' with
    | stacked hj => rw [Option.some.inj (hi.symm.trans hj)]
    | merged hs => rw [hs] at hi; cases hi
  | merged hs hk hm =>
    cases hr' with
    | stacked hj => rw [hs] at hj; cases hj
    | merged _ hk' hm' =>
      obtain rfl := Option.some.inj (hk.symm.trans hk')
      obtain ⟨rfl, rfl⟩ := Prod.mk.inj (hm.ends.symm.trans hm'.ends)
      rfl

/-- What is taken out is no longer there, and nothing else has gone. -/
theorem Removal.Effect.active_iff (h : r.Effect s s') :
    s'.Active p i ↔ s.Active p i ∧ i ≠ r.node := by
  cases r with
  | stacked j =>
    simp only [Active, Present, coalesced, h.1, h.2, List.mem_cons, not_or, Removal.node, ne_eq]
    tauto
  | merged v u =>
    simp only [Active, Present, coalesced, h.1, h.2, Removal.node, ne_eq]
    by_cases hi : i = v
    · subst hi; simp
    · rw [Indexed.get_set_ne _ _ hi]
      tauto

/-! ## Over a whole run -/

theorem run_succ (p : Problem n m) (t : Nat) (s : State n m) :
    s.run p (t + 1) = ((s.run p t).step p).getD (s.run p t) := by
  induction t generalizing s with
  | zero =>
    simp only [run]
    cases s.step p <;> rfl
  | succ t ih =>
    rw [run]
    cases hs : s.step p with
    | none =>
      have hstay : s.run p (t + 1) = s := by rw [run, hs]
      rw [hstay, hs]; rfl
    | some s' =>
      have hgo : s.run p (t + 1) = s'.run p t := by rw [run, hs]
      rw [hgo]
      exact ih s'

theorem run_of_step (h : (s.run p t).step p = some s') : s.run p (t + 1) = s' := by
  rw [run_succ, h]; rfl

/-- A step takes one node out of the graph, or leaves the stack and the aliases alone. -/
theorem step_removes (h : s.Inv p {}) (hs : s.step p = some s') :
    (∃ r, s.Removes p r ∧ r.Effect s s') ∨ (∀ r, ¬ s.Removes p r) ∧ SameShape s s' := by
  by_cases hr : ∃ r, s.Removes p r
  · obtain ⟨r, hr⟩ := hr
    obtain ⟨-, s'', hs'', heffect⟩ := hr.step h
    obtain rfl := Option.some.inj (hs.symm.trans hs'')
    exact Or.inl ⟨r, hr, heffect⟩
  · have hno := not_exists.1 hr
    exact Or.inr ⟨hno, sameShape_of_not_removes hno hs⟩

theorem active_of_step (h : s.Inv p {}) (hs : s.step p = some s') (hi : s'.Active p i) :
    s.Active p i := by
  rcases step_removes h hs with ⟨r, -, heffect⟩ | ⟨-, hsame⟩
  · exact (Removal.Effect.active_iff heffect).1 hi |>.1
  · exact ⟨hi.1, hsame.present_iff.1 hi.2⟩

section
variable (p) (edges : List (Fin n × Fin n))

/-- What has left the graph never comes back. -/
theorem active_run_of_le (hle : t ≤ t') (hi : ((start p edges).run p t').Active p i) :
    ((start p edges).run p t).Active p i := by
  induction hle with
  | refl => exact hi
  | @step t' _ ih =>
    refine ih ?_
    rw [run_succ] at hi
    cases hs : ((start p edges).run p t').step p with
    | none => rw [hs] at hi; exact hi
    | some s' =>
      rw [hs] at hi
      exact active_of_step (inv_run_start p edges t') hs hi

/-- A node that was taken out is not in the graph any more. -/
theorem not_active_of_removes (hr : ((start p edges).run p t).Removes p r) (hlt : t < t') :
    ¬ ((start p edges).run p t').Active p r.node := by
  intro hactive
  obtain ⟨-, s', hs, heffect⟩ := hr.step (inv_run_start p edges t)
  have := active_run_of_le p edges (Nat.succ_le_of_lt hlt) hactive
  rw [run_of_step hs, Removal.Effect.active_iff heffect] at this
  exact this.2 rfl

/-- A virtual node is taken out at some point of the run. -/
theorem exists_removes (hi : p.precolored i = false) :
    ∃ t r, ((start p edges).run p t).Removes p r ∧ r.node = i := by
  by_contra hno
  push Not at hno
  -- otherwise it would be there all the time
  have hstay : ∀ t, ((start p edges).run p t).Active p i := by
    intro t
    induction t with
    | zero => exact ⟨hi, present_start i⟩
    | succ t ih =>
      rw [run_succ]
      cases hs : ((start p edges).run p t).step p with
      | none => exact ih
      | some s' =>
        rcases step_removes (inv_run_start p edges t) hs with ⟨r, hr, heffect⟩ | ⟨-, hsame⟩
        · exact (Removal.Effect.active_iff heffect).2 ⟨ih, Ne.symm (hno t r hr)⟩
        · exact ⟨hi, hsame.present_iff.2 ih.2⟩
  exact not_active_of_step (inv_run_start p edges _) (step_run_start p edges) i (hstay _)

/-- **A virtual node is taken out once**: it is stacked or merged, at one point of the run. -/
theorem existsUnique_removes (hi : p.precolored i = false) :
    ∃! e : Nat × Removal n, e.2.node = i ∧ ((start p edges).run p e.1).Removes p e.2 := by
  obtain ⟨t, r, hr, rfl⟩ := exists_removes p edges hi
  refine ⟨(t, r), ⟨rfl, hr⟩, ?_⟩
  rintro ⟨t', r'⟩ ⟨hnode, hr'⟩
  dsimp only at hnode hr'
  have hactive := (hr.step (inv_run_start p edges t)).1
  have hactive' := (hr'.step (inv_run_start p edges t')).1
  rcases Nat.lt_trichotomy t t' with hlt | rfl | hlt
  · exact absurd (hnode ▸ hactive') (not_active_of_removes p edges hr hlt)
  · rw [hr.eq hr']
  · exact absurd (hnode.symm ▸ hactive) (not_active_of_removes p edges hr' hlt)

end

/-! ## Chains of aliases -/

theorem reflTransGen_chase (aliasOf : Vector (Option (Fin n)) n) (l : Nat) (i : Fin n) :
    Relation.ReflTransGen (fun a b => aliasOf.get a = some b) i (chase aliasOf l i) := by
  induction l generalizing i with
  | zero => exact .refl
  | succ l ih =>
    cases hi : aliasOf.get i with
    | none => rw [chase_of_none hi]
    | some j =>
      rw [chase_of_some hi]
      exact .head hi (ih j)

/-- What it means that a loop over the steps terminates, having taken every virtual node
    out of the graph. -/
structure Terminates (p : Problem n m) (s : State n m) (limit : Nat) : Prop where
  /-- So many steps are enough. -/
  ends : (s.run p limit).step p = none
  /-- More of them would change nothing. -/
  rest : ∀ {t}, limit ≤ t → s.run p t = s.run p limit
  /-- A step stacks one node or merges one into another, as it decides to, or leaves the
      stack and the aliases alone. -/
  steps : ∀ {t s'}, (s.run p t).step p = some s' →
    (∃ r, (s.run p t).Removes p r ∧ r.Effect (s.run p t) s') ∨
      (∀ r, ¬ (s.run p t).Removes p r) ∧ s'.stack = (s.run p t).stack ∧
        s'.aliasOf = (s.run p t).aliasOf
  /-- Each virtual node is stacked once or merged once, and not both. -/
  once : ∀ {i}, p.precolored i = false →
    ∃! e : Nat × Removal n, e.2.node = i ∧ (s.run p e.1).Removes p e.2
  /-- In the end it is on the stack, once, or it has an alias. -/
  outcome : ∀ {i}, p.precolored i = false →
    (s.run p limit).stack.count i = if (s.run p limit).coalesced i then 0 else 1
  /-- Physical nodes are never taken out. -/
  physical : ∀ {i}, p.precolored i = true →
    (∀ t r, (s.run p t).Removes p r → r.node ≠ i) ∧ (s.run p limit).Present i
  /-- At each point, following aliases from a node leads to one that has none. -/
  chains : ∀ t i, Relation.ReflTransGen (fun a b => (s.run p t).aliasOf.get a = some b) i
      ((s.run p t).representative i) ∧
    (s.run p t).coalesced ((s.run p t).representative i) = false

/-- A run that has ended stays where it is. -/
theorem run_of_le (h : (s.run p t).step p = none) (hle : t ≤ t') : s.run p t' = s.run p t := by
  induction hle with
  | refl => rfl
  | step _ ih => rw [run_succ, ih, h]; rfl

/-- In the end a virtual node is on the stack, once, or it has an alias. -/
theorem count_stack (p : Problem n m) (edges : List (Fin n × Fin n)) (hi : p.precolored i = false) :
    ((start p edges).run p (stepLimit n m)).stack.count i =
      if ((start p edges).run p (stepLimit n m)).coalesced i then 0 else 1 := by
  have hinv := inv_run_start p edges (stepLimit n m)
  have hgone := not_active_of_step hinv (step_run_start p edges) i
  split
  · next hc =>
    refine List.count_eq_zero_of_not_mem fun hs => ?_
    rw [(hinv.stacked hs).2] at hc; cases hc
  · next hc =>
    refine List.count_eq_one_of_mem hinv.stack_nodup ?_
    by_contra hs
    exact hgone ⟨hi, hs, Bool.eq_false_iff.2 hc⟩

end State

end Codegen.Coloring

namespace Codegen.Allocator

open Coloring.State in
/-- **Allocation terminates, whatever the graphs, the palette and the costs.**  The steps
    that are allowed are enough, and the colors are those of the state that they end in. -/
theorem allocate_terminates (a : Allocator) (conflicts copies : Graph) :
    Terminates (a.problem conflicts copies)
        (start (a.problem conflicts copies) (edges conflicts copies))
        (Coloring.stepLimit (registers conflicts copies).length (moves conflicts copies).length) ∧
      a.allocate conflicts copies = Coloring.allocation (a.problem conflicts copies)
        (Coloring.assignColors (a.problem conflicts copies)
          (run (a.problem conflicts copies)
            (Coloring.stepLimit (registers conflicts copies).length (moves conflicts copies).length)
            (start (a.problem conflicts copies) (edges conflicts copies)))) := by
  have hinv := inv_run_start (a.problem conflicts copies) (edges conflicts copies)
  have hends := step_run_start (a.problem conflicts copies) (edges conflicts copies)
  refine ⟨⟨hends, run_of_le hends, fun hs => ?_, existsUnique_removes _ _, count_stack _ _,
    fun {i} hi => ⟨fun t r hr e => ?_, (hinv _).present_of_precolored hi⟩,
    fun t i => ⟨reflTransGen_chase _ _ i, (hinv t).coalesced_representative i⟩⟩, rfl⟩
  · exact (step_removes (hinv _) hs).imp_right fun h => ⟨h.1, h.2.stack, h.2.aliasOf⟩
  · have hactive := (hr.step (hinv t)).1
    rw [e, Active, hi] at hactive
    cases hactive.1

end Codegen.Allocator
