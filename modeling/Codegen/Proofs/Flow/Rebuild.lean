/-
  Rebuilding the blocks of a graph on demand.

  A sequential block takes in what follows it with no limit, and calls are answered as they
  come up.  Every step keeps to the compressed graph (`Faithful`): what is rebuilt are kept
  blocks, as they are there, and what they continue with was called.  Every step also gets
  something done (`Faithful.move`), since a chain has each block once.  When nothing is left
  to be done, exactly the blocks of the compressed graph are rebuilt (`Faithful.memo_eq`).
-/
import Codegen.Flow.Rebuild
import Codegen.Proofs.Flow.Normal

namespace Codegen.Flow

variable {g : Flow} {deg : Vector Nat g.size} {root i j : Fin g.size} {body : List Stmt}
  {next : Option (Fin g.size)} {r r' : Rebuild g.size} {limit : Nat}

/-! ## Steps -/

theorem takeIn_of_absorbable (hone : deg.get j = 1) (hj : g.block j = .straight body next) :
    g.takeIn deg (some j) = some (body, next) := by
  rw [takeIn, hj]
  exact if_pos hone

/-- What the next block gives is what a block that can be absorbed has. -/
theorem takeIn_eq_some {last : Option (Fin g.size)} (h : g.takeIn deg next = some (body, last)) :
    ∃ j, next = some j ∧ deg.get j = 1 ∧ g.block j = .straight body last := by
  cases next with
  | none => cases h
  | some j =>
    rw [takeIn] at h
    split at h
    · next hj =>
      split at h
      · next hone =>
        cases h
        exact ⟨j, rfl, hone, hj⟩
      · cases h
    · cases h

theorem not_absorbable_of_takeIn (h : g.takeIn deg next = none) (hj : next = some j) :
    ¬ g.Absorbable deg j := by
  rintro ⟨hone, body, last, hblock⟩
  rw [hj, takeIn_of_absorbable hone hblock] at h
  cases h

namespace Rebuild

/-- A block is called and has to be rebuilt. -/
structure Calls (r : Rebuild g.size) (i : Fin g.size) : Prop where
  idle : r.growing = none
  call : r.calls.head? = some (some i)
  fresh : r.memo.get i = none

/-- A block is taken in by the one before it. -/
def Absorbs (deg : Vector Nat g.size) (r : Rebuild g.size) (j : Fin g.size) : Prop :=
  ∃ c, r.growing = some c ∧ c.next = some j ∧ g.Absorbable deg j

/-- A block is called and has to be rebuilt, or is taken in. -/
def Takes (deg : Vector Nat g.size) (r : Rebuild g.size) (j : Fin g.size) : Prop :=
  r.Calls j ∨ r.Absorbs deg j

/-- What a step does. -/
inductive Move (g : Flow) (deg : Vector Nat g.size) (r : Rebuild g.size) : Rebuild g.size → Prop
  /-- One more block is taken in. -/
  | absorb {c : Growing g.size} {j : Fin g.size} {body : List Stmt} {next : Option (Fin g.size)}
      (hc : r.growing = some c) (hj : c.next = some j) (hone : deg.get j = 1)
      (hblock : g.block j = .straight body next) :
      Move g deg r { r with growing := some ⟨c.block, c.ops ++ body, next⟩ }
  /-- The chain is complete, and what comes after it is called. -/
  | finish {c : Growing g.size} (hc : r.growing = some c)
      (hend : ∀ j, c.next = some j → ¬ g.Absorbable deg j) :
      Move g deg r
        ⟨c.next :: r.calls, none, remember r.memo c.block (.straight c.ops c.next)⟩
  /-- A call needs no answer, or has one. -/
  | skip {b : Option (Fin g.size)} {calls : List (Option (Fin g.size))} (hc : r.growing = none)
      (hcalls : r.calls = b :: calls) (hb : ∀ i, b = some i → r.memo.get i ≠ none) :
      Move g deg r { r with calls }
  /-- A branch is rebuilt, and its arms are called. -/
  | branch {i : Fin g.size} {calls : List (Option (Fin g.size))} {cond : Value}
      {t f : Option (Fin g.size)} (hc : r.growing = none) (hcalls : r.calls = some i :: calls)
      (hi : r.memo.get i = none) (hblock : g.block i = .branch cond t f) :
      Move g deg r ⟨t :: f :: calls, none, remember r.memo i (.branch cond t f)⟩
  /-- A sequential block starts to take in what follows it. -/
  | grow {i : Fin g.size} {calls : List (Option (Fin g.size))} {body : List Stmt}
      {next : Option (Fin g.size)} (hc : r.growing = none) (hcalls : r.calls = some i :: calls)
      (hi : r.memo.get i = none) (hblock : g.block i = .straight body next) :
      Move g deg r ⟨calls, some ⟨i, body, next⟩, remember r.memo i (.straight [] none)⟩

theorem move_of_step (h : r.step g deg = some r') : Move g deg r r' := by
  unfold step at h
  split at h
  · next c hc =>
    split at h
    · next body next hnext =>
      obtain ⟨j, hj, hone, hblock⟩ := takeIn_eq_some hnext
      rw [← Option.some.inj h]
      exact .absorb hc hj hone hblock
    · next hnext =>
      rw [← Option.some.inj h]
      exact .finish hc fun j => not_absorbable_of_takeIn hnext
  · next hc =>
    split at h
    · cases h
    · next calls hcalls =>
      rw [← Option.some.inj h]
      refine .skip hc hcalls fun j hj => ?_
      cases hj
    · next i calls hcalls =>
      split at h
      · next b hi =>
        rw [← Option.some.inj h]
        refine .skip hc hcalls fun j hj => ?_
        rw [← Option.some.inj hj, hi]
        exact Option.some_ne_none b
      · next hi =>
        split at h
        · next cond t f hblock =>
          rw [← Option.some.inj h]
          exact .branch hc hcalls hi hblock
        · next body next hblock =>
          rw [← Option.some.inj h]
          exact .grow hc hcalls hi hblock

/-- Where nothing is left to be done, all calls are answered. -/
theorem idle_of_step (h : r.step g deg = none) : r.growing = none ∧ r.calls = [] := by
  unfold step at h
  split at h
  · split at h <;> cases h
  · next hc =>
    split at h
    · next hcalls => exact ⟨hc, hcalls⟩
    · cases h
    · split at h
      · cases h
      · split at h <;> cases h

section
variable {n : Nat} {memo : Vector (Option (Block (Fin n))) n} {i j : Fin n} {b : Block (Fin n)}

theorem get_remember_self : (remember memo i b).get i = some b := Indexed.get_set_self ..

theorem get_remember_ne (hj : j ≠ i) : (remember memo i b).get j = memo.get j :=
  Indexed.get_set_ne _ _ hj

theorem get_remember_ne_none :
    (remember memo i b).get j ≠ none ↔ j = i ∨ memo.get j ≠ none := by
  by_cases hj : j = i
  · subst hj; simp [get_remember_self]
  · simp [get_remember_ne hj, hj]

theorem isNone_of_remember (h : ((remember memo i b).get j).isNone = true) :
    (memo.get j).isNone = true := by
  rw [Option.isNone_iff_eq_none] at h ⊢
  by_contra hne
  exact get_remember_ne_none.2 (Or.inr hne) h

end

namespace Move

/-- What was rebuilt is remembered; nothing is added but what is called. -/
theorem memo_iff (h : Move g deg r r') (hgrowing : ∀ c, r.growing = some c → r.memo.get c.block ≠ none) :
    r'.memo.get i ≠ none ↔ r.memo.get i ≠ none ∨ r.Calls i := by
  have hcall : ∀ {k : Fin g.size} {calls}, r.growing = none → r.calls = some k :: calls →
      r.memo.get k = none → (r.Calls i ↔ i = k) := by
    intro k calls hc hcalls hk
    constructor
    · rintro ⟨-, hcall, -⟩
      rw [hcalls] at hcall
      exact (Option.some.inj (Option.some.inj hcall)).symm
    · rintro rfl
      exact ⟨hc, by rw [hcalls]; rfl, hk⟩
  cases h with
  | absorb hc =>
    refine ⟨Or.inl, fun h => h.resolve_right fun hcall => ?_⟩
    rw [hcall.idle] at hc
    cases hc
  | @finish c hc hend =>
    rw [get_remember_ne_none]
    constructor
    · rintro (rfl | hi)
      · exact Or.inl (hgrowing c hc)
      · exact Or.inl hi
    · rintro (hi | hcall)
      · exact Or.inr hi
      · rw [hcall.idle] at hc
        cases hc
  | skip hc hcalls hb =>
    refine ⟨Or.inl, fun h => h.resolve_right fun hcall => ?_⟩
    have := hcall.call
    rw [hcalls] at this
    exact hb i (Option.some.inj this) hcall.fresh
  | branch hc hcalls hi => rw [get_remember_ne_none, hcall hc hcalls hi, or_comm]
  | grow hc hcalls hi => rw [get_remember_ne_none, hcall hc hcalls hi, or_comm]

/-- A block that is taking in a chain has just been called, or has just taken in a block;
    that block is followed by what comes next. -/
theorem growing_eq_some {c : Growing g.size} (h : Move g deg r r') (hc : r'.growing = some c) :
    ∃ k body, r.Takes deg k ∧ g.block k = .straight body c.next := by
  cases h with
  | @absorb c' j body next hc' hj hone hblock =>
    cases hc
    exact ⟨j, body, Or.inr ⟨c', hc', hj, hone, body, next, hblock⟩, hblock⟩
  | finish => cases hc
  | skip hidle => rw [hidle] at hc; cases hc
  | branch => cases hc
  | @grow i calls body next hidle hcalls hi hblock =>
    cases hc
    exact ⟨i, body, Or.inl ⟨hidle, by rw [hcalls]; rfl, hi⟩, hblock⟩

end Move

/-! ## The invariant -/

/-- A block was rebuilt or is to be. -/
def Known (r : Rebuild g.size) (i : Fin g.size) : Prop := r.memo.get i ≠ none ∨ some i ∈ r.calls

/-- The state of rebuilding: what is rebuilt are blocks of the compressed graph, what they
    continue with is known, and a block that is taking in a chain will have the operations
    that it has in the compressed graph after less than `limit` more blocks. -/
structure Faithful (deg : Vector Nat g.size) (root : Fin g.size) (limit : Nat) (r : Rebuild g.size) :
    Prop where
  root : r.Known root
  kept : ∀ {i}, r.Known i → g.Kept deg i
  done : ∀ {i b}, r.memo.get i = some b → (∀ c, r.growing = some c → c.block ≠ i) →
    b = g.merge deg (g.block i) ∧ ∀ j, some j ∈ b.successors → r.Known j
  growing : ∀ {c}, r.growing = some c → r.memo.get c.block ≠ none ∧
    g.merge deg (g.block c.block) =
      .straight (c.ops ++ (g.absorb deg limit c.next).1) (g.absorb deg limit c.next).2
  bounded : ∀ {c}, r.growing = some c → (g.absorbed deg limit c.next).length < limit
  reached : ∀ {c}, r.growing = some c → ∀ j, c.next = some j → g.Reached j

/-- The number of blocks that are not rebuilt. -/
def unbuilt {n : Nat} (memo : Vector (Option (Block (Fin n))) n) : Nat :=
  (List.finRange n).countP fun i => (memo.get i).isNone

/-- What is left to be done. -/
def toDo (limit : Nat) (r : Rebuild g.size) : Nat :=
  unbuilt r.memo * (g.size + 4) + r.calls.length + r.growing.elim 0 fun _ => limit + 2

theorem unbuilt_remember_lt {n : Nat} {memo : Vector (Option (Block (Fin n))) n} {i : Fin n}
    (hi : memo.get i = none) (b : Block (Fin n)) :
    unbuilt (remember memo i b) < unbuilt memo := by
  refine countP_lt_countP (List.mem_finRange i) (by rw [hi]; rfl) ?_ fun j => isNone_of_remember
  rw [get_remember_self]
  simp

theorem unbuilt_remember_le {n : Nat} (memo : Vector (Option (Block (Fin n))) n) (i : Fin n)
    (b : Block (Fin n)) : unbuilt (remember memo i b) ≤ unbuilt memo :=
  List.countP_mono_left fun _ _ => isNone_of_remember

/-- Rebuilding a block makes up for the calls and for the chain that it leads to. -/
theorem toDo_remember_lt {memo : Vector (Option (Block (Fin g.size))) g.size} (hi : memo.get i = none)
    (b : Block (Fin g.size)) {more less : Nat} (h : more < less + (g.size + 4)) :
    unbuilt (remember memo i b) * (g.size + 4) + more < unbuilt memo * (g.size + 4) + less := by
  have hlt := unbuilt_remember_lt hi b
  have hmul := Nat.mul_le_mul_right (g.size + 4) (Nat.succ_le_of_lt hlt)
  rw [Nat.succ_mul] at hmul
  omega

section
variable (hroot : g.root = some root) (hdeg : ∀ j, deg.get j = g.entering root j)
include hroot hdeg

/-- What a kept block continues with in the compressed graph is kept. -/
theorem kept_of_mem_successors (hi : g.Kept deg i)
    (hj : some j ∈ (g.merge deg (g.block i)).successors) : g.Kept deg j := by
  have hblock : (g.merged deg root).block i = g.merge deg (g.block i) := block_merged deg root i
  refine (reached_merged hroot hdeg j).1 (((reached_merged hroot hdeg i).2 hi).step ?_)
  change some j ∈ ((g.merged deg root).block i).successors
  rw [hblock]
  exact hj

omit hroot hdeg in
theorem Faithful.absorb {c : Growing g.size} (h : r.Faithful deg root limit) (hc : r.growing = some c)
    (hj : c.next = some j) (hone : deg.get j = 1) (hblock : g.block j = .straight body next) :
    ∃ limit', limit' < limit ∧
      Faithful deg root limit' { r with growing := some ⟨c.block, c.ops ++ body, next⟩ } := by
  obtain ⟨limit, rfl⟩ : ∃ l, limit = l + 1 := ⟨limit - 1, by have := h.bounded hc; omega⟩
  obtain ⟨hmemo, hmerge⟩ := h.growing hc
  have hbounded := h.bounded hc
  rw [hj] at hmerge hbounded
  simp only [Flow.absorb, absorbed, hblock, hone, if_true, List.length_cons] at hmerge hbounded
  refine ⟨limit, Nat.lt_succ_self limit, h.root, h.kept, fun {i b} hi hne => ?_, ?_, ?_, ?_⟩
  · refine h.done hi fun c' hc' => ?_
    rw [Option.some.inj (hc'.symm.trans hc)]
    exact hne ⟨c.block, c.ops ++ body, next⟩ rfl
  · rintro _ ⟨⟩
    exact ⟨hmemo, by rw [hmerge, List.append_assoc]⟩
  · rintro _ ⟨⟩
    exact Nat.lt_of_succ_lt_succ hbounded
  · rintro _ ⟨⟩ k hk
    exact (h.reached hc j hj).step ((mem_successors_straight hblock).2 hk)

omit hroot hdeg in
theorem Known.set {calls : List (Option (Fin g.size))} {growing : Option (Growing g.size)}
    {b : Block (Fin g.size)} (hold : ∀ j, some j ∈ r.calls → j = i ∨ some j ∈ calls) (h : r.Known j) :
    Known ⟨calls, growing, remember r.memo i b⟩ j := by
  rcases h with hj | hj
  · exact Or.inl (get_remember_ne_none.2 (Or.inr hj))
  · rcases hold j hj with rfl | hj
    · exact Or.inl (get_remember_ne_none.2 (Or.inl rfl))
    · exact Or.inr hj

/-- A block is rebuilt, and what it continues with is called. -/
theorem Faithful.build {calls : List (Option (Fin g.size))} {b : Block (Fin g.size)}
    (h : r.Faithful deg root limit) (hi : r.Known i) (hb : b = g.merge deg (g.block i))
    (hgrowing : ∀ c, r.growing = some c → c.block = i)
    (hold : ∀ j, some j ∈ r.calls → j = i ∨ some j ∈ calls)
    (hnew : ∀ j, some j ∈ calls → some j ∈ b.successors ∨ some j ∈ r.calls)
    (hsucc : ∀ j, some j ∈ b.successors → some j ∈ calls) :
    Faithful deg root 0 ⟨calls, none, remember r.memo i b⟩ where
  root := h.root.set hold
  kept {j} hj := by
    rcases hj with hj | hj
    · rcases get_remember_ne_none.1 hj with rfl | hj
      · exact h.kept hi
      · exact h.kept (Or.inl hj)
    · rcases hnew j hj with hj | hj
      · exact kept_of_mem_successors hroot hdeg (h.kept hi) (hb ▸ hj)
      · exact h.kept (Or.inr hj)
  done {j b'} hj _ := by
    by_cases hji : j = i
    · subst hji
      have hb' : b = b' := Option.some.inj (get_remember_self.symm.trans hj)
      subst hb'
      exact ⟨hb, fun k hk => Or.inr (hsucc k hk)⟩
    · have hj' : r.memo.get j = some b' := (get_remember_ne hji).symm.trans hj
      obtain ⟨hmerge, hknown⟩ := h.done hj' fun c hc e => hji (e.symm.trans (hgrowing c hc))
      exact ⟨hmerge, fun k hk => (hknown k hk).set hold⟩
  growing hc := by cases hc
  bounded hc := by cases hc
  reached hc := by cases hc

theorem Faithful.finish {c : Growing g.size} (h : r.Faithful deg root limit) (hc : r.growing = some c)
    (hend : ∀ j, c.next = some j → ¬ g.Absorbable deg j) :
    Faithful deg root 0
      ⟨c.next :: r.calls, none, remember r.memo c.block (.straight c.ops c.next)⟩ := by
  obtain ⟨hmemo, hmerge⟩ := h.growing hc
  rw [absorb_of_not_absorbable hend, List.append_nil] at hmerge
  refine h.build hroot hdeg (Or.inl hmemo) hmerge.symm (fun c' hc' => ?_) (fun j hj => ?_)
    (fun j hj => ?_) fun j hj => ?_
  · rw [Option.some.inj (hc'.symm.trans hc)]
  · exact Or.inr (List.mem_cons_of_mem _ hj)
  · exact (List.mem_cons.1 hj).imp_left fun e => Block.mem_successors.2 e.symm
  · rw [Block.mem_successors.1 hj]
    exact List.mem_cons_self

theorem Faithful.branch {calls : List (Option (Fin g.size))} {cond : Value} {t f : Option (Fin g.size)}
    (h : r.Faithful deg root limit) (hc : r.growing = none) (hcalls : r.calls = some i :: calls)
    (hblock : g.block i = .branch cond t f) :
    Faithful deg root 0 ⟨t :: f :: calls, none, remember r.memo i (.branch cond t f)⟩ := by
  refine h.build hroot hdeg (Or.inr (by rw [hcalls]; exact List.mem_cons_self)) (by rw [hblock]; rfl)
    (fun c hc' => ?_) (fun j hj => ?_) (fun j hj => ?_) fun j hj => ?_
  · rw [hc] at hc'; cases hc'
  · rw [hcalls] at hj
    rcases List.mem_cons.1 hj with e | hj
    · exact Or.inl (Option.some.inj e)
    · exact Or.inr (List.mem_cons_of_mem _ (List.mem_cons_of_mem _ hj))
  · rw [hcalls]
    simp only [List.mem_cons, Block.successors, List.not_mem_nil, or_false] at hj ⊢
    tauto
  · simp only [List.mem_cons, Block.successors, List.not_mem_nil, or_false] at hj ⊢
    tauto

theorem Faithful.grow {calls : List (Option (Fin g.size))} (h : r.Faithful deg root limit)
    (hc : r.growing = none) (hcalls : r.calls = some i :: calls)
    (hblock : g.block i = .straight body next) :
    Faithful deg root g.size
      ⟨calls, some ⟨i, body, next⟩, remember r.memo i (.straight [] none)⟩ := by
  have hkept : g.Kept deg i := h.kept (Or.inr (by rw [hcalls]; exact List.mem_cons_self))
  have hold : ∀ j, some j ∈ r.calls → j = i ∨ some j ∈ calls := by
    intro j hj
    rw [hcalls] at hj
    exact (List.mem_cons.1 hj).imp_left Option.some.inj
  refine ⟨h.root.set hold, fun {j} hj => ?_, fun {j b} hj hne => ?_, ?_, ?_, ?_⟩
  · rcases hj with hj | hj
    · rcases get_remember_ne_none.1 hj with rfl | hj
      · exact hkept
      · exact h.kept (Or.inl hj)
    · exact h.kept (Or.inr (by rw [hcalls]; exact List.mem_cons_of_mem _ hj))
  · have hji : j ≠ i := Ne.symm (hne ⟨i, body, next⟩ rfl)
    have hj' : r.memo.get j = some b := (get_remember_ne hji).symm.trans hj
    obtain ⟨hmerge, hknown⟩ := h.done hj' fun c hc' => by rw [hc] at hc'; cases hc'
    exact ⟨hmerge, fun k hk => (hknown k hk).set hold⟩
  · rintro _ ⟨⟩
    exact ⟨get_remember_ne_none.2 (Or.inl rfl), by rw [hblock]; rfl⟩
  · -- the chain has each block once
    rintro _ ⟨⟩
    have hnodup := nodup_chain hroot hdeg hkept.1
    rw [chain, hblock] at hnodup
    simpa using hnodup.length_le_card
  · rintro _ ⟨⟩ j hj
    exact hkept.1.step ((mem_successors_straight hblock).2 hj)

/-- **Every step is faithful, and gets something done.** -/
theorem Faithful.move (h : r.Faithful deg root limit) (hm : Move g deg r r') :
    ∃ limit', r'.Faithful deg root limit' ∧ r'.toDo limit' < r.toDo limit := by
  cases hm with
  | @absorb c j body next hc hj hone hblock =>
    obtain ⟨limit', hlt, hfaithful⟩ := h.absorb hc hj hone hblock
    refine ⟨limit', hfaithful, ?_⟩
    simp only [toDo, hc, Option.elim_some]
    omega
  | @finish c hc hend =>
    refine ⟨0, h.finish hroot hdeg hc hend, ?_⟩
    have hle := Nat.mul_le_mul_right (g.size + 4)
      (unbuilt_remember_le r.memo c.block (.straight c.ops c.next))
    simp only [toDo, hc, Option.elim_some, Option.elim_none, List.length_cons]
    omega
  | @skip b calls hc hcalls hb =>
    have hknown : ∀ {i}, r.Known i → Known { r with calls } i := by
      rintro i (hi | hi)
      · exact Or.inl hi
      · rw [hcalls] at hi
        rcases List.mem_cons.1 hi with e | hi
        · exact Or.inl (hb i e.symm)
        · exact Or.inr hi
    refine ⟨limit, ⟨hknown h.root, fun {i} hi => h.kept (hi.imp_right fun hi => ?_), fun {i b} hi hne => ?_,
      h.growing, h.bounded, h.reached⟩, ?_⟩
    · rw [hcalls]; exact List.mem_cons_of_mem _ hi
    · obtain ⟨hmerge, hsucc⟩ := h.done hi hne
      exact ⟨hmerge, fun j hj => hknown (hsucc j hj)⟩
    · simp only [toDo, hcalls, List.length_cons]
      omega
  | @branch i calls cond t f hc hcalls hi hblock =>
    refine ⟨0, h.branch hroot hdeg hc hcalls hblock, ?_⟩
    simp only [toDo, hc, hcalls, Option.elim_none, List.length_cons, Nat.add_assoc]
    exact toDo_remember_lt hi _ (by omega)
  | @grow i calls body next hc hcalls hi hblock =>
    refine ⟨g.size, h.grow hroot hdeg hc hcalls hblock, ?_⟩
    simp only [toDo, hc, hcalls, Option.elim_none, Option.elim_some, List.length_cons, Nat.add_assoc]
    exact toDo_remember_lt hi _ (by omega)

omit hroot hdeg in
/-- Where nothing is left to be done, all blocks of the compressed graph are rebuilt. -/
theorem Faithful.memo_ne_none (h : r.Faithful deg root limit) (hs : r.step g deg = none) {n : Nat}
    {j : Fin (g.merged deg root).size} (hj : (g.merged deg root).ReachedIn n j) :
    r.memo.get j ≠ none := by
  obtain ⟨hidle, hcalls⟩ := idle_of_step hs
  have hknown : ∀ {i}, r.Known i → r.memo.get i ≠ none := fun hi => hi.resolve_right (by simp [hcalls])
  induction hj with
  | @root k hk =>
    obtain rfl : root = k := Option.some.inj hk
    exact hknown h.root
  | @step n i j _ hj ih =>
    have hblock : (g.merged deg root).block i = g.merge deg (g.block i) := block_merged deg root i
    obtain ⟨b, hb⟩ := Option.ne_none_iff_exists'.1 ih
    obtain ⟨rfl, hsucc⟩ := h.done hb fun c hc => by rw [hidle] at hc; cases hc
    rw [successors, hblock] at hj
    exact hknown (hsucc j hj)

/-- **In the end exactly the blocks of the compressed graph are rebuilt**, as they are there. -/
theorem Faithful.memo_eq (h : r.Faithful deg root limit) (hs : r.step g deg = none) (i : Fin g.size) :
    r.memo.get i = if i ∈ g.survivors deg root then some (g.merge deg (g.block i)) else none := by
  split
  · next hi =>
    obtain ⟨n, hn⟩ := mem_reachable.1 hi
    obtain ⟨b, hb⟩ := Option.ne_none_iff_exists'.1 (h.memo_ne_none hs hn)
    obtain ⟨rfl, -⟩ := h.done hb fun c hc => by rw [(idle_of_step hs).1] at hc; cases hc
    exact hb
  · next hi =>
    by_contra hne
    exact hi ((mem_survivors hroot hdeg).2 (h.kept (Or.inl hne)))

end

end Rebuild

end Codegen.Flow
