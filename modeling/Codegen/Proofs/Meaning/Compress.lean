/-
  Compression preserves the meaning of bodies.

  A chain that is absorbed runs as it did before: its operations follow those of
  the block in front of it.  How many edges enter the absorbed blocks does not
  matter here.  A body that a backend is made for can be compressed, and is still
  one afterwards.
-/
import Codegen.Flow.Compress
import Codegen.Proofs.Flow.Edges
import Codegen.Proofs.Meaning.Body
import Codegen.Proofs.Meaning.Interpreter
import Codegen.Proofs.Outcomes

namespace Codegen

namespace World

variable {w : World} {g : Flow} {s : State} {fuel fuel' : Nat}
  {i : Option (Fin g.size)} {result : Bool × State}

theorem execAll_append (ops ops' : List Stmt) (s : State) :
    w.execAll (ops ++ ops') s = (w.execAll ops s).bind (·.andThen (w.execAll ops')) := by
  induction ops generalizing s with
  | nil => rfl
  | cons op ops ih =>
    rw [List.cons_append, execAll, execAll]
    cases w.exec op s with
    | none => rfl
    | some o =>
      cases o with
      | goes s' => exact ih s'
      | returns v s' => rfl

/-- What a sequential block leads to. -/
theorem run_straight {k : Fin g.size} {body : List Stmt} {next : Option (Fin g.size)}
    (hk : g.block k = .straight body next) :
    w.run g (fuel + 1) (some k) s = some result ↔
      w.execAll body s = some (.returns result.1 result.2) ∨
        ∃ s', w.execAll body s = some (.goes s') ∧ w.run g fuel next s' = some result := by
  simp only [run, hk]
  cases w.execAll body s with
  | none => simp
  | some o =>
    cases o with
    | goes s' => simp
    | returns v s' => simp [Prod.ext_iff, eq_comm]

theorem run_branch {k : Fin g.size} {cond : Value} {t f : Option (Fin g.size)}
    (hk : g.block k = .branch cond t f) :
    w.run g (fuel + 1) (some k) s = some result ↔
      ∃ x s', w.eval cond s = some (x, s') ∧
        w.run g fuel (if x ≠ 0 then t else f) s' = some result := by
  simp only [run, hk]
  refine Option.bind_eq_some_iff.trans ?_
  exact ⟨fun ⟨⟨x, s'⟩, hs', h⟩ => ⟨x, s', hs', h⟩, fun ⟨x, s', hs', h⟩ => ⟨(x, s'), hs', h⟩⟩

/-- More fuel does no harm. -/
theorem run_mono (h : w.run g fuel i s = some result) (hle : fuel ≤ fuel') :
    w.run g fuel' i s = some result := by
  induction fuel generalizing fuel' i s with
  | zero => cases h
  | succ fuel ih =>
    obtain ⟨fuel', rfl⟩ : ∃ n, fuel' = n + 1 := ⟨fuel' - 1, by omega⟩
    cases i with
    | none => cases h
    | some k =>
      cases hk : g.block k with
      | straight body next =>
        rw [run_straight hk] at h ⊢
        exact h.imp_right fun ⟨s', hs', h⟩ => ⟨s', hs', ih h (by omega)⟩
      | branch cond t f =>
        rw [run_branch hk] at h ⊢
        obtain ⟨x, s', hs', h⟩ := h
        exact ⟨x, s', hs', ih h (by omega)⟩

/-- The operations of a chain run as its blocks do. -/
theorem run_absorb (deg : Vector Nat g.size) (limit : Nat) (h : w.run g fuel i s = some result) :
    w.execAll (g.absorb deg limit i).1 s = some (.returns result.1 result.2) ∨
      ∃ s', w.execAll (g.absorb deg limit i).1 s = some (.goes s') ∧
        w.run g fuel (g.absorb deg limit i).2 s' = some result := by
  induction limit generalizing fuel i s with
  | zero => exact Or.inr ⟨s, rfl, h⟩
  | succ limit ih =>
    cases i with
    | none => exact Or.inr ⟨s, rfl, h⟩
    | some k =>
      cases hk : g.block k with
      | branch cond t f => simp only [Flow.absorb, hk]; exact Or.inr ⟨s, rfl, h⟩
      | straight body next =>
        by_cases hdeg : deg.get k = 1
        · simp only [Flow.absorb, hk, hdeg, if_true, execAll_append]
          cases fuel with
          | zero => cases h
          | succ fuel =>
            rcases (run_straight hk).1 h with hs' | ⟨s', hs', h⟩
            · rw [hs']; exact Or.inl rfl
            · rw [hs']
              exact (ih h).imp_right fun ⟨s'', hs'', h⟩ => ⟨s'', hs'', run_mono h (by omega)⟩
        · simp only [Flow.absorb, hk, hdeg, if_false]
          exact Or.inr ⟨s, rfl, h⟩

end World

namespace Flow

variable {w : World} {g g' : Flow} {s : State} {fuel : Nat} {result : Bool × State}

/-- The graph with chains merged after the listed numbers of entering edges. -/
def merged (g : Flow) (deg : Vector Nat g.size) (root : Fin g.size) : Flow :=
  ⟨g.size, g.blocks.map (g.merge deg), some root⟩

theorem block_merged (deg : Vector Nat g.size) (root k : Fin g.size) :
    (g.merged deg root).block k = g.merge deg (g.block k) := Vector.getElem_map _ k.isLt

theorem compress_eq_ok (h : g.compress = .ok g') :
    g' = g ∨ ∃ deg root, g.root = some root ∧ g' = g.merged deg root := by
  unfold compress at h
  split at h
  · cases h; exact Or.inl rfl
  · next root hroot =>
    cases hdeg : g.inDegrees root with
    | error e => rw [hdeg] at h; cases h
    | ok deg => rw [hdeg] at h; cases h; exact Or.inr ⟨deg, root, hroot, rfl⟩

theorem run_merged (deg : Vector Nat g.size) (root : Fin g.size) {i : Option (Fin g.size)}
    (h : w.run g fuel i s = some result) : w.run (g.merged deg root) fuel i s = some result := by
  induction fuel using Nat.strongRecOn generalizing i s with
  | ind fuel ih =>
    cases fuel with
    | zero => cases h
    | succ fuel =>
      cases i with
      | none => cases h
      | some k =>
        have hblock := block_merged deg root k
        cases hk : g.block k with
        | branch cond t f =>
          rw [hk] at hblock
          obtain ⟨x, s', hs', h⟩ := (World.run_branch hk).1 h
          exact (World.run_branch hblock).2 ⟨x, s', hs', ih fuel (by omega) h⟩
        | straight body next =>
          rw [hk] at hblock
          refine (World.run_straight hblock).2 ?_
          rw [World.execAll_append]
          rcases (World.run_straight hk).1 h with hs' | ⟨s', hs', h⟩
          · rw [hs']; exact Or.inl rfl
          · rw [hs']
            exact (World.run_absorb deg g.size h).imp_right fun ⟨s'', hs'', h⟩ =>
              ⟨s'', hs'', ih fuel (by omega) h⟩

/-- **Compression preserves the meaning of a body.** -/
theorem run_compress (hg : g.compress = .ok g') (h : w.run g fuel g.root s = some result) :
    w.run g' fuel g'.root s = some result := by
  rcases compress_eq_ok hg with rfl | ⟨deg, root, hroot, rfl⟩
  · exact h
  · rw [hroot] at h
    exact run_merged deg root h

/-! ## Bodies that a backend is made for -/

section
variable {known : Nat} {reserved : List Physical} {P : Stmt → Prop}

theorem Sound.exists_compress (hg : g.Sound known reserved) : ∃ g', g.compress = .ok g' := by
  unfold compress
  split
  · exact ⟨g, rfl⟩
  · next root hroot =>
    obtain ⟨deg, hdeg, -⟩ := exists_inDegrees (fun i _ => hg.arms i) hroot
    exact ⟨_, Except.bind_eq_ok.2 ⟨deg, hdeg, rfl⟩⟩

/-- What is absorbed are operations of the graph. -/
theorem absorb_forall (h : ∀ i body next, g.block i = .straight body next → ∀ op ∈ body, P op)
    (deg : Vector Nat g.size) (limit : Nat) (next : Option (Fin g.size)) :
    ∀ op ∈ (g.absorb deg limit next).1, P op := by
  induction limit generalizing next with
  | zero => exact fun op hop => by cases hop
  | succ limit ih =>
    cases next with
    | none => exact fun op hop => by cases hop
    | some i =>
      intro op hop
      cases hi : g.block i with
      | branch cond t f => simp only [absorb, hi] at hop; cases hop
      | straight body next =>
        simp only [absorb, hi] at hop
        split at hop
        · exact (List.mem_append.1 hop).elim (h i body next hi op) (ih next op)
        · cases hop

/-- The operations of a compressed graph are operations of the graph. -/
theorem operations_compress (hg : g.compress = .ok g')
    (h : ∀ i body next, g.block i = .straight body next → ∀ op ∈ body, P op) :
    ∀ i body next, g'.block i = .straight body next → ∀ op ∈ body, P op := by
  rcases compress_eq_ok hg with rfl | ⟨deg, root, -, rfl⟩
  · exact h
  · intro (i : Fin g.size) body next hi op hop
    have hi : g.merge deg (g.block i) = .straight body next := (block_merged deg root i).symm.trans hi
    cases hk : g.block i with
    | straight body' next' =>
      rw [hk] at hi
      cases hi
      exact (List.mem_append.1 hop).elim (h i _ _ hk op) (absorb_forall h deg g.size next' op)
    | branch cond' t' f' => rw [hk] at hi; cases hi

/-- The branches of a compressed graph are branches of the graph. -/
theorem branches_compress {Q : Value → Bool → Bool → Prop} (hg : g.compress = .ok g')
    (h : ∀ i cond t f, g.block i = .branch cond t f → Q cond t.isSome f.isSome) :
    ∀ i cond t f, g'.block i = .branch cond t f → Q cond t.isSome f.isSome := by
  rcases compress_eq_ok hg with rfl | ⟨deg, root, -, rfl⟩
  · exact h
  · intro (i : Fin g.size) cond t f hi
    have hi : g.merge deg (g.block i) = .branch cond t f := (block_merged deg root i).symm.trans hi
    cases hk : g.block i with
    | straight body next => rw [hk] at hi; cases hi
    | branch cond' t' f' => rw [hk] at hi; cases hi; exact h i _ _ _ hk

/-- **Compression keeps what a backend asks of a body.** -/
theorem Sound.compress (hg : g.Sound known reserved) (h : g.compress = .ok g') :
    g'.Sound known reserved where
  arms := branches_compress (Q := fun _ t f => t = true ∧ f = true) h hg.arms
  operations := operations_compress h hg.operations
  conditions := branches_compress (Q := fun cond _ _ => Evaluable known reserved [cond]) h hg.conditions

theorem absorb_target (g : Flow) (deg : Vector Nat g.size) (limit : Nat) {next : Option (Fin g.size)}
    {j : Fin g.size} (h : (g.absorb deg limit next).2 = some j) :
    next = some j ∨ ∃ k, some j ∈ g.successors k := by
  induction limit generalizing next with
  | zero => exact Or.inl h
  | succ limit ih =>
    cases next with
    | none => cases h
    | some i =>
      cases hi : g.block i with
      | branch cond t f => simp only [absorb, hi] at h; exact Or.inl h
      | straight body next =>
        simp only [absorb, hi] at h
        split at h
        · refine (ih h).elim (fun e => Or.inr ⟨i, ?_⟩) Or.inr
          exact (mem_successors_straight hi).2 e
        · exact Or.inl h

/-- Compression makes no new way into the root. -/
theorem successors_compress (h : g.compress = .ok g') (hroot : ∀ k, g.root ∉ g.successors k) :
    ∀ k, g'.root ∉ g'.successors k := by
  rcases compress_eq_ok h with rfl | ⟨deg, root, e, rfl⟩
  · exact hroot
  · rw [e] at hroot
    intro (k : Fin g.size) hmem
    have hmem : some root ∈ (g.merge deg (g.block k)).successors :=
      congrArg Block.successors (block_merged deg root k) ▸ hmem
    cases hk : g.block k with
    | branch cond t f =>
      rw [hk] at hmem
      exact hroot k (by rw [Flow.successors, hk]; exact hmem)
    | straight body next =>
      rw [hk] at hmem
      have hlast : (g.absorb deg g.size next).2 = some root := by
        simp only [merge] at hmem
        cases hl : (g.absorb deg g.size next).2 with
        | none => rw [hl] at hmem; cases hmem
        | some j => rw [hl] at hmem; exact (List.mem_singleton.1 hmem).symm
      rcases absorb_target g deg g.size hlast with e | ⟨k', hk'⟩
      · exact hroot k ((mem_successors_straight hk).2 e)
      · exact hroot k' hk'

theorem root_compress (h : g.compress = .ok g') (hroot : g.root.isSome = true) :
    g'.root.isSome = true := by
  rcases compress_eq_ok h with rfl | ⟨deg, root, -, rfl⟩
  · exact hroot
  · rfl

end

end Flow

end Codegen
