/-
  Trees that have a value.

  A tree is evaluated from left to right, and a call leaves the caller-saved registers
  undefined.  So a tree whose calls pass arguments has a single call, and a tree with a
  call reads no physical register (`Selectable`).  Such a tree has a value in every
  state that defines what the tree reads and what its calls pass (`exists_eval`), and
  evaluating it leaves memory and virtual registers alone (`eval_frame`).
-/
import Codegen.Proofs.Selection.Reflects

namespace Codegen

namespace Value

/-- The calls of the tree in order of evaluation, with the numbers of their arguments. -/
def calls : Value → List (Label × Int)
  | .const _ | .address _ | .read _ => []
  | .load a => a.calls
  | .binary _ l r => l.calls ++ r.calls
  | .unary _ v => v.calls
  | .call f n => [(f, n)]

/-- The labels whose addresses the tree takes. -/
def addresses : Value → List Label
  | .const _ | .call .. | .read _ => []
  | .address l => [l]
  | .load a => a.addresses
  | .binary _ l r => l.addresses ++ r.addresses
  | .unary _ v => v.addresses

theorem hasCall_iff (v : Value) : v.hasCall = true ↔ v.calls ≠ [] := by
  induction v with
  | binary op l r ihl ihr =>
    simp only [hasCall, calls, Bool.or_eq_true, ihl, ihr, ne_eq, List.append_eq_nil_iff, not_and_or]
  | load a ih => exact ih
  | unary op x ih => exact ih
  | _ => simp [hasCall, calls]

end Value

/-- Trees that are evaluated one after the other: there is at most one call, or no call
    has arguments. -/
structure Selectable (known : Nat) (vs : List Value) : Prop extends Evaluable known [] vs where
  tidy : (vs.flatMap Value.calls).length ≤ 1 ∨ ∀ c ∈ vs.flatMap Value.calls, c.2 = 0

/-- The state defines what the trees read and what their calls pass, the callees return,
    and the labels have addresses. -/
structure World.Supports (w : World) (s : State) (vs : List Value) : Prop where
  reads : ∀ v ∈ vs, ∀ r ∈ v.reads, ∃ x, s.registers r = some x
  passes : ∀ v ∈ vs, ∀ c ∈ v.calls, ∀ p ∈ Amd64.convention.arguments.take c.2.toNat,
    ∃ x, s.registers (.physical p) = some x
  callees : ∀ v ∈ vs, ∀ c ∈ v.calls, ∃ hook, w.hooks.get? c.1 = some hook ∧
    ∀ xs, xs.length = c.2.toNat → ∃ x, hook xs = .ok x
  addresses : ∀ v ∈ vs, ∀ l ∈ v.addresses, ∃ x, w.address? l = some x

variable {known : Nat} {vs us : List Value} {v l r : Value} {w : World} {s s₁ : State} {x : Word}

/-- Parts of trees, some of the calls being left out. -/
theorem Selectable.parts (h : Selectable known us) (hsub : ∀ v ∈ vs, ∃ u ∈ us, v.Subtree u)
    (hcalls : (vs.flatMap Value.calls).Sublist (us.flatMap Value.calls)) : Selectable known vs :=
  ⟨h.toEvaluable.subtrees hsub, h.tidy.imp (Nat.le_trans hcalls.length_le)
    fun hnone c hc => hnone c (hcalls.subset hc)⟩

theorem Selectable.tail (h : Selectable known (v :: vs)) : Selectable known vs :=
  h.parts (fun u hu => ⟨u, List.mem_cons_of_mem _ hu, .refl u⟩) (by simp)

theorem Selectable.head (h : Selectable known (v :: vs)) : Selectable known [v] :=
  h.parts (fun u hu => ⟨u, by simp_all, .refl u⟩) (by simp)

namespace World

/-- What holds of the trees of a list holds of other trees that read, pass and call no
    more. -/
theorem Supports.parts (h : w.Supports s us)
    (hsub : ∀ v ∈ vs, ∃ u ∈ us, v.reads ⊆ u.reads ∧ v.calls ⊆ u.calls ∧ v.addresses ⊆ u.addresses) :
    w.Supports s vs where
  reads v hv r hr := by
    obtain ⟨u, hu, hreads, -, -⟩ := hsub v hv
    exact h.reads u hu r (hreads hr)
  passes v hv c hc := by
    obtain ⟨u, hu, -, hcalls, -⟩ := hsub v hv
    exact h.passes u hu c (hcalls hc)
  callees v hv c hc := by
    obtain ⟨u, hu, -, hcalls, -⟩ := hsub v hv
    exact h.callees u hu c (hcalls hc)
  addresses v hv l hl := by
    obtain ⟨u, hu, -, -, haddr⟩ := hsub v hv
    exact h.addresses u hu l (haddr hl)

theorem Supports.head (h : w.Supports s (v :: vs)) : w.Supports s [v] :=
  h.parts fun u hu => ⟨u, by simp_all, List.Subset.refl _, List.Subset.refl _, List.Subset.refl _⟩

/-- Evaluating a tree leaves memory and virtual registers alone, and everything if the
    tree has no call. -/
theorem eval_frame (h : w.eval v s = some (x, s₁)) :
    s₁.memory = s.memory ∧ (v.calls = [] → s₁ = s) ∧
      ∀ r : Register, r.isPhysical = false → s₁.registers r = s.registers r := by
  induction v generalizing s s₁ x with
  | const c =>
    obtain ⟨-, rfl⟩ := eval_const.1 h
    exact ⟨rfl, fun _ => rfl, fun _ _ => rfl⟩
  | read r =>
    obtain ⟨-, rfl⟩ := eval_read.1 h
    exact ⟨rfl, fun _ => rfl, fun _ _ => rfl⟩
  | address l =>
    obtain ⟨-, rfl⟩ := eval_address.1 h
    exact ⟨rfl, fun _ => rfl, fun _ _ => rfl⟩
  | load a ih =>
    obtain ⟨y, hy, -, -⟩ := eval_load.1 h
    exact ih hy
  | unary op a ih =>
    obtain ⟨y, hy, -⟩ := eval_unary.1 h
    exact ih hy
  | binary op l r ihl ihr =>
    obtain ⟨y, s₂, z, hy, hz, -⟩ := eval_binary.1 h
    obtain ⟨hmem, hsame, hregs⟩ := ihl hy
    obtain ⟨hmem', hsame', hregs'⟩ := ihr hz
    refine ⟨hmem'.trans hmem, fun hnil => ?_, fun q hq => (hregs' q hq).trans (hregs q hq)⟩
    obtain ⟨hl, hr⟩ := List.append_eq_nil_iff.1 hnil
    exact (hsame' hr).trans (hsame hl)
  | call f n =>
    obtain ⟨hook, xs, -, -, -, rfl⟩ := eval_call.1 h
    refine ⟨rfl, fun hnil => (by cases hnil), fun q hq => ?_⟩
    cases q with
    | physical p => cases hq
    | virtual id => simp [State.afterCall]

/-- What follows a tree is still supported once the tree was evaluated. -/
theorem Supports.after (hs : w.Supports s (v :: vs)) (h : Selectable known (v :: vs))
    (he : w.eval v s = some (x, s₁)) : w.Supports s₁ vs := by
  obtain ⟨-, hsame, hregs⟩ := eval_frame he
  have hrest : w.Supports s vs := hs.parts fun u hu =>
    ⟨u, List.mem_cons_of_mem _ hu, List.Subset.refl _, List.Subset.refl _, List.Subset.refl _⟩
  by_cases hnil : v.calls = []
  · rw [hsame hnil]
    exact hrest
  -- the trees that follow a call read virtual registers only, and pass nothing
  refine ⟨fun u hu q hq => ?_, fun u hu c hc p hp => ?_, hrest.callees, hrest.addresses⟩
  · rw [hregs q (h.separate v List.mem_cons_self ((Value.hasCall_iff v).2 hnil) u
      (List.mem_cons_of_mem _ hu) q hq)]
    exact hrest.reads u hu q hq
  · have hmem : c ∈ vs.flatMap Value.calls := List.mem_flatMap.2 ⟨u, hu, hc⟩
    rcases h.tidy with hone | hnone
    · have := List.length_pos_iff.2 hnil
      have := List.length_pos_of_mem hmem
      simp only [List.flatMap_cons, List.length_append] at hone
      omega
    · rw [hnone c (by rw [List.flatMap_cons]; exact List.mem_append_right _ hmem)] at hp
      cases hp

theorem exists_apply_binary {op : BinaryOp} (hop : op ∈ BinaryOp.declared) (x y : Word) :
    ∃ z, op.apply? x y = some z := by
  simp only [BinaryOp.declared, List.mem_cons, List.not_mem_nil, or_false] at hop
  rcases hop with rfl | rfl | rfl | rfl | rfl | rfl | rfl | rfl | rfl | rfl | rfl | rfl
  all_goals exact ⟨_, rfl⟩

/-- **A tree has a value in every state that supports it.** -/
theorem exists_eval (h : Selectable known [v]) (hs : w.Supports s [v]) (hw : w.hidden = []) :
    ∃ x s', w.eval v s = some (x, s') := by
  induction v generalizing s with
  | const c => exact ⟨c, s, rfl⟩
  | read r =>
    obtain ⟨x, hx⟩ := hs.reads _ List.mem_cons_self r (List.mem_singleton_self r)
    exact ⟨x, s, eval_read.2 ⟨hx, rfl⟩⟩
  | address l =>
    obtain ⟨x, hx⟩ := hs.addresses _ List.mem_cons_self l (List.mem_singleton_self l)
    exact ⟨x, s, eval_address.2 ⟨hx, rfl⟩⟩
  | load a ih =>
    have ha : Selectable known [a] := h.parts (by simpa using .load (.refl a)) (by simp [Value.calls])
    obtain ⟨y, s', hy⟩ := ih ha (hs.parts fun u hu => ⟨_, List.mem_cons_self, by
      rw [List.mem_singleton.1 hu]; simp [Value.reads, Value.calls, Value.addresses]⟩)
    exact ⟨_, s', eval_load.2 ⟨y, hy, by simp [near, hw], rfl⟩⟩
  | unary op a ih =>
    have ha : Selectable known [a] := h.parts (by simpa using .unary (.refl a)) (by simp [Value.calls])
    obtain ⟨y, s', hy⟩ := ih ha (hs.parts fun u hu => ⟨_, List.mem_cons_self, by
      rw [List.mem_singleton.1 hu]; simp [Value.reads, Value.calls, Value.addresses]⟩)
    rcases (h.declared _ List.mem_cons_self).1 with rfl | rfl
    · exact ⟨_, s', eval_unary.2 ⟨y, hy, rfl⟩⟩
    · exact ⟨_, s', eval_unary.2 ⟨y, hy, rfl⟩⟩
  | binary op l r ihl ihr =>
    have hlr : Selectable known [l, r] :=
      h.parts (by simp [Value.Subtree.left, Value.Subtree.right, Value.Subtree.refl]) (by simp [Value.calls])
    have hboth : w.Supports s [l, r] := hs.parts fun u hu => ⟨_, List.mem_cons_self, by
      rcases List.mem_cons.1 hu with rfl | hu
      · simp [Value.reads, Value.calls, Value.addresses]
      · rw [List.mem_singleton.1 hu]; simp [Value.reads, Value.calls, Value.addresses]⟩
    obtain ⟨y, s₁, hy⟩ := ihl hlr.head hboth.head
    obtain ⟨z, s₂, hz⟩ := ihr hlr.tail (hboth.after hlr hy)
    obtain ⟨x, hx⟩ := exists_apply_binary (h.declared _ List.mem_cons_self).1 y z
    exact ⟨x, s₂, eval_binary.2 ⟨y, s₁, z, hy, hz, hx⟩⟩
  | call f n =>
    obtain ⟨hook, hhook, hreturns⟩ := hs.callees _ List.mem_cons_self (f, n) List.mem_cons_self
    have hpasses : ∀ q ∈ (Amd64.convention.arguments.take n.toNat).map Register.physical,
        ∃ y, s.registers q = some y := by
      intro q hq
      obtain ⟨p, hp, rfl⟩ := List.mem_map.1 hq
      exact hs.passes _ List.mem_cons_self (f, n) List.mem_cons_self p hp
    obtain ⟨xs, hxs⟩ := Option.exists_mapM hpasses
    have hlen : xs.length = n.toNat := by
      have hle := (h.declared _ List.mem_cons_self).2
      rw [← (Option.mapM_eq_some hxs).length_eq, List.length_map, List.length_take]
      omega
    obtain ⟨x, hx⟩ := hreturns xs hlen
    exact ⟨x, _, eval_call.2 ⟨hook, xs, hhook, hxs, hx, rfl⟩⟩

end World

end Codegen
