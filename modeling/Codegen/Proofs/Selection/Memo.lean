/-
  What a covering remembers.

  The cheapest tile of a value depends on the value alone (`Catalogue.best`), and a table
  that is filled from subtrees up holds it, in whatever order values were added
  (`TileTable.Right`).  So a covering answers every call as if nothing had been asked
  before (`Cover.mirrors_perform`, `Covering.right_after`).
-/
import Codegen.Covering
import Codegen.Proofs.Selection.Costs

namespace Codegen

/-! ## Subtrees -/

theorem Value.Subtree.eq_or_lt {u v : Value} (h : Subtree u v) : u = v ∨ u.size < v.size := by
  induction h with
  | refl => exact Or.inl rfl
  | load _ ih | left _ ih | right _ ih | unary _ ih =>
    rcases ih with rfl | h <;> exact Or.inr (by simp only [size]; omega)

/-! ## The cheapest tile -/

theorem Option.mapM_congr {α β : Type} {f g : α → Option β} {xs : List α} (h : ∀ x ∈ xs, f x = g x) :
    xs.mapM f = xs.mapM g := by
  induction xs with
  | nil => rfl
  | cons x xs ih =>
    rw [List.mapM_cons, List.mapM_cons, h x List.mem_cons_self, ih fun y hy => h y (List.mem_cons_of_mem _ hy)]

variable {rules : List Rule} {s : Stmt}

/-- The cheapest tile depends on the tiles of open leaves only. -/
theorem cheapest_congr {best best' : Value → Option Tile}
    (h : ∀ r ∈ rules, ∀ m, r.pattern.apply s = some m → ∀ v ∈ m.leaves, best v = best' v) :
    cheapest rules best s = cheapest rules best' s := by
  have hrule : ∀ r ∈ rules, r.tile? best s = r.tile? best' s := by
    intro r hr
    unfold Rule.tile?
    cases hm : r.pattern.apply s with
    | none => rfl
    | some m =>
      have hleaves : m.leaves.mapM best = m.leaves.mapM best' := Option.mapM_congr (h r hr m hm)
      simp only [Option.bind_eq_bind, Option.bind_some, hleaves]
  have key : ∀ (rules : List Rule) (a : Option Tile), (∀ r ∈ rules, r.tile? best s = r.tile? best' s) →
      rules.foldl (fun t r => Tile.cheaper t (r.tile? best s)) a =
        rules.foldl (fun t r => Tile.cheaper t (r.tile? best' s)) a := by
    intro rules
    induction rules with
    | nil => exact fun _ _ => rfl
    | cons r rules ih =>
      intro a hall
      rw [List.foldl_cons, List.foldl_cons, hall r List.mem_cons_self,
        ih _ fun r' hr' => hall r' (List.mem_cons_of_mem _ hr')]
  exact key rules none hrule

namespace Catalogue

/-- The cheapest tile of a value: what a rule leaves open is smaller. -/
def best (c : Catalogue) (v : Value) : Option Tile :=
  cheapest c.trees (fun u => if u.size < v.size then c.best u else none) (.value v)
termination_by v.size

end Catalogue

/-! ## Tables -/

namespace TileTable

variable {c : Catalogue} {T : TileTable} {u v : Value}

theorem tile?_eq_none (h : ¬ T.holds v = true) : T.tile? v = none := by
  have hnone : T.find? (fun entry => decide (entry.1 = v)) = none := by
    rw [List.find?_eq_none]
    intro entry hentry he
    exact h (List.any_eq_true.2 ⟨entry, hentry, he⟩)
  rw [tile?, hnone]
  rfl

/-- The table has the cheapest tiles of what it holds, subtrees included. -/
structure Right (c : Catalogue) (T : TileTable) : Prop where
  tile : ∀ v, T.holds v = true → T.tile? v = c.best v
  parts : ∀ u v, T.holds v = true → Value.Subtree u v → T.holds u = true

theorem right_nil : Right c [] := ⟨fun _ h => (by cases h), fun _ _ h => (by cases h)⟩

/-- A value can be added when its subtrees are there. -/
theorem Right.add (h : T.Right c) (hv : ¬ T.holds v = true)
    (hparts : ∀ u, Value.Subtree u v → u = v ∨ T.holds u = true) : TileTable.Right c (c.addTile v T) := by
  have hbest : cheapest c.trees T.tile? (.value v) = c.best v := by
    rw [Catalogue.best]
    refine cheapest_congr fun r hr m hm u hu => ?_
    obtain ⟨v', hv', hsub⟩ := (Pattern.leaves_subtree hm u hu).resolve_left (by simp)
    rw [List.mem_singleton.1 hv'] at hsub
    rcases hparts u hsub with rfl | hheld
    · rw [tile?_eq_none hv, if_neg (Nat.lt_irrefl _)]
    · have hlt : u.size < v.size := (hsub.eq_or_lt).resolve_left fun e => hv (e ▸ hheld)
      rw [h.tile u hheld, if_pos hlt]
  refine ⟨fun u hu => ?_, fun u w hw hsub => ?_⟩
  · rw [Catalogue.addTile, tile?_cons]
    split
    · next e => rw [hbest, e]
    · next hne => exact h.tile u ((holds_cons.1 hu).resolve_left hne)
  · refine holds_cons.2 ?_
    rcases holds_cons.1 hw with rfl | hw
    · exact (hparts u hsub).imp Eq.symm id
    · exact Or.inr (h.parts u w hw hsub)

end TileTable

namespace Catalogue

variable {c : Catalogue} {T : TileTable} {v : Value}

/-- The table was extended by values and their subtrees. -/
structure Extended (c : Catalogue) (vs : List Value) (T T' : TileTable) : Prop where
  right : TileTable.Right c T'
  rest : ∀ u, T.holds u = true → T'.holds u = true
  held : ∀ v ∈ vs, T'.holds v = true
  only : ∀ u, T'.holds u = true → T.holds u = true ∨ ∃ v ∈ vs, Value.Subtree u v

theorem Extended.tile {vs : List Value} {T' : TileTable} (h : Extended c vs T T') {u : Value} (hv : v ∈ vs)
    (hu : Value.Subtree u v) : T'.tile? u = c.best u :=
  h.right.tile u (h.right.parts u v (h.held v hv) hu)

theorem Extended.nil (h : TileTable.Right c T) : Extended c [] T T :=
  ⟨h, fun _ h => h, nofun, fun _ h => Or.inl h⟩

theorem Extended.append {vs ws : List Value} {T₁ T₂ : TileTable} (h : Extended c vs T T₁)
    (h' : Extended c ws T₁ T₂) : Extended c (vs ++ ws) T T₂ where
  right := h'.right
  rest u hu := h'.rest u (h.rest u hu)
  held v hv := (List.mem_append.1 hv).elim (fun hv => h'.rest v (h.held v hv)) (h'.held v)
  only u hu := by
    rcases h'.only u hu with hu | ⟨w, hw, hsub⟩
    · exact (h.only u hu).imp_right fun ⟨v, hv, hsub⟩ => ⟨v, List.mem_append_left _ hv, hsub⟩
    · exact Or.inr ⟨w, List.mem_append_right _ hw, hsub⟩

/-- After its operands, a value can be added. -/
theorem Extended.add {vs : List Value} {T' : TileTable} (hT : TileTable.Right c T) (h : Extended c vs T T')
    (hparts : ∀ u, Value.Subtree u v ↔ u = v ∨ ∃ w ∈ vs, Value.Subtree u w) (hlt : ∀ w ∈ vs, w.size < v.size) :
    Extended c [v] T (if T.holds v = true then T else c.addTile v T') := by
  split
  · next hheld => exact ⟨hT, fun _ h => h, fun u hu => List.mem_singleton.1 hu ▸ hheld, fun _ h => Or.inl h⟩
  · next hv =>
    have hnew : ¬ T'.holds v = true := fun hheld => by
      obtain ⟨w, hw, hsub⟩ := (h.only v hheld).resolve_left hv
      have hlt := hlt w hw
      rcases hsub.eq_or_lt with rfl | hlt' <;> omega
    refine ⟨h.right.add hnew fun u hu => ?_, fun u hu => TileTable.holds_cons.2 (Or.inr (h.rest u hu)),
      fun u hu => TileTable.holds_cons.2 (Or.inl (List.mem_singleton.1 hu).symm), fun u hu => ?_⟩
    · exact ((hparts u).1 hu).imp_right fun ⟨w, hw, hsub⟩ => h.right.parts u w (h.held w hw) hsub
    · rcases TileTable.holds_cons.1 hu with rfl | hu
      · exact Or.inr ⟨v, List.mem_cons_self, .refl v⟩
      · exact (h.only u hu).imp_right fun hsub => ⟨v, List.mem_cons_self, (hparts u).2 (Or.inr hsub)⟩

theorem extended_tabulate (h : TileTable.Right c T) (v : Value) : Extended c [v] T (c.tabulate v T) := by
  induction v generalizing T with
  | load a ih =>
    refine (ih h).add h (fun u => ⟨fun hu => ?_, ?_⟩) (by simp [Value.size])
    · cases hu with
      | refl => exact Or.inl rfl
      | load hu => exact Or.inr ⟨a, List.mem_cons_self, hu⟩
    · rintro (rfl | ⟨w, hw, hu⟩)
      · exact .refl _
      · exact .load (List.mem_singleton.1 hw ▸ hu)
  | binary op l r ihl ihr =>
    refine ((ihl h).append (ihr (ihl h).right)).add h (fun u => ⟨fun hu => ?_, ?_⟩)
      (by simp [Value.size])
    · cases hu with
      | refl => exact Or.inl rfl
      | left hu => exact Or.inr ⟨l, by simp, hu⟩
      | right hu => exact Or.inr ⟨r, by simp, hu⟩
    · rintro (rfl | ⟨w, hw, hu⟩)
      · exact .refl _
      · rcases List.mem_cons.1 hw with rfl | hw
        · exact .left hu
        · exact .right (List.mem_singleton.1 hw ▸ hu)
  | unary op x ih =>
    refine (ih h).add h (fun u => ⟨fun hu => ?_, ?_⟩) (by simp [Value.size])
    · cases hu with
      | refl => exact Or.inl rfl
      | unary hu => exact Or.inr ⟨x, List.mem_cons_self, hu⟩
    · rintro (rfl | ⟨w, hw, hu⟩)
      · exact .refl _
      · exact .unary (List.mem_singleton.1 hw ▸ hu)
  | const | read | address | call =>
    refine (Extended.nil h).add h (fun u => ⟨fun hu => ?_, ?_⟩) (by simp)
    · cases hu
      exact Or.inl rfl
    · rintro (rfl | ⟨w, hw, -⟩)
      · exact .refl _
      · cases hw

theorem extended_extend (h : TileTable.Right c T) (s : Stmt) : Extended c s.values T (c.extend s T) := by
  cases s with
  | value v | write _ v => exact extended_tabulate h v
  | store a v => exact (extended_tabulate h a).append (extended_tabulate (extended_tabulate h a).right v)
  | ret b => exact .nil h

theorem tableOf_eq (c : Catalogue) (s : Stmt) : c.tableOf s = c.extend s [] := by cases s <;> rfl

/-- The cheapest tile that rules give with a table is the one that they give with the
    cheapest tiles of values. -/
theorem Extended.cheapest {s : Stmt} {T' : TileTable} (h : Extended c s.values T T') (rules : List Rule) :
    cheapest rules T'.tile? s = cheapest rules c.best s := by
  refine cheapest_congr fun r hr m hm u hu => ?_
  obtain ⟨v, hv, hsub⟩ := (Pattern.leaves_subtree hm u hu).resolve_left (by simp)
  exact h.tile hv hsub

theorem tile?_value (c : Catalogue) (v : Value) : c.tile? (.value v) = c.best v :=
  (extended_tabulate TileTable.right_nil v).tile List.mem_cons_self (.refl v)

theorem tile?_of_isValue {s : Stmt} (hs : s.isValue = false) : c.tile? s = Codegen.cheapest c.trees c.best s := by
  have h := (extended_extend (TileTable.right_nil (c := c)) s).cheapest c.trees
  rw [← tableOf_eq] at h
  cases s with
  | value v => cases hs
  | _ => exact h

theorem branchTile?_eq (c : Catalogue) (cond : Value) :
    c.branchTile? cond = Codegen.cheapest c.branches c.best (.value cond) :=
  (extended_tabulate TileTable.right_nil cond).cheapest (s := .value cond) c.branches

end Catalogue

/-! ## Coverings -/

/-- What a covering remembers is right. -/
structure Covering.Right (c : Catalogue) (k : Covering) : Prop where
  values : TileTable.Right c k.values
  operations : ∀ s t, (s, t) ∈ k.operations → t = c.tile? s
  conditions : ∀ v, k.conditions.holds v = true → k.conditions.tile? v = c.branchTile? v

theorem Covering.right_new (c : Catalogue) (u : Supply) : Covering.Right c { supply := u } :=
  ⟨TileTable.right_nil, nofun, nofun⟩

namespace Cover

variable {α β : Type} {c : Catalogue} {k : Covering}

/-- An outcome for a covering. -/
def reply (k : Covering) : EStateM.Result Fault Supply α → EStateM.Result Fault Covering α
  | .ok a supply => .ok a { k with supply }
  | .error f supply => .error f { k with supply }

/-- A call has the outcome of a computation that remembers nothing, and keeps what is
    remembered right. -/
def Mirrors (c : Catalogue) (x : Cover α) (y : Fresh α) : Prop :=
  ∀ k, k.Right c → ∃ k' : Covering, k'.Right c ∧ x k = reply k' (y k.supply)

theorem mirrors_pure (a : α) : Mirrors c (pure a) (pure a) := fun k hk => ⟨k, hk, rfl⟩

theorem mirrors_throw (f : Fault) : Mirrors c (throw f : Cover α) (throw f) := fun k hk => ⟨k, hk, rfl⟩

theorem mirrors_fresh (x : Fresh α) : Mirrors c (fresh x) x := fun k hk =>
  ⟨k, hk, by unfold fresh; cases x k.supply <;> rfl⟩

theorem Mirrors.bind {x : Cover α} {y : Fresh α} {f : α → Cover β} {g : α → Fresh β} (h : Mirrors c x y)
    (hf : ∀ a, Mirrors c (f a) (g a)) : Mirrors c (x >>= f) (y >>= g) := by
  intro k hk
  obtain ⟨k₁, hk₁, hx⟩ := h k hk
  change ∃ k', _ ∧ EStateM.bind x f k = reply k' (EStateM.bind y g k.supply)
  unfold EStateM.bind
  rw [hx]
  cases y k.supply with
  | ok a u => exact hf a { k₁ with supply := u } ⟨hk₁.values, hk₁.operations, hk₁.conditions⟩
  | error e u => exact ⟨k₁, hk₁, rfl⟩

theorem Mirrors.mapM {γ : Type} {f : γ → Cover α} {g : γ → Fresh α} (h : ∀ x, Mirrors c (f x) (g x))
    (xs : List γ) : Mirrors c (xs.mapM f) (xs.mapM g) := by
  induction xs with
  | nil => exact mirrors_pure _
  | cons x xs ih =>
    rw [List.mapM_cons, List.mapM_cons]
    exact (h x).bind fun y => ih.bind fun ys => mirrors_pure _

theorem best_of_isValue {s : Stmt} (hs : s.isValue = false) (k : Covering) :
    best c s k = (k.operations.find? fun entry => decide (entry.1 = s)).elim
      (.ok (cheapest c.trees (c.extend s k.values).tile? s)
        { k with
          values := c.extend s k.values
          operations := (s, cheapest c.trees (c.extend s k.values).tile? s) :: k.operations })
      fun entry => .ok entry.2 k := by
  cases s with
  | value v => cases hs
  | _ =>
    dsimp only [best]
    generalize List.find? _ k.operations = known
    cases known <;> rfl

/-- **The tile that is remembered is the cheapest one.** -/
theorem mirrors_best (s : Stmt) : Mirrors c (best c s) (pure (c.tile? s)) := by
  intro k hk
  have hother : s.isValue = false → ∃ k', k'.Right c ∧ best c s k = reply k' (.ok (c.tile? s) k.supply) := by
    intro hs
    rw [best_of_isValue hs]
    cases hfind : k.operations.find? fun entry => decide (entry.1 = s) with
    | some entry =>
      obtain ⟨s', t⟩ := entry
      obtain rfl : s' = s := by simpa using List.find?_some hfind
      obtain rfl := hk.operations _ _ (List.mem_of_find?_eq_some hfind)
      exact ⟨k, hk, rfl⟩
    | none =>
      have hextended := Catalogue.extended_extend hk.values s
      have htile : cheapest c.trees (c.extend s k.values).tile? s = c.tile? s := by
        rw [hextended.cheapest, Catalogue.tile?_of_isValue hs]
      refine ⟨{ k with values := c.extend s k.values, operations := (s, c.tile? s) :: k.operations },
        ⟨hextended.right, fun s' t h => ?_, hk.conditions⟩, by simp only [htile]; rfl⟩
      rcases List.mem_cons.1 h with h | h
      · cases h; rfl
      · exact hk.operations s' t h
  cases s with
  | value v =>
    have hextended := Catalogue.extended_tabulate hk.values v
    refine ⟨{ k with values := c.tabulate v k.values }, ⟨hextended.right, hk.operations, hk.conditions⟩, ?_⟩
    rw [Catalogue.tile?_value, ← hextended.tile List.mem_cons_self (.refl v)]
    rfl
  | write r v => exact hother rfl
  | store a v => exact hother rfl
  | ret b => exact hother rfl

theorem mirrors_bestBranch (cond : Value) : Mirrors c (bestBranch c cond) (pure (c.branchTile? cond)) := by
  intro k hk
  unfold bestBranch
  split
  · next hheld => exact ⟨k, hk, by rw [hk.conditions cond hheld]; rfl⟩
  · have hextended := Catalogue.extended_tabulate hk.values cond
    have htile : cheapest c.branches (c.tabulate cond k.values).tile? (.value cond) = c.branchTile? cond := by
      rw [hextended.cheapest (s := .value cond), Catalogue.branchTile?_eq]
    refine ⟨{ k with values := c.tabulate cond k.values, conditions := (cond, c.branchTile? cond) :: k.conditions },
      ⟨hextended.right, hk.operations, fun v hv => ?_⟩, by simp only [htile]; rfl⟩
    rw [TileTable.tile?_cons]
    split
    · next e => rw [e]
    · next hne => exact hk.conditions v ((TileTable.holds_cons.1 hv).resolve_left hne)

theorem mirrors_tile (s : Stmt) : Mirrors c (tile c s) (Fresh.ofExcept (c.tile s)) := by
  have hplain : Fresh.ofExcept (c.tile s) =
      (pure (c.tile? s) >>= fun o => o.elim (throw (.uncovered c.name s)) pure) := by
    unfold Catalogue.tile
    cases c.tile? s <;> rfl
  rw [hplain]
  refine (mirrors_best s).bind fun o => ?_
  cases o with
  | none => exact mirrors_throw _
  | some t => exact mirrors_pure t

theorem mirrors_cost? (s : Stmt) : Mirrors c (cost? c s) (pure (c.cost? s)) :=
  (mirrors_best s).bind fun _ => mirrors_pure _

theorem mirrors_ruleFor (s : Stmt) : Mirrors c (ruleFor c s) (Fresh.ofExcept (c.ruleFor s)) := by
  have hplain : Fresh.ofExcept (c.ruleFor s) =
      (Fresh.ofExcept (c.tile s) >>= fun t => pure t.rule.name) := by
    unfold Catalogue.ruleFor
    cases c.tile s <;> rfl
  rw [hplain]
  exact (mirrors_tile s).bind fun _ => mirrors_pure _

theorem mirrors_stmts (ops : List Stmt) : Mirrors c (stmts c ops) (c.coverStmts ops) :=
  (Mirrors.mapM (fun s => (mirrors_tile s).bind fun t => (mirrors_fresh t.emit).bind fun _ => mirrors_pure _)
    ops).bind fun _ => mirrors_pure _

theorem mirrors_value (v : Value) : Mirrors c (value c v) (c.coverValue v) :=
  (mirrors_tile (.value v)).bind fun t => mirrors_fresh t.emit

theorem mirrors_sequence (ops : List Stmt) (next : Label) :
    Mirrors c (sequence c ops next) (c.coverSequence ops next) := by
  refine (mirrors_stmts ops).bind fun code => ?_
  cases c.jumps with
  | nil => exact mirrors_throw _
  | cons rule _ => exact (mirrors_fresh _).bind fun _ => mirrors_pure _

/-- The code of a branch whose condition has a tile. -/
def emitBranch (t : Tile) (onTrue onFalse : Label) : Fresh (List Instr) := do
  let (code, inputs) ← Tile.emitLeaves t.rule.name t.leaves
  let (own, _) ← t.rule.generate { inputs, found := t.found, onTrue, onFalse }
  return code ++ own

theorem coverBranch_eq (c : Catalogue) (cond : Value) (onTrue onFalse : Label) :
    c.coverBranch cond onTrue onFalse = match c.branchTile? cond with
      | none => throw (.noBranchRule c.name cond)
      | some t => emitBranch t onTrue onFalse := by
  unfold Catalogue.coverBranch
  cases c.branchTile? cond <;> rfl

theorem mirrors_branch (cond : Value) (onTrue onFalse : Label) :
    Mirrors c (branch c cond onTrue onFalse) (c.coverBranch cond onTrue onFalse) := by
  have hplain : c.coverBranch cond onTrue onFalse = (pure (c.branchTile? cond) >>= fun o => match o with
      | none => throw (.noBranchRule c.name cond)
      | some t => emitBranch t onTrue onFalse) := by
    rw [coverBranch_eq]
    rfl
  rw [hplain]
  refine (mirrors_bestBranch cond).bind fun o => ?_
  cases o with
  | none => exact mirrors_throw _
  | some t => exact mirrors_fresh _

/-- The answer to a call on a covering that remembers nothing. -/
def Call.plain (c : Catalogue) : Call → Fresh Answer
  | .cost s => pure (.cost (c.cost? s))
  | .rule s => do return .rule (← Fresh.ofExcept (c.ruleFor s))
  | .stmts ops => do return .code (← c.coverStmts ops)
  | .value v => do
    let (code, result) ← c.coverValue v
    return .value code result
  | .sequence ops next => do return .code (← c.coverSequence ops next)
  | .branch cond onTrue onFalse => do return .code (← c.coverBranch cond onTrue onFalse)

/-- **A covering answers as one that remembers nothing.** -/
theorem mirrors_perform (call : Call) : Mirrors c (call.perform c) (call.plain c) := by
  cases call with
  | cost s => exact (mirrors_cost? s).bind fun _ => mirrors_pure _
  | rule s => exact (mirrors_ruleFor s).bind fun _ => mirrors_pure _
  | stmts ops => exact (mirrors_stmts ops).bind fun _ => mirrors_pure _
  | value v => exact (mirrors_value v).bind fun _ => mirrors_pure _
  | sequence ops next => exact (mirrors_sequence ops next).bind fun _ => mirrors_pure _
  | branch cond onTrue onFalse => exact (mirrors_branch cond onTrue onFalse).bind fun _ => mirrors_pure _

end Cover

/-- The answer of a computation, and the names that are left. -/
def Fresh.outcome {α : Type} : EStateM.Result Fault Supply α → Except Fault α × Supply
  | .ok a u => (.ok a, u)
  | .error f u => (.error f, u)

/-- The answer of a call, and the names that are left. -/
def Cover.outcome {α : Type} : EStateM.Result Fault Covering α → Except Fault α × Supply
  | .ok a k => (.ok a, k.supply)
  | .error f k => (.error f, k.supply)

theorem Cover.Mirrors.outcome {α : Type} {c : Catalogue} {k : Covering} {x : Cover α} {y : Fresh α}
    (h : Mirrors c x y) (hk : k.Right c) : Cover.outcome (x k) = Fresh.outcome (y k.supply) := by
  obtain ⟨k', -, e⟩ := h k hk
  refine (congrArg Cover.outcome e).trans ?_
  cases y k.supply <;> rfl

/-- The covering that an outcome leaves behind. -/
def Cover.left {α : Type} : EStateM.Result Fault Covering α → Covering
  | .ok _ k => k
  | .error _ k => k

/-- The covering after a sequence of calls, whatever they answered. -/
def Covering.after (c : Catalogue) (k : Covering) (calls : List Cover.Call) : Covering :=
  calls.foldl (fun k call => Cover.left (call.perform c k)) k

/-- **Calls keep what is remembered right.** -/
theorem Covering.Right.after {c : Catalogue} {k : Covering} (h : k.Right c) (calls : List Cover.Call) :
    (k.after c calls).Right c := by
  induction calls generalizing k with
  | nil => exact h
  | cons call calls ih =>
    obtain ⟨k', hk', e⟩ := Cover.mirrors_perform call k h
    have hleft := congrArg Cover.left e
    refine ih (k := Cover.left (call.perform c k)) ?_
    rw [hleft]
    cases call.plain c k.supply <;> exact ⟨hk'.values, hk'.operations, hk'.conditions⟩

end Codegen
