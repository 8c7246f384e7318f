/-
  What tiles cost.

  * No rule gives a cheaper tile than the one that is found (`cheapest_le`).
  * A tile costs at least one and at most as much as its tree has nodes, if no
    rule is a bare wildcard (`Rule.cost_of_tile?`).
  * So an operation that a rule covers alone is covered by one tile
    (`leaves_eq_nil`), unless it is so large that costs wrap.
-/
import Codegen.Proofs.Selection.Tiling

namespace Codegen

/-! ## The cheapest tile -/

variable {rules : List Rule} {best : Value → Option Tile} {s : Stmt} {t t' : Tile} {r : Rule}

theorem cheaper_le_left {a b : Option Tile} (h : Tile.cheaper a b = some t) (ha : a = some t') :
    t.cost ≤ t'.cost := by
  subst ha
  unfold Tile.cheaper at h
  split at h
  · next e => cases e
  · next e => cases e; cases h; exact Int64.le_refl _
  · next e =>
    cases e
    split at h
    · next hlt => cases h; exact Int64.le_of_lt hlt
    · cases h; exact Int64.le_refl _

theorem cheaper_le_right {a b : Option Tile} (h : Tile.cheaper a b = some t) (hb : b = some t') :
    t.cost ≤ t'.cost := by
  subst hb
  unfold Tile.cheaper at h
  split at h
  · cases h; exact Int64.le_refl _
  · next e => cases e
  · next e =>
    cases e
    split at h
    · cases h; exact Int64.le_refl _
    · next hlt => cases h; exact Int64.not_lt.1 hlt

/-- **No rule gives a cheaper tile.** -/
theorem cheapest_le (h : cheapest rules best s = some t) (hr : r ∈ rules)
    (ht' : r.tile? best s = some t') : t.cost ≤ t'.cost := by
  have key : ∀ (rules : List Rule) (a : Option Tile),
      rules.foldl (fun t r => Tile.cheaper t (r.tile? best s)) a = some t →
        (∀ u, a = some u → t.cost ≤ u.cost) ∧
          ∀ r ∈ rules, ∀ u, r.tile? best s = some u → t.cost ≤ u.cost := by
    intro rules
    induction rules with
    | nil => exact fun a h => ⟨fun u hu => by rw [← Option.some.inj (h.symm.trans hu)]; exact Int64.le_refl _, nofun⟩
    | cons r rules ih =>
      intro a h
      obtain ⟨hfirst, hrest⟩ := ih _ h
      -- the first rule and what was there before are no cheaper than the cheaper of both
      have hsome : ∀ u, a = some u ∨ r.tile? best s = some u →
          ∃ v, Tile.cheaper a (r.tile? best s) = some v := fun u hu =>
        Option.isSome_iff_exists.1 (cheaper_isSome (hu.imp (by simp +contextual) (by simp +contextual)))
      refine ⟨fun u hu => ?_, fun r' hr' u hu => ?_⟩
      · obtain ⟨v, hv⟩ := hsome u (Or.inl hu)
        exact Int64.le_trans (hfirst v hv) (cheaper_le_left hv hu)
      · rcases List.mem_cons.1 hr' with rfl | hr'
        · obtain ⟨v, hv⟩ := hsome u (Or.inr hu)
          exact Int64.le_trans (hfirst v hv) (cheaper_le_right hv hu)
        · exact hrest r' hr' u hu
  exact (key rules none h).2 r hr t' ht'

/-! ## Sizes -/

/-- The number of nodes of a tree. -/
def Value.size : Value → Nat
  | .load a => a.size + 1
  | .binary _ l r => l.size + r.size + 1
  | .unary _ x => x.size + 1
  | .const _ | .read _ | .address _ | .call .. => 1

/-- The number of nodes of an operation. -/
def Stmt.size : Stmt → Nat
  | .value v => v.size
  | .write _ v => v.size + 1
  | .store a v => a.size + v.size + 1
  | .ret _ => 1

/-- The number of nodes that a match leaves open. -/
def Match.openSize (m : Match) : Nat := (m.leaves.map Value.size).sum

/-- A pattern takes away at least one node, unless it is a wildcard. -/
theorem Pattern.openSize_le {p : Pattern} {m m' : Match} (h : p.matchFrom s m = some m') :
    m'.openSize ≤ m.openSize + s.size ∧ (p ≠ .wild → m'.openSize < m.openSize + s.size) := by
  have hstrict : ∀ {a b : Nat} {q : Prop}, a < b → a ≤ b ∧ (q → a < b) := fun h =>
    ⟨Nat.le_of_lt h, fun _ => h⟩
  induction p generalizing s m m' with
  | wild =>
    obtain ⟨v, rfl, rfl⟩ := matchFrom_wild.1 h
    exact ⟨by simp [Match.openSize, Stmt.size], fun hne => absurd rfl hne⟩
  | const k test =>
    obtain ⟨w, rfl, -, rfl⟩ := matchFrom_const.1 h
    exact hstrict (Nat.lt_succ_self _)
  | read k test =>
    obtain ⟨r, rfl, -, rfl⟩ := matchFrom_read.1 h
    exact hstrict (Nat.lt_succ_self _)
  | write k test p ih =>
    obtain ⟨r, v, rfl, -, h⟩ := matchFrom_write.1 h
    have := (ih h).1
    exact hstrict (by simp only [Match.openSize, Match.leaves_capture, Stmt.size] at this ⊢; omega)
  | load p ih =>
    obtain ⟨a, rfl, h⟩ := matchFrom_load.1 h
    have := (ih h).1
    exact hstrict (by simp only [Stmt.size, Value.size] at this ⊢; omega)
  | store p q ihp ihq =>
    obtain ⟨a, v, rfl, m₁, h₁, h⟩ := matchFrom_store.1 h
    have h₁ := (ihp h₁).1
    have h₂ := (ihq h).1
    exact hstrict (by simp only [Stmt.size] at h₁ h₂ ⊢; omega)
  | binary k test p q ihp ihq =>
    obtain ⟨op, l, r, rfl, -, m₁, h₁, h⟩ := matchFrom_binary.1 h
    have h₁ := (ihp h₁).1
    have h₂ := (ihq h).1
    exact hstrict (by
      simp only [Match.openSize, Match.leaves_capture, Stmt.size, Value.size] at h₁ h₂ ⊢; omega)
  | unary k test p ih =>
    obtain ⟨op, v, rfl, -, h⟩ := matchFrom_unary.1 h
    have := (ih h).1
    exact hstrict (by
      simp only [Match.openSize, Match.leaves_capture, Stmt.size, Value.size] at this ⊢; omega)
  | address =>
    obtain ⟨l, rfl, rfl⟩ := matchFrom_address.1 h
    exact hstrict (Nat.lt_succ_self _)
  | call =>
    obtain ⟨f, n, rfl, rfl⟩ := matchFrom_call.1 h
    exact hstrict (Nat.lt_succ_self _)
  | ret =>
    obtain ⟨b, rfl, rfl⟩ := matchFrom_ret.1 h
    exact hstrict (Nat.lt_succ_self _)

/-! ## Costs -/

mutual

/-- The number of tiles in a tile, this one included. -/
def Tile.count : Tile → Nat
  | ⟨_, _, leaves, _⟩ => Tile.countAll leaves + 1

/-- The number of tiles in tiles. -/
def Tile.countAll : List Tile → Nat
  | [] => 0
  | t :: ts => t.count + Tile.countAll ts

end

/-- The tile costs the number of its tiles, which is between two numbers. -/
structure Tile.CostsIn (lo hi : Nat) (t : Tile) : Prop where
  cost : t.cost = Int64.ofNat t.count
  lo : lo ≤ t.count
  hi : t.count ≤ hi

theorem foldr_cost {vs : List Value} {ts : List Tile}
    (h : List.Forall₂ (fun v t => Tile.CostsIn 1 v.size t) vs ts) :
    ts.foldr (fun t n => t.cost + n) 1 = Int64.ofNat (Tile.countAll ts + 1) ∧
      ts.length ≤ Tile.countAll ts ∧ Tile.countAll ts ≤ (vs.map Value.size).sum := by
  induction h with
  | nil => exact ⟨rfl, Nat.le_refl _, Nat.le_refl _⟩
  | @cons v t vs ts ht _ ih =>
    obtain ⟨hcost, hlo, hhi⟩ := ih
    have hone := ht.lo
    have hsize := ht.hi
    refine ⟨?_, ?_, ?_⟩
    · rw [List.foldr_cons, hcost, ht.cost, ← Int64.ofNat_add, Tile.countAll, Nat.add_assoc]
    · simp only [List.length_cons, Tile.countAll]; omega
    · simp only [List.map_cons, List.sum_cons, Tile.countAll]; omega

/-- A tile costs more than it has leaves and at most as much as its tree has nodes. -/
theorem Rule.cost_of_tile? (hr : r.pattern ≠ .wild)
    (hbest : ∀ v t, best v = some t → t.CostsIn 1 v.size) (h : r.tile? best s = some t) :
    t.CostsIn (t.leaves.length + 1) s.size := by
  obtain ⟨found, hfound, h⟩ := Option.bind_eq_some_iff.1 h
  obtain ⟨leaves, hleaves, h⟩ := Option.bind_eq_some_iff.1 h
  cases h
  obtain ⟨hcost, hlo, hhi⟩ := foldr_cost ((Option.mapM_eq_some hleaves).imp fun v t => hbest v t)
  have hsize := (Pattern.openSize_le hfound).2 hr
  simp only [Match.openSize, List.map_nil, List.sum_nil, Nat.zero_add] at hsize
  refine ⟨hcost, ?_, ?_⟩ <;> simp only [Tile.count] <;> omega

namespace Catalogue

variable {c : Catalogue} (hc : ∀ r ∈ c.trees, r.pattern ≠ .wild)
include hc

theorem cost_of_cheapest (hbest : ∀ v t, best v = some t → t.CostsIn 1 v.size)
    (h : cheapest c.trees best s = some t) : t.CostsIn 1 s.size := by
  obtain ⟨r, hr, ht⟩ := cheapest_eq_some h
  have hcosts := Rule.cost_of_tile? (hc r hr) hbest ht
  exact ⟨hcosts.cost, Nat.le_trans (Nat.le_add_left 1 _) hcosts.lo, hcosts.hi⟩

theorem costs_tableOf (s : Stmt) : (c.tableOf s).All fun v t => t.CostsIn 1 v.size :=
  all_tableOf (fun {_ v _} h ht => cost_of_cheapest hc (s := .value v) h ht) s

/-- **The tile found for an operation costs the number of its tiles**, of which there
    are no more than nodes. -/
theorem costs_of_tile? (h : c.tile? s = some t) : t.CostsIn 1 s.size := by
  cases s with
  | value v => exact costs_tableOf hc (.value v) v t h
  | _ => exact cost_of_cheapest hc (costs_tableOf hc _) h

/-- **An operation that a rule covers alone is covered by one tile.** -/
theorem leaves_eq_nil {found : Match} (hsize : s.size < 2 ^ 63) (hvalue : s.isValue = false)
    (hr : r ∈ c.trees) (hfound : r.pattern.apply s = some found) (hnil : found.leaves = [])
    (h : c.tile? s = some t) : t.leaves = [] := by
  have h : cheapest c.trees (c.tableOf s).tile? s = some t := by
    cases s with
    | value v => cases hvalue
    | _ => exact h
  -- the tile of the rule costs one, and the one found not more
  have hone : r.tile? (c.tableOf s).tile? s = some ⟨r, found, [], 1⟩ :=
    Option.bind_eq_some_iff.2 ⟨found, hfound, Option.bind_eq_some_iff.2 ⟨[], by rw [hnil]; rfl, rfl⟩⟩
  have hle := cheapest_le h hr hone
  change t.cost ≤ Int64.ofNat 1 at hle
  obtain ⟨r', hr', ht⟩ := cheapest_eq_some h
  have hcosts := Rule.cost_of_tile? (hc r' hr') (costs_tableOf hc s) ht
  have hhi := hcosts.hi
  have hlo := hcosts.lo
  rw [hcosts.cost, Int64.ofNat_le_iff_le (by omega) (by omega)] at hle
  exact List.length_eq_zero_iff.1 (by omega)

end Catalogue

namespace Amd64

theorem patterns_ne_wild : ∀ r ∈ catalogue.trees, r.pattern ≠ .wild := by
  intro r hr
  simp only [catalogue, List.mem_cons, List.not_mem_nil, or_false] at hr
  rcases hr with rfl | rfl | rfl | rfl | rfl | rfl | rfl | rfl | rfl | rfl | rfl | rfl | rfl | rfl |
    rfl | rfl | rfl | rfl | rfl | rfl | rfl | rfl | rfl
  all_goals
    intro h
    cases h

end Amd64

end Codegen
