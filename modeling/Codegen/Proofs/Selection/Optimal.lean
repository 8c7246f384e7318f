/-
  Tilings are optimal.

  Of all tilings of an operation, one with the fewest tiles is found, and among these the
  one whose root rule was declared first (`Tile.Optimal`).  The proof follows the size of
  trees: what a rule leaves open is smaller, and is tiled best.  Costs are words, so this
  is true as long as no tiling has more tiles than a word can count
  (`tilings_optimal`).
-/
import Codegen.Proofs.Selection.Memo

namespace Codegen

variable {rules roots : List Rule} {best : Value → Option Tile} {s : Stmt} {t t' : Tile} {r : Rule}
  {v : Value}

/-! ## The first of the cheapest tiles -/

/-- **The rules declared before the one that is chosen give more expensive tiles.** -/
theorem cheapest_first (h : cheapest rules best s = some t) :
    ∃ pre post, rules = pre ++ t.rule :: post ∧ t.rule.tile? best s = some t ∧
      ∀ r ∈ pre, ∀ t', r.tile? best s = some t' → t.cost < t'.cost := by
  induction rules using List.reverseRecOn generalizing t with
  | nil => cases h
  | append_singleton rules r ih =>
    have hlast : Tile.cheaper (cheapest rules best s) (r.tile? best s) = some t := by
      rw [← h, cheapest, cheapest, List.foldl_append]
      rfl
    have hnew : r.tile? best s = some t → (∀ r' ∈ rules, ∀ t', r'.tile? best s = some t' → t.cost < t'.cost) →
        ∃ pre post, rules ++ [r] = pre ++ t.rule :: post ∧ t.rule.tile? best s = some t ∧
          ∀ r ∈ pre, ∀ t', r.tile? best s = some t' → t.cost < t'.cost := by
      intro ht hall
      obtain ⟨rfl, -⟩ := Rule.tile?_eq_some ht
      exact ⟨rules, [], rfl, ht, hall⟩
    have hold : cheapest rules best s = some t → ∃ pre post, rules ++ [r] = pre ++ t.rule :: post ∧
        t.rule.tile? best s = some t ∧ ∀ r ∈ pre, ∀ t', r.tile? best s = some t' → t.cost < t'.cost := by
      intro ht
      obtain ⟨pre, post, e, htile, hpre⟩ := ih ht
      exact ⟨pre, post ++ [r], by rw [e]; simp, htile, hpre⟩
    cases hrest : cheapest rules best s with
    | none =>
      rw [hrest] at hlast
      refine hnew hlast fun r' hr' t' ht' => ?_
      obtain ⟨t₀, ht₀⟩ := exists_cheapest hr' ⟨t', ht'⟩
      rw [hrest] at ht₀
      cases ht₀
    | some t₀ =>
      cases hr : r.tile? best s with
      | none =>
        rw [hrest, hr] at hlast
        exact hold (hrest.trans hlast)
      | some t₁ =>
        rw [hrest, hr] at hlast
        simp only [Tile.cheaper] at hlast
        split at hlast
        · next hlt =>
          cases hlast
          exact hnew hr fun r' hr' t' ht' => Int64.lt_of_lt_of_le hlt (cheapest_le hrest hr' ht')
        · cases hlast
          exact hold hrest

/-! ## Tilings -/

namespace Tile

/-- The tile covers an operation; its root is of one list of rules, its leaves are of
    another. -/
def CoversFrom (roots rules : List Rule) (t : Tile) (s : Stmt) : Prop :=
  t.rule ∈ roots ∧ t.rule.pattern.apply s = some t.found ∧ CoverAll rules t.leaves t.found.leaves

theorem coverAll_iff {ts : List Tile} {vs : List Value} :
    CoverAll rules ts vs ↔ List.Forall₂ (fun t v => t.Covers rules (.value v)) ts vs := by
  induction ts generalizing vs with
  | nil => cases vs <;> simp [CoverAll]
  | cons t ts ih => cases vs <;> simp [CoverAll, ih]

theorem count_eq (t : Tile) : t.count = countAll t.leaves + 1 := by cases t; rfl

theorem count_le_countAll {ts : List Tile} (h : t ∈ ts) : t.count ≤ countAll ts := by
  induction ts with
  | nil => cases h
  | cons t' ts ih =>
    rw [countAll]
    rcases List.mem_cons.1 h with rfl | h
    · omega
    · have := ih h
      omega

/-- A leaf of a tiling can be tiled another way. -/
theorem exists_replaced {ts : List Tile} {vs : List Value}
    (h : List.Forall₂ (fun t v => t.Covers rules (.value v)) ts vs) (hv : v ∈ vs) (ht : t.Covers rules (.value v)) :
    ∃ ts', List.Forall₂ (fun t v => t.Covers rules (.value v)) ts' vs ∧ t ∈ ts' := by
  induction h with
  | nil => cases hv
  | @cons t₀ v₀ ts vs h₀ hs ih =>
    rcases List.mem_cons.1 hv with rfl | hv
    · exact ⟨t :: ts, .cons ht hs, List.mem_cons_self⟩
    · obtain ⟨ts', hs', hmem⟩ := ih hv
      exact ⟨t₀ :: ts', .cons h₀ hs', List.mem_cons_of_mem _ hmem⟩

/-- One of the smallest tilings, its root rule declared before that of any other. -/
structure Optimal (roots : List Rule) (tilings : Tile → Prop) (t : Tile) : Prop where
  tiling : tilings t
  cost : t.cost.toInt = t.count
  least : ∀ t', tilings t' → t.count ≤ t'.count
  first : ∃ pre post, roots = pre ++ t.rule :: post ∧ ∀ t', tilings t' → t'.rule ∈ pre → t.count < t'.count

end Tile

/-- The tile of a value is right: it is there if there is a tiling, and it is a smallest
    one, if tilings can be counted. -/
structure BestFor (rules : List Rule) (best : Value → Option Tile) (v : Value) : Prop where
  complete : ∀ {t : Tile}, t.Covers rules (.value v) → ∃ t', best v = some t'
  covers : ∀ {t}, best v = some t → t.Covers rules (.value v)
  least : (∀ t : Tile, t.Covers rules (.value v) → t.count < 2 ^ 63) → ∀ {t}, best v = some t →
    t.cost = Int64.ofNat t.count ∧ ∀ t' : Tile, t'.Covers rules (.value v) → t.count ≤ t'.count

/-! ## Leaves -/

section
variable {vs : List Value} {ts : List Tile} (hvs : ∀ v ∈ vs, BestFor rules best v)
  (h : List.Forall₂ (fun v t => best v = some t) vs ts)
include hvs h

theorem leaves_cover : List.Forall₂ (fun t v => t.Covers rules (.value v)) ts vs := by
  induction h with
  | nil => exact .nil
  | cons hv _ ih =>
    exact .cons ((hvs _ List.mem_cons_self).covers hv) (ih fun v hv => hvs v (List.mem_cons_of_mem _ hv))

/-- The tiles of leaves add up to the fewest tiles. -/
theorem leaves_least (hbound : ∀ v ∈ vs, ∀ t : Tile, t.Covers rules (.value v) → t.count < 2 ^ 63) :
    ts.foldr (fun t n => t.cost + n) 1 = Int64.ofNat (Tile.countAll ts + 1) ∧
      ∀ ts', List.Forall₂ (fun t v => t.Covers rules (.value v)) ts' vs → Tile.countAll ts ≤ Tile.countAll ts' := by
  induction h with
  | nil => exact ⟨rfl, fun ts' h => by cases h; exact Nat.le_refl _⟩
  | @cons v t vs ts hv _ ih =>
    obtain ⟨hcosts, hrest⟩ := ih (fun v hv => hvs v (List.mem_cons_of_mem _ hv))
      fun v hv => hbound v (List.mem_cons_of_mem _ hv)
    obtain ⟨hcost, hleast⟩ := (hvs v List.mem_cons_self).least (hbound v List.mem_cons_self) hv
    refine ⟨?_, fun ts' h => ?_⟩
    · rw [List.foldr_cons, hcosts, hcost, ← Int64.ofNat_add, Tile.countAll, Nat.add_assoc]
    · cases h with
      | @cons t' _ ts' _ ht' hts' =>
        have hfirst := hleast t' ht'
        have hrest := hrest ts' hts'
        simp only [Tile.countAll]
        omega

end

/-! ## Roots -/

section
variable (hleaves : ∀ r ∈ roots, ∀ m, r.pattern.apply s = some m → ∀ v ∈ m.leaves, BestFor rules best v)
include hleaves

/-- A rule with a tiling has a tile. -/
theorem Tile.CoversFrom.exists_tile? (h : t.CoversFrom roots rules s) :
    ∃ t', t.rule.tile? best s = some t' := by
  obtain ⟨hr, hfound, hcover⟩ := h
  refine Rule.exists_tile? hfound fun v hv => ?_
  obtain ⟨t', -, ht'⟩ := forall₂_exists_left (Tile.coverAll_iff.1 hcover) hv
  exact (hleaves _ hr _ hfound v hv).complete ht'

/-- The tile of a rule is a tiling. -/
theorem Rule.coversFrom_of_tile? (hr : r ∈ roots) (h : r.tile? best s = some t) :
    t.CoversFrom roots rules s := by
  obtain ⟨rfl, hfound, hmap⟩ := Rule.tile?_eq_some h
  exact ⟨hr, hfound, Tile.coverAll_iff.2 (leaves_cover (hleaves _ hr _ hfound) (Option.mapM_eq_some hmap))⟩

/-- The tile of a rule is the smallest tiling with that root. -/
theorem Rule.least_of_tile? (hr : r ∈ roots) (hbound : ∀ t : Tile, t.CoversFrom roots rules s → t.count < 2 ^ 63)
    (h : r.tile? best s = some t) :
    t.cost = Int64.ofNat t.count ∧
      ∀ t' : Tile, t'.CoversFrom roots rules s → t'.rule = r → t.count ≤ t'.count := by
  have hcovers := Rule.coversFrom_of_tile? hleaves hr h
  obtain ⟨found, hfound, h⟩ := Option.bind_eq_some_iff.1 h
  obtain ⟨ts, hmap, h⟩ := Option.bind_eq_some_iff.1 h
  cases h
  have hall := Tile.coverAll_iff.1 hcovers.2.2
  -- a tiling of a leaf is part of a tiling of the whole
  have hleaf : ∀ v ∈ found.leaves, ∀ t : Tile, t.Covers rules (.value v) → t.count < 2 ^ 63 := by
    intro v hv t ht
    obtain ⟨ts', hts', hmem⟩ := Tile.exists_replaced hall hv ht
    have hwhole := hbound ⟨r, found, ts', 0⟩ ⟨hr, hfound, Tile.coverAll_iff.2 hts'⟩
    have hle := Tile.count_le_countAll hmem
    simp only [Tile.count] at hwhole
    omega
  obtain ⟨hcost, hleast⟩ := leaves_least (hleaves r hr found hfound) (Option.mapM_eq_some hmap) hleaf
  refine ⟨hcost, fun t' ht' e => ?_⟩
  obtain ⟨-, hfound', hcover'⟩ := ht'
  rw [e, hfound] at hfound'
  rw [← Option.some.inj hfound'] at hcover'
  have hle := hleast t'.leaves (Tile.coverAll_iff.1 hcover')
  rw [Tile.count_eq, Tile.count_eq]
  exact Nat.add_le_add_right hle 1

/-- Where there is a tiling, a tile is found. -/
theorem exists_cheapest_of_covers (h : t.CoversFrom roots rules s) : ∃ t', cheapest roots best s = some t' :=
  exists_cheapest h.1 (h.exists_tile? hleaves)

/-- The tile that is found is a tiling. -/
theorem coversFrom_of_cheapest (h : cheapest roots best s = some t) : t.CoversFrom roots rules s := by
  obtain ⟨r, hr, ht⟩ := cheapest_eq_some h
  exact Rule.coversFrom_of_tile? hleaves hr ht

/-- **The tile that is found is optimal**, if the tiles of leaves are. -/
theorem optimal_of_cheapest (hbound : ∀ t : Tile, t.CoversFrom roots rules s → t.count < 2 ^ 63)
    (h : cheapest roots best s = some t) : t.Optimal roots (·.CoversFrom roots rules s) := by
  have hcovers := coversFrom_of_cheapest hleaves h
  obtain ⟨pre, post, hroots, htile, hpre⟩ := cheapest_first h
  obtain ⟨hcost, -⟩ := Rule.least_of_tile? hleaves hcovers.1 hbound htile
  have hcount := hbound t hcovers
  -- the tile of another root, which costs what it counts
  have hother : ∀ {t' : Tile}, t'.CoversFrom roots rules s → ∃ t'', t'.rule.tile? best s = some t'' ∧
      t''.cost = Int64.ofNat t''.count ∧ t''.count ≤ t'.count ∧ t''.count < 2 ^ 63 := by
    intro t' ht'
    obtain ⟨t'', ht''⟩ := ht'.exists_tile? hleaves
    obtain ⟨hcost'', hleast⟩ := Rule.least_of_tile? hleaves ht'.1 hbound ht''
    exact ⟨t'', ht'', hcost'', hleast t' ht' rfl, hbound t'' (Rule.coversFrom_of_tile? hleaves ht'.1 ht'')⟩
  refine ⟨hcovers, ?_, fun t' ht' => ?_, pre, post, hroots, fun t' ht' hmem => ?_⟩
  · rw [hcost]
    exact Int64.toInt_ofNat_of_lt hcount
  · obtain ⟨t'', ht'', hcost'', hle, hlt⟩ := hother ht'
    have hcheap := cheapest_le h ht'.1 ht''
    rw [hcost, hcost'', Int64.ofNat_le_iff_le hcount hlt] at hcheap
    exact Nat.le_trans hcheap hle
  · obtain ⟨t'', ht'', hcost'', hle, hlt⟩ := hother ht'
    have hcheap := hpre _ hmem t'' ht''
    rw [hcost, hcost'', Int64.ofNat_lt_iff_lt hcount hlt] at hcheap
    exact Nat.lt_of_lt_of_le hcheap hle

end

/-! ## Catalogues without bare wildcards -/

namespace Catalogue

variable {c : Catalogue} (hc : ∀ r ∈ c.trees, r.pattern ≠ .wild)
include hc

/-- What a rule leaves open is smaller than what it matches. -/
theorem size_lt_of_leaf (hr : r ∈ c.trees) {m : Match} (hm : r.pattern.apply s = some m) (hv : v ∈ m.leaves) :
    v.size < s.size := by
  have hopen := (Pattern.openSize_le hm).2 (hc r hr)
  have hle : v.size ≤ m.openSize := List.single_le_sum (fun _ _ => Nat.zero_le _) _ (List.mem_map_of_mem hv)
  simp only [Match.openSize, List.map_nil, List.sum_nil, Nat.zero_add] at hopen hle
  omega

theorem best_eq (v : Value) : c.best v = cheapest c.trees c.best (.value v) := by
  rw [best]
  exact cheapest_congr fun r hr m hm u hu => if_pos (size_lt_of_leaf hc hr hm hu)

/-- **The tiles of values are right**, by induction on their size. -/
theorem bestFor (v : Value) : BestFor c.trees c.best v := by
  induction hn : v.size using Nat.strongRecOn generalizing v with
  | ind n ih =>
    subst hn
    have hleaves : ∀ r ∈ c.trees, ∀ m, r.pattern.apply (.value v) = some m → ∀ u ∈ m.leaves,
        BestFor c.trees c.best u := fun r hr m hm u hu => ih u.size (size_lt_of_leaf hc hr hm hu) u rfl
    refine ⟨fun ht => ?_, fun ht => ?_, fun hbound t ht => ?_⟩
    · rw [best_eq hc]
      exact exists_cheapest_of_covers hleaves (Tile.covers_iff.1 ht)
    · rw [best_eq hc] at ht
      exact Tile.covers_iff.2 (coversFrom_of_cheapest hleaves ht)
    · rw [best_eq hc] at ht
      have hbound : ∀ t : Tile, t.CoversFrom c.trees c.trees (.value v) → t.count < 2 ^ 63 := fun t ht =>
        hbound t (Tile.covers_iff.2 ht)
      have hoptimal := optimal_of_cheapest hleaves hbound ht
      refine ⟨?_, fun t' ht' => hoptimal.least t' (Tile.covers_iff.1 ht')⟩
      obtain ⟨r, hr, htile⟩ := cheapest_eq_some ht
      exact (Rule.least_of_tile? hleaves hr hbound htile).1

theorem tile?_eq (s : Stmt) : c.tile? s = cheapest c.trees c.best s := by
  cases s with
  | value v => rw [tile?_value, best_eq hc]
  | _ => exact tile?_of_isValue rfl

/-- A tiling is found if there is one. -/
theorem exists_tile?_iff : (∃ t, c.tile? s = some t) ↔ ∃ t : Tile, t.Covers c.trees s := by
  rw [tile?_eq hc]
  refine ⟨fun ⟨t, ht⟩ => ⟨t, Tile.covers_iff.2 ?_⟩, fun ⟨t, ht⟩ => ?_⟩
  · exact coversFrom_of_cheapest (fun _ _ _ _ v _ => bestFor hc v) ht
  · exact exists_cheapest_of_covers (fun _ _ _ _ v _ => bestFor hc v) (Tile.covers_iff.1 ht)

/-- The tiling that is found is optimal. -/
theorem optimal_of_tile? (hbound : ∀ t : Tile, t.Covers c.trees s → t.count < 2 ^ 63) (h : c.tile? s = some t) :
    t.Optimal c.trees (·.Covers c.trees s) := by
  rw [tile?_eq hc] at h
  have hoptimal := optimal_of_cheapest (fun _ _ _ _ v _ => bestFor hc v)
    (fun t ht => hbound t (Tile.covers_iff.2 ht)) h
  obtain ⟨pre, post, e, hfirst⟩ := hoptimal.first
  exact ⟨Tile.covers_iff.2 hoptimal.tiling, hoptimal.cost, fun t' ht' => hoptimal.least t' (Tile.covers_iff.1 ht'),
    pre, post, e, fun t' ht' => hfirst t' (Tile.covers_iff.1 ht')⟩

theorem exists_branchTile?_iff : (∃ t, c.branchTile? v = some t) ↔ ∃ t : Tile, t.CoversBranch c.branches c.trees v := by
  rw [branchTile?_eq]
  refine ⟨fun ⟨t, ht⟩ => ⟨t, ?_⟩, fun ⟨t, ht⟩ => ?_⟩
  · exact coversFrom_of_cheapest (fun _ _ _ _ v _ => bestFor hc v) ht
  · exact exists_cheapest_of_covers (s := .value v) (fun _ _ _ _ v _ => bestFor hc v) ht

theorem optimal_of_branchTile? (hbound : ∀ t : Tile, t.CoversBranch c.branches c.trees v → t.count < 2 ^ 63)
    (h : c.branchTile? v = some t) : t.Optimal c.branches (·.CoversBranch c.branches c.trees v) := by
  rw [branchTile?_eq] at h
  exact optimal_of_cheapest (s := .value v) (fun _ _ _ _ v _ => bestFor hc v) hbound h

omit hc in
theorem countAll_le {ts : List Tile} {vs : List Value}
    (hvs : ∀ v ∈ vs, ∀ t : Tile, t.Covers c.trees (.value v) → t.count ≤ v.size)
    (h : List.Forall₂ (fun t v => t.Covers c.trees (.value v)) ts vs) :
    Tile.countAll ts ≤ (vs.map Value.size).sum := by
  induction h with
  | nil => exact Nat.le_refl _
  | @cons t v ts vs ht _ ih =>
    have hfirst := hvs v List.mem_cons_self t ht
    have hrest := ih fun v hv => hvs v (List.mem_cons_of_mem _ hv)
    simp only [Tile.countAll, List.map_cons, List.sum_cons]
    exact Nat.add_le_add hfirst hrest

/-- A tiling has no more tiles than there are nodes. -/
theorem count_le_size (h : t.Covers c.trees s) : t.count ≤ s.size := by
  induction hn : s.size using Nat.strongRecOn generalizing s t with
  | ind n ih =>
    subst hn
    obtain ⟨hr, hfound, hcover⟩ := Tile.covers_iff.1 h
    have hopen := (Pattern.openSize_le hfound).2 (hc _ hr)
    have hleaves := countAll_le (fun v hv t ht => ih v.size (size_lt_of_leaf hc hr hfound hv) ht rfl)
      (Tile.coverAll_iff.1 hcover)
    simp only [Match.openSize, List.map_nil, List.sum_nil, Nat.zero_add] at hopen
    rw [Tile.count_eq]
    omega

/-- A branch rule may be a wildcard, and take one tile more. -/
theorem count_le_size_branch (h : t.CoversBranch c.branches c.trees v) : t.count ≤ v.size + 1 := by
  obtain ⟨-, hfound, hcover⟩ := h
  have hopen := (Pattern.openSize_le hfound).1
  have hleaves := countAll_le (fun v _ t ht => count_le_size hc (s := .value v) ht) (Tile.coverAll_iff.1 hcover)
  simp only [Match.openSize, List.map_nil, List.sum_nil, Nat.zero_add, Stmt.size] at hopen
  rw [Tile.count_eq]
  omega

/-- **Tilings are optimal, and it does not show what a covering remembers.**  After any
    calls, a covering answers as a new one would.  It finds a tiling of an operation if
    there is one, and then one of least size whose root rule was declared first, provided
    that the tiles of tilings can be counted with words; and likewise for the condition of
    a branch. -/
theorem tilings_optimal (u : Supply) (calls : List Cover.Call) :
    let k := Covering.after c { supply := u } calls
    (∀ call : Cover.Call, Cover.outcome (call.perform c k) = Cover.outcome (call.perform c { supply := k.supply })) ∧
    (∀ s, (¬ ∃ t : Tile, t.Covers c.trees s) →
      Cover.outcome (Cover.cost? c s k) = (.ok none, k.supply) ∧
      Cover.outcome (Cover.ruleFor c s k) = (.error (.uncovered c.name s), k.supply)) ∧
    (∀ s, (∃ t : Tile, t.Covers c.trees s) → ∃ t : Tile, t.Covers c.trees s ∧
      Cover.outcome (Cover.cost? c s k) = (.ok (some t.cost), k.supply) ∧
      Cover.outcome (Cover.ruleFor c s k) = (.ok t.rule.name, k.supply) ∧
      ((∀ t' : Tile, t'.Covers c.trees s → t'.count < 2 ^ 63) → t.Optimal c.trees (·.Covers c.trees s))) ∧
    (∀ cond, (¬ ∃ t : Tile, t.CoversBranch c.branches c.trees cond) → ∀ onTrue onFalse,
      Cover.outcome (Cover.branch c cond onTrue onFalse k) = (.error (.noBranchRule c.name cond), k.supply)) ∧
    ∀ cond, (∃ t : Tile, t.CoversBranch c.branches c.trees cond) →
      ∃ t : Tile, t.CoversBranch c.branches c.trees cond ∧
        (∀ onTrue onFalse, Cover.outcome (Cover.branch c cond onTrue onFalse k) =
          Fresh.outcome (Cover.emitBranch t onTrue onFalse k.supply)) ∧
        ((∀ t' : Tile, t'.CoversBranch c.branches c.trees cond → t'.count < 2 ^ 63) →
          t.Optimal c.branches (·.CoversBranch c.branches c.trees cond)) := by
  intro k
  have hk : k.Right c := (Covering.right_new c u).after calls
  have hcost : ∀ s, Cover.outcome (Cover.cost? c s k) = (.ok (c.cost? s), k.supply) := fun s =>
    (Cover.mirrors_cost? s).outcome hk
  have hrule : ∀ s, Cover.outcome (Cover.ruleFor c s k) = (c.ruleFor s, k.supply) := fun s => by
    rw [(Cover.mirrors_ruleFor s).outcome hk]
    cases c.ruleFor s <;> rfl
  have hbranch : ∀ cond onTrue onFalse, Cover.outcome (Cover.branch c cond onTrue onFalse k) =
      Fresh.outcome (c.coverBranch cond onTrue onFalse k.supply) := fun cond onTrue onFalse =>
    (Cover.mirrors_branch cond onTrue onFalse).outcome hk
  refine ⟨fun call => ?_, fun s hs => ?_, fun s hs => ?_, fun cond hcond onTrue onFalse => ?_, fun cond hcond => ?_⟩
  · rw [(Cover.mirrors_perform call).outcome hk, (Cover.mirrors_perform call).outcome (Covering.right_new c _)]
  · have hnone : c.tile? s = none := Option.eq_none_iff_forall_ne_some.2 fun t ht =>
      hs ((exists_tile?_iff hc).1 ⟨t, ht⟩)
    rw [hcost, hrule, cost?, ruleFor, tile, hnone]
    exact ⟨rfl, rfl⟩
  · obtain ⟨t, ht⟩ := (exists_tile?_iff hc).2 hs
    refine ⟨t, covers_of_tile? ht, ?_, ?_, fun hbound => optimal_of_tile? hc hbound ht⟩
    · rw [hcost, cost?, ht]
      rfl
    · rw [hrule, ruleFor, tile, ht]
      rfl
  · have hnone : c.branchTile? cond = none := Option.eq_none_iff_forall_ne_some.2 fun t ht =>
      hcond ((exists_branchTile?_iff hc).1 ⟨t, ht⟩)
    rw [hbranch, Cover.coverBranch_eq, hnone]
    rfl
  · obtain ⟨t, ht⟩ := (exists_branchTile?_iff hc).2 hcond
    refine ⟨t, covers_of_branchTile? ht, fun onTrue onFalse => ?_, fun hbound => optimal_of_branchTile? hc hbound ht⟩
    rw [hbranch, Cover.coverBranch_eq, ht]

omit hc in
/-- On the machine, a sum of constants takes two tiles, also when it was covered before,
    and there is a best branch rule for it. -/
theorem tilings_optimal_sum :
    let v : Value := .binary .add (.const 1) (.const 2)
    let k := Covering.after Amd64.catalogue { supply := ⟨0, 0⟩ } [.value v, .branch v ".L1" ".L2"]
    Cover.outcome (Cover.cost? Amd64.catalogue (.value v) k) = (.ok (some 2), k.supply) ∧
      Cover.outcome (Cover.ruleFor Amd64.catalogue (.value v) k) = (.ok "<op> *, $const", k.supply) ∧
      (∀ t : Tile, t.Covers Amd64.catalogue.trees (.value v) → 2 ≤ t.count) ∧
      ∃ t : Tile, t.Optimal Amd64.catalogue.branches
        (·.CoversBranch Amd64.catalogue.branches Amd64.catalogue.trees v) := by
  intro v k
  obtain ⟨-, -, hvalue, -, hbranch⟩ :=
    tilings_optimal Amd64.patterns_ne_wild ⟨0, 0⟩ [.value v, .branch v ".L1" ".L2"]
  have hk : k.Right Amd64.catalogue := (Covering.right_new _ _).after _
  have hdeclared : v.Declared := by simp [v, Value.Declared, BinaryOp.declared]
  have hsize : ∀ {t : Tile}, t.Covers Amd64.catalogue.trees (.value v) → t.count < 2 ^ 63 := fun ht =>
    Nat.lt_of_le_of_lt (count_le_size Amd64.patterns_ne_wild ht) (by decide)
  -- the tile of the sum
  obtain ⟨t, ht⟩ := Amd64.exists_tile (.value v) (by simpa [Stmt.values] using hdeclared)
  obtain ⟨t, -, hcost, hrule, hoptimal⟩ := hvalue (.value v) ⟨t, covers_of_tile? ht⟩
  have htwo : Amd64.catalogue.cost? (.value v) = some 2 := by cbv
  have hname : Amd64.catalogue.ruleFor (.value v) = .ok "<op> *, $const" := by cbv
  have hcost' := (Cover.mirrors_cost? (.value v)).outcome hk
  have hrule' := (Cover.mirrors_ruleFor (.value v)).outcome hk
  rw [htwo] at hcost'
  rw [hname] at hrule'
  refine ⟨hcost', hrule', fun t' ht' => ?_, ?_⟩
  · have hoptimal := hoptimal fun t ht => hsize ht
    have hsame : t.cost = 2 :=
      Option.some.inj (Except.ok.inj (Prod.mk.inj (hcost.symm.trans hcost')).1)
    have hcount := hoptimal.cost
    rw [hsame, show (2 : Int64).toInt = 2 from rfl] at hcount
    have := hoptimal.least t' ht'
    omega
  · obtain ⟨t, ht⟩ := Amd64.exists_branchTile hdeclared
    obtain ⟨t, -, -, hoptimal⟩ := hbranch v ⟨t, covers_of_branchTile? ht⟩
    exact ⟨t, hoptimal fun t' ht' =>
      Nat.lt_of_le_of_lt (count_le_size_branch Amd64.patterns_ne_wild ht') (by decide)⟩

end Catalogue

end Codegen
