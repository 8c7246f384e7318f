/-
  Tiles cover trees.

  * A tile covers an operation if its rule matches the operation and its leaves
    cover what the match leaves open (`Tile.Covers`).
  * Whatever tile is found covers (`covers_of_tile?`), and over the catalogue of
    the machine every tree that uses declared operators has one
    (`exists_tile_value`, `exists_tile`, `exists_branchTile`).
-/
import Codegen.Proofs.Outcomes
import Codegen.Proofs.Selection.Matching
import Codegen.Tiling

namespace Codegen

mutual

/-- The tile covers an operation with rules of a list. -/
def Tile.Covers (rules : List Rule) : Tile → Stmt → Prop
  | ⟨rule, found, leaves, _⟩, s =>
    rule ∈ rules ∧ rule.pattern.apply s = some found ∧ Tile.CoverAll rules leaves found.leaves

/-- The tiles cover the values one by one. -/
def Tile.CoverAll (rules : List Rule) : List Tile → List Value → Prop
  | [], [] => True
  | t :: ts, v :: vs => Tile.Covers rules t (.value v) ∧ Tile.CoverAll rules ts vs
  | _, _ => False

end

/-- The root of the tile is of one list of rules, its leaves are of another. -/
def Tile.CoversBranch (roots rules : List Rule) (t : Tile) (v : Value) : Prop :=
  t.rule ∈ roots ∧ t.rule.pattern.apply (.value v) = some t.found ∧
    Tile.CoverAll rules t.leaves t.found.leaves

variable {rules roots : List Rule} {best : Value → Option Tile} {s : Stmt} {t : Tile} {r : Rule}
  {v : Value}

theorem Tile.coverAll_of_mapM {vs : List Value} {ts : List Tile} (h : vs.mapM best = some ts)
    (hbest : ∀ v t, best v = some t → t.Covers rules (.value v)) : Tile.CoverAll rules ts vs := by
  have hall := Option.mapM_eq_some h
  clear h
  induction hall with
  | nil => trivial
  | cons hv _ ih => exact ⟨hbest _ _ hv, ih⟩

theorem Tile.covers_iff : t.Covers rules s ↔
    t.rule ∈ rules ∧ t.rule.pattern.apply s = some t.found ∧
      Tile.CoverAll rules t.leaves t.found.leaves := by
  cases t; exact Iff.rfl

/-! ## The cheapest tile -/

theorem Rule.tile?_eq_some (h : r.tile? best s = some t) :
    t.rule = r ∧ r.pattern.apply s = some t.found ∧ t.found.leaves.mapM best = some t.leaves := by
  obtain ⟨found, hfound, h⟩ := Option.bind_eq_some_iff.1 h
  obtain ⟨leaves, hleaves, h⟩ := Option.bind_eq_some_iff.1 h
  cases h
  exact ⟨rfl, hfound, hleaves⟩

theorem cheaper_eq_some {a b : Option Tile} (h : Tile.cheaper a b = some t) : a = some t ∨ b = some t := by
  unfold Tile.cheaper at h
  split at h
  · exact Or.inr h
  · exact Or.inl h
  · split at h
    · exact Or.inr h
    · exact Or.inl h

theorem cheaper_isSome {a b : Option Tile} (h : a.isSome = true ∨ b.isSome = true) :
    (Tile.cheaper a b).isSome = true := by
  unfold Tile.cheaper
  split
  · simpa using h
  · rfl
  · split <;> rfl

theorem cheapest_eq_some (h : cheapest rules best s = some t) :
    ∃ r ∈ rules, r.tile? best s = some t := by
  have key : ∀ (rules : List Rule) (a : Option Tile),
      rules.foldl (fun t r => Tile.cheaper t (r.tile? best s)) a = some t →
        a = some t ∨ ∃ r ∈ rules, r.tile? best s = some t := by
    intro rules
    induction rules with
    | nil => exact fun a h => Or.inl h
    | cons r rules ih =>
      intro a h
      rcases ih _ h with h | ⟨r', hr', h⟩
      · rcases cheaper_eq_some h with h | h
        · exact Or.inl h
        · exact Or.inr ⟨r, List.mem_cons_self, h⟩
      · exact Or.inr ⟨r', List.mem_cons_of_mem _ hr', h⟩
  rcases key rules none h with h | h
  · cases h
  · exact h

theorem exists_cheapest (hr : r ∈ rules) (h : ∃ t, r.tile? best s = some t) :
    ∃ t, cheapest rules best s = some t := by
  have key : ∀ (rules : List Rule) (a : Option Tile),
      a.isSome = true ∨ r ∈ rules →
        (rules.foldl (fun t r => Tile.cheaper t (r.tile? best s)) a).isSome = true := by
    intro rules
    induction rules with
    | nil =>
      rintro a (h | h)
      · exact h
      · cases h
    | cons r' rules ih =>
      intro a h
      refine ih _ ?_
      rcases h with h | h
      · exact Or.inl (cheaper_isSome (Or.inl h))
      · rcases List.mem_cons.1 h with rfl | h
        · obtain ⟨t, ht⟩ := ‹∃ t, r.tile? best s = some t›
          exact Or.inl (cheaper_isSome (Or.inr (by rw [ht]; rfl)))
        · exact Or.inr h
  exact Option.isSome_iff_exists.1 (key rules none (Or.inr hr))

/-- A rule has a tile where it matches and what it leaves open has tiles. -/
theorem Rule.exists_tile? {found : Match} (hfound : r.pattern.apply s = some found)
    (hleaves : ∀ v ∈ found.leaves, ∃ t, best v = some t) : ∃ t, r.tile? best s = some t := by
  obtain ⟨leaves, h⟩ := Option.exists_mapM hleaves
  refine ⟨_, Option.bind_eq_some_iff.2 ⟨found, hfound, Option.bind_eq_some_iff.2 ⟨leaves, h, rfl⟩⟩⟩

theorem covers_of_cheapest (hbest : ∀ v t, best v = some t → t.Covers rules (.value v))
    (h : cheapest rules best s = some t) : t.Covers rules s := by
  obtain ⟨r, hr, ht⟩ := cheapest_eq_some h
  obtain ⟨rfl, hfound, hleaves⟩ := Rule.tile?_eq_some ht
  exact Tile.covers_iff.2 ⟨hr, hfound, Tile.coverAll_of_mapM hleaves hbest⟩

/-! ## Tables -/

namespace TileTable

variable {T : TileTable} {o : Option Tile} {u : Value}

theorem tile?_cons : tile? ((v, o) :: T) u = if v = u then o else T.tile? u := by
  unfold tile?
  rw [List.find?_cons]
  by_cases h : v = u <;> simp [h]

theorem holds_cons : holds ((v, o) :: T) u = true ↔ v = u ∨ T.holds u = true := by
  simp [holds]

/-- Something holds of every tile of a table, with its value. -/
def All (P : Value → Tile → Prop) (T : TileTable) : Prop := ∀ v t, T.tile? v = some t → P v t

theorem all_nil {P : Value → Tile → Prop} : All P [] := fun _ _ h => by cases h

/-- The values of a table that use declared operators have tiles. -/
def Total (T : TileTable) : Prop := ∀ v, T.holds v = true → v.Declared → ∃ t, T.tile? v = some t

end TileTable

namespace Catalogue

variable {c : Catalogue} {T : TileTable}

/-- What holds of the cheapest tile if it holds of the tiles for the leaves, holds
    of all tiles of a table. -/
theorem all_tabulate {P : Value → Tile → Prop}
    (hstep : ∀ {T : TileTable} {v : Value} {t : Tile}, T.All P →
      cheapest c.trees T.tile? (.value v) = some t → P v t)
    (h : T.All P) (v : Value) : (c.tabulate v T).All P := by
  have hadd : ∀ {T : TileTable} (v : Value), T.All P → (c.addTile v T).All P := by
    intro T v h u t ht
    rw [addTile, TileTable.tile?_cons] at ht
    split at ht
    · next e => exact e ▸ hstep h ht
    · exact h u t ht
  have hcase : ∀ (v : Value) (T T' : TileTable), T.All P → T'.All P →
      (if T.holds v = true then T else c.addTile v T').All P := by
    intro v T T' h h'
    split
    · exact h
    · exact hadd v h'
  induction v generalizing T with
  | load a ih => exact hcase _ _ _ h (ih h)
  | binary op l r ihl ihr => exact hcase _ _ _ h (ihr (ihl h))
  | unary op x ih => exact hcase _ _ _ h (ih h)
  | const w => exact hcase _ _ _ h h
  | read r => exact hcase _ _ _ h h
  | address l => exact hcase _ _ _ h h
  | call f n => exact hcase _ _ _ h h

theorem all_tableOf {P : Value → Tile → Prop}
    (hstep : ∀ {T : TileTable} {v : Value} {t : Tile}, T.All P →
      cheapest c.trees T.tile? (.value v) = some t → P v t) (s : Stmt) : (c.tableOf s).All P := by
  cases s with
  | value v => exact all_tabulate hstep TileTable.all_nil v
  | write r v => exact all_tabulate hstep TileTable.all_nil v
  | store a v => exact all_tabulate hstep (all_tabulate hstep TileTable.all_nil a) v
  | ret b => exact TileTable.all_nil

theorem covers_tableOf (s : Stmt) :
    (c.tableOf s).All fun v t => t.Covers c.trees (.value v) :=
  all_tableOf (fun h ht => covers_of_cheapest h ht) s

/-- **The tile found for an operation covers it.** -/
theorem covers_of_tile? (h : c.tile? s = some t) : t.Covers c.trees s := by
  cases s with
  | value v => exact covers_tableOf (.value v) v t h
  | write r v => exact covers_of_cheapest (covers_tableOf _) h
  | store a v => exact covers_of_cheapest (covers_tableOf _) h
  | ret b => exact covers_of_cheapest (covers_tableOf _) h

theorem covers_of_branchTile? (h : c.branchTile? v = some t) : t.CoversBranch c.branches c.trees v := by
  obtain ⟨r, hr, ht⟩ := cheapest_eq_some h
  obtain ⟨rfl, hfound, hleaves⟩ := Rule.tile?_eq_some ht
  exact ⟨hr, hfound, Tile.coverAll_of_mapM hleaves (covers_tableOf _)⟩

end Catalogue

/-! ## The catalogue of the machine is total -/

namespace Amd64

variable {T : TileTable}

/-- A declared value has a tile if its operands have. -/
theorem exists_value_tile (hv : v.Declared)
    (hload : ∀ a, v = .load a → ∃ t, best a = some t)
    (hbinary : ∀ op l r, v = .binary op l r → (∃ t, best l = some t) ∧ ∃ t, best r = some t)
    (hunary : ∀ op x, v = .unary op x → ∃ t, best x = some t) :
    ∃ t, cheapest catalogue.trees best (.value v) = some t := by
  have hnone : ∀ u ∈ ([] : List Value), ∃ t, best u = some t := fun u hu => by cases hu
  cases v with
  | const w => exact exists_cheapest (r := const) (by simp [catalogue]) (Rule.exists_tile? rfl hnone)
  | read r => exact exists_cheapest (r := read) (by simp [catalogue]) (Rule.exists_tile? rfl hnone)
  | load a =>
    have hleaves : ∀ u ∈ [a], ∃ t, best u = some t := by simpa using hload a rfl
    exact exists_cheapest (r := loadAny) (by simp [catalogue]) (Rule.exists_tile? rfl hleaves)
  | binary op l r =>
    obtain ⟨hl, hr⟩ := hbinary op l r rfl
    have hleaves : ∀ u ∈ [l, r], ∃ t, best u = some t := by simp [hl, hr]
    -- an operator that is no comparison is arithmetic
    have hop := hv.1
    simp only [BinaryOp.declared, List.mem_cons, List.not_mem_nil, or_false] at hop
    rcases hop with rfl | rfl | rfl | rfl | rfl | rfl | rfl | rfl | rfl | rfl | rfl | rfl
    iterate 6
      exact exists_cheapest (r := arithAny) (by simp [catalogue]) (Rule.exists_tile? rfl hleaves)
    all_goals
      exact exists_cheapest (r := compare) (by simp [catalogue]) (Rule.exists_tile? rfl hleaves)
  | unary op x =>
    have hleaves : ∀ u ∈ [x], ∃ t, best u = some t := by simpa using hunary op x rfl
    exact exists_cheapest (r := unary) (by simp [catalogue]) (Rule.exists_tile? rfl hleaves)
  | address l => exact exists_cheapest (r := address) (by simp [catalogue]) (Rule.exists_tile? rfl hnone)
  | call f n => exact exists_cheapest (r := call) (by simp [catalogue]) (Rule.exists_tile? rfl hnone)

/-- The table holds the value and what it held before, and declared values in it
    have tiles. -/
structure Tabulated (v : Value) (T T' : TileTable) : Prop where
  total : T'.Total
  self : T'.holds v = true
  rest : ∀ u, T.holds u = true → T'.holds u = true

theorem tabulated_step {T' : TileTable} (h : T.Total) (h' : T'.Total)
    (hrest : ∀ u, T.holds u = true → T'.holds u = true)
    (hv : v.Declared → ∃ t, cheapest catalogue.trees T'.tile? (.value v) = some t) :
    Tabulated v T (if T.holds v = true then T else catalogue.addTile v T') := by
  split
  · next hheld => exact ⟨h, hheld, fun _ hu => hu⟩
  · refine ⟨fun u hu hdecl => ?_, TileTable.holds_cons.2 (Or.inl rfl),
      fun u hu => TileTable.holds_cons.2 (Or.inr (hrest u hu))⟩
    rw [Catalogue.addTile, TileTable.tile?_cons]
    split
    · next e => exact hv (e ▸ hdecl)
    · next hne => exact h' u ((TileTable.holds_cons.1 hu).resolve_left hne) hdecl

theorem tabulated (v : Value) (h : T.Total) : Tabulated v T (catalogue.tabulate v T) := by
  induction v generalizing T with
  | load a ih =>
    have ha := ih h
    refine tabulated_step h ha.total ha.rest fun hv => exists_value_tile hv ?_ nofun nofun
    intro a' e
    cases e
    exact ha.total a ha.self hv
  | binary op l r ihl ihr =>
    have hl := ihl h
    have hr := ihr hl.total
    refine tabulated_step h hr.total (fun u hu => hr.rest u (hl.rest u hu)) fun hv =>
      exists_value_tile hv nofun ?_ nofun
    intro op' l' r' e
    cases e
    exact ⟨hr.total l (hr.rest l hl.self) hv.2.1, hr.total r hr.self hv.2.2⟩
  | unary op x ih =>
    have hx := ih h
    refine tabulated_step h hx.total hx.rest fun hv => exists_value_tile hv nofun nofun ?_
    intro op' x' e
    cases e
    exact hx.total x hx.self hv.2
  | const w => exact tabulated_step h h (fun _ hu => hu) fun hv => exists_value_tile hv nofun nofun nofun
  | read r => exact tabulated_step h h (fun _ hu => hu) fun hv => exists_value_tile hv nofun nofun nofun
  | address l => exact tabulated_step h h (fun _ hu => hu) fun hv => exists_value_tile hv nofun nofun nofun
  | call f n => exact tabulated_step h h (fun _ hu => hu) fun hv => exists_value_tile hv nofun nofun nofun

theorem total_nil : TileTable.Total [] := fun _ h => by cases h

/-- **Every operation over declared operators has a tile.** -/
theorem exists_tile (s : Stmt) (hs : ∀ v ∈ s.values, v.Declared) :
    ∃ t, catalogue.tile? s = some t := by
  cases s with
  | value v =>
    have hv := tabulated v total_nil
    exact hv.total v hv.self (hs v (by simp [Stmt.values]))
  | write r v =>
    have hv := tabulated v total_nil
    have hleaves : ∀ u ∈ [v], ∃ t, (catalogue.tabulate v []).tile? u = some t := by
      simpa using hv.total v hv.self (hs v (by simp [Stmt.values]))
    exact exists_cheapest (r := writeAny) (by simp [catalogue]) (Rule.exists_tile? rfl hleaves)
  | store a v =>
    have ha := tabulated a total_nil
    have hv := tabulated v ha.total
    have hleaves : ∀ u ∈ [a, v], ∃ t, (catalogue.tabulate v (catalogue.tabulate a [])).tile? u = some t := by
      simp [hv.total a (hv.rest a ha.self) (hs a (by simp [Stmt.values])),
        hv.total v hv.self (hs v (by simp [Stmt.values]))]
    exact exists_cheapest (r := storeAny) (by simp [catalogue]) (Rule.exists_tile? rfl hleaves)
  | ret b =>
    exact exists_cheapest (r := ret) (by simp [catalogue]) (Rule.exists_tile? rfl fun u hu => by cases hu)

/-- **Every condition over declared operators has a branch tile.** -/
theorem exists_branchTile (hv : v.Declared) : ∃ t, catalogue.branchTile? v = some t := by
  have h := tabulated v total_nil
  have hleaves : ∀ u ∈ [v], ∃ t, (catalogue.tabulate v []).tile? u = some t := by
    simpa using h.total v h.self hv
  exact exists_cheapest (r := branchAny) (by simp [catalogue]) (Rule.exists_tile? rfl hleaves)

end Amd64

end Codegen
