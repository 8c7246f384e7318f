/-
  Interference is what liveness demands.

  * `Stream.Leads` is the control flow of a stream as a relation;
  * `Solves` says that sets of registers solve the liveness equations along it,
    and that a graph joins what an instruction defines with all that is needed
    afterwards, except for the source of a copy;
  * every stream that can be analyzed has such sets (`analyze_solves`).
-/
import Codegen.Proofs.Liveness.Solution
import Codegen.Proofs.Outcomes

namespace Codegen

namespace Stream

variable {items : Stream} {i : Instr} {l : Label} {j k : Nat}

/-! ## Control flow -/

theorem position?_eq_some (h : items.position? l = some j) : items[j]? = some (.label l) := by
  have key : ∀ (step : Option Nat → Item × Nat → Option Nat),
      (∀ found item k, step found (item, k) = if item = .label l then some k else found) →
      ∀ (xs : List (Item × Nat)) (found : Option Nat), xs.foldl step found = some j →
        found = some j ∨ (.label l, j) ∈ xs := by
    intro step hstep xs
    induction xs with
    | nil => exact fun _ h => Or.inl h
    | cons x xs ih =>
      intro found h
      obtain ⟨item, k⟩ := x
      rw [List.foldl_cons, hstep] at h
      rcases ih (if item = .label l then some k else found) h with h | h
      · by_cases e : item = .label l
        · rw [if_pos e] at h
          cases h
          exact Or.inr (e ▸ List.mem_cons_self)
        · rw [if_neg e] at h
          exact Or.inl h
      · exact Or.inr (List.mem_cons_of_mem _ h)
  rcases key _ (fun _ _ _ => rfl) _ _ h with h | h
  · cases h
  · exact List.mem_zipIdx_iff_getElem?.1 h

/-- Control may go from one position of a stream to another. -/
inductive Leads (items : Stream) (k : Nat) : Nat → Prop
  /-- A label is skipped. -/
  | skips {l : Label} (h : items[k]? = some (.label l)) : Leads items k (k + 1)
  /-- An instruction is followed by the next one. -/
  | falls {i : Instr} (h : items[k]? = some (.instr i)) (hi : i.fallsThrough = true) :
    Leads items k (k + 1)
  /-- A jump goes to its label. -/
  | jumps {i : Instr} {l : Label} {j : Nat} (h : items[k]? = some (.instr i))
      (hl : i.target? = some l) (hj : items.position? l = some j) : Leads items k j

theorem Leads.item (h : items.Leads k j) : ∃ item, items[k]? = some item := by
  cases h with
  | skips h => exact ⟨_, h⟩
  | falls h _ => exact ⟨_, h⟩
  | jumps h _ _ => exact ⟨_, h⟩

/-- The positions listed after an item are all there are. -/
theorem Leads.mem_next {item : Item} {ks : List Nat} (h : items.Leads k j)
    (hk : items[k]? = some item) (hks : items.next k item = .ok ks) (hj : j < items.length) :
    j ∈ ks := by
  cases h with
  | skips h =>
    rw [hk] at h
    cases h
    cases hks
    simp [next.following, hj]
  | @falls i h hi =>
    rw [hk] at h
    cases h
    simp only [next, hi, if_true, next.following, if_pos hj] at hks
    split at hks
    · cases hks; simp
    · split at hks
      · cases hks; simp
      · cases hks
  | jumps h hl hj' =>
    rw [hk] at h
    cases h
    simp only [next, hl, hj'] at hks
    cases hks
    simp

/-- A jump of a stream whose flow is known has a label to go to. -/
theorem position?_of_next {ks : List Nat} (h : items.next k (.instr i) = .ok ks)
    (hl : i.target? = some l) : ∃ j, items.position? l = some j := by
  cases hj : items.position? l with
  | some j => exact ⟨j, rfl⟩
  | none => simp only [next, hl, hj] at h; cases h

theorem uses_subset_registers (h : items[k]? = some (.instr i)) : i.uses ⊆ items.registers := by
  intro r hr
  refine List.mem_eraseDups.2 (List.mem_flatMap.2 ⟨i, ?_, by simp [Instr.mentions, hr]⟩)
  exact List.mem_filterMap.2 ⟨_, List.mem_of_getElem? h, rfl⟩

theorem defines_subset_registers (h : items[k]? = some (.instr i)) :
    i.defines ⊆ items.registers := by
  intro r hr
  refine List.mem_eraseDups.2 (List.mem_flatMap.2 ⟨i, ?_, by simp [Instr.mentions, hr]⟩)
  exact List.mem_filterMap.2 ⟨_, List.mem_of_getElem? h, rfl⟩

end Stream

theorem Instr.defines_of_copy? {i : Instr} {d s : Register} (h : i.copy? = some (d, s)) :
    i.defines = [d] := by
  unfold copy? at h
  split at h
  · cases h; rfl
  · cases h

namespace Liveness

variable {items : Stream} {ps : List Point} {p : Point} {i : Instr} {d r : Register} {k : Nat}
  {live : Array LiveSet} {g : Graph}

/-- The points of a stream are its items with what comes after them. -/
theorem points_eq_ok (h : points items = .ok ps) :
    (∀ k item, items[k]? = some item →
      ∃ ks, items.next k item = .ok ks ∧ (⟨k, item, ks⟩ : Point) ∈ ps) ∧
    ∀ p ∈ ps, items[p.index]? = some p.item ∧ items.next p.index p.item = .ok p.next := by
  have hall := Except.mapM_eq_ok h
  constructor
  · intro k item hk
    have hmem : (item, k) ∈ items.zipIdx := List.mem_zipIdx_iff_getElem?.2 hk
    obtain ⟨p, hp, e⟩ := forall₂_exists_right hall hmem
    obtain ⟨ks, hks, e⟩ := Except.bind_eq_ok.1 e
    cases e
    exact ⟨ks, hks, hp⟩
  · intro p hp
    obtain ⟨⟨item, k⟩, hx, e⟩ := forall₂_exists_left hall hp
    obtain ⟨ks, hks, e⟩ := Except.bind_eq_ok.1 e
    cases e
    exact ⟨List.mem_zipIdx_iff_getElem?.1 hx, hks⟩

/-! ## Edges -/

theorem nodes_addConflicts (g : Graph) (i : Instr) (out : LiveSet) :
    (addConflicts g i out).nodes = g.nodes := by
  have key : ∀ (ds : List Register) (g : Graph) (f : Register → List Register),
      (ds.foldl (fun g d => g.connect d (f d)) g).nodes = g.nodes := by
    intro ds
    induction ds with
    | nil => exact fun _ _ => rfl
    | cons d ds ih => intro g f; rw [List.foldl_cons, ih, Graph.nodes_connect]
  exact key _ _ _

/-- Connecting nodes keeps the edges and joins each node with its own. -/
theorem linked_foldl_connect {ds : List Register} {f : Register → List Register} {x y : Register}
    (hds : ds ⊆ g.nodes) (hx : x ∈ g.nodes) (hy : y ∈ g.nodes) :
    (ds.foldl (fun g d => g.connect d (f d)) g).linked x y = true ↔
      g.linked x y = true ∨ x ≠ y ∧ (x ∈ ds ∧ y ∈ f x ∨ y ∈ ds ∧ x ∈ f y) := by
  induction ds generalizing g with
  | nil => simp
  | cons d ds ih =>
    have hd : d ∈ g.nodes := hds List.mem_cons_self
    have hrest : ds ⊆ (g.connect d (f d)).nodes := by
      rw [Graph.nodes_connect]
      exact fun z hz => hds (List.mem_cons_of_mem _ hz)
    rw [List.foldl_cons, ih hrest (by simpa using hx) (by simpa using hy),
      Graph.linked_connect hd hx hy, List.mem_cons, List.mem_cons]
    constructor
    · rintro ((h | ⟨hne, ⟨rfl, h⟩ | ⟨rfl, h⟩⟩) | ⟨hne, h⟩)
      · exact Or.inl h
      · exact Or.inr ⟨hne, Or.inl ⟨Or.inl rfl, h⟩⟩
      · exact Or.inr ⟨hne, Or.inr ⟨Or.inl rfl, h⟩⟩
      · exact Or.inr ⟨hne, h.imp (And.imp_left Or.inr) (And.imp_left Or.inr)⟩
    · rintro (h | ⟨hne, ⟨rfl | h, hf⟩ | ⟨rfl | h, hf⟩⟩)
      · exact Or.inl (Or.inl h)
      · exact Or.inl (Or.inr ⟨hne, Or.inl ⟨rfl, hf⟩⟩)
      · exact Or.inr ⟨hne, Or.inl ⟨h, hf⟩⟩
      · exact Or.inl (Or.inr ⟨hne, Or.inr ⟨rfl, hf⟩⟩)
      · exact Or.inr ⟨hne, Or.inr ⟨h, hf⟩⟩

/-- The instruction defines `d` while `r` is needed, and does not copy it. -/
def Clashes (i : Instr) (out : Register → Prop) (d r : Register) : Prop :=
  d ∈ i.defines ∧ out r ∧ r ≠ d ∧ ∀ d', i.copy? ≠ some (d', r)

theorem mem_conflicts {out : LiveSet} :
    r ∈ conflicts i out ↔ r ∈ out ∧ ∀ d', i.copy? ≠ some (d', r) := by
  unfold conflicts
  cases hc : i.copy? with
  | none => simp
  | some c =>
    obtain ⟨d', s⟩ := c
    simp only [List.mem_filter, decide_eq_true_eq, ne_eq, Option.some.injEq, Prod.mk.injEq, not_and]
    exact and_congr_right fun _ =>
      ⟨fun h _ _ e => h e.symm, fun h e => h d' rfl e.symm⟩

theorem linked_addConflicts (out : LiveSet) (hi : i.defines ⊆ g.nodes) (hd : d ∈ g.nodes)
    (hr : r ∈ g.nodes) :
    (addConflicts g i out).linked d r = true ↔
      g.linked d r = true ∨ Clashes i (· ∈ out) d r ∨ Clashes i (· ∈ out) r d := by
  refine (linked_foldl_connect hi hd hr).trans (or_congr_right ?_)
  simp only [List.mem_filter, mem_conflicts, decide_eq_true_eq, Clashes]
  constructor
  · rintro ⟨-, ⟨hdef, ⟨hout, hcopy⟩, hne⟩ | ⟨hdef, ⟨hout, hcopy⟩, hne⟩⟩
    · exact Or.inl ⟨hdef, hout, hne, hcopy⟩
    · exact Or.inr ⟨hdef, hout, hne, hcopy⟩
  · rintro (⟨hdef, hout, hne, hcopy⟩ | ⟨hdef, hout, hne, hcopy⟩)
    · exact ⟨Ne.symm hne, Or.inl ⟨hdef, ⟨hout, hcopy⟩, hne⟩⟩
    · exact ⟨hne, Or.inr ⟨hdef, ⟨hout, hcopy⟩, hne⟩⟩

theorem nodes_interference (g : Graph) (ps : List Point) (live : Array LiveSet) :
    (interference g ps live).nodes = g.nodes := by
  induction ps generalizing g with
  | nil => rfl
  | cons p ps ih =>
    refine (ih _).trans ?_
    cases hitem : p.item.instr? with
    | none => simp only [hitem]
    | some i => simp only [hitem]; exact nodes_addConflicts g _ _

/-- The interference graph joins what an instruction defines with what is live
    after it, and nothing else. -/
theorem linked_interference (hps : ∀ p ∈ ps, ∀ i, p.item = .instr i → i.defines ⊆ g.nodes)
    (hd : d ∈ g.nodes) (hr : r ∈ g.nodes) :
    (interference g ps live).linked d r = true ↔ g.linked d r = true ∨
      ∃ p ∈ ps, ∃ i, p.item = .instr i ∧
        (Clashes i (· ∈ after live p.next) d r ∨ Clashes i (· ∈ after live p.next) r d) := by
  induction ps generalizing g with
  | nil => simp [interference]
  | cons p ps ih =>
    have hrest := fun q hq => hps q (List.mem_cons_of_mem _ hq)
    cases hitem : p.item.instr? with
    | none =>
      have e : interference g (p :: ps) live = interference g ps live := by
        simp only [interference, List.foldl_cons, hitem]
      rw [e, ih hrest hd hr, List.exists_mem_cons_iff]
      refine or_congr_right (or_iff_right ?_).symm
      rintro ⟨i, hi, -⟩
      rw [hi] at hitem
      cases hitem
    | some i =>
      have e : interference g (p :: ps) live =
          interference (addConflicts g i (after live p.next)) ps live := by
        simp only [interference, List.foldl_cons, hitem]
      have hi : p.item = .instr i := by
        cases hp : p.item <;> rw [hp] at hitem <;> cases hitem; rfl
      have hn := nodes_addConflicts g i (after live p.next)
      rw [e, ih (by rwa [hn]) (by rwa [hn]) (by rwa [hn]), List.exists_mem_cons_iff,
        linked_addConflicts _ (hps p List.mem_cons_self i hi) hd hr, or_assoc]
      refine or_congr_right (or_congr_left ⟨fun h => ⟨i, hi, h⟩, ?_⟩)
      rintro ⟨i', hi', h⟩
      rw [hi] at hi'
      cases hi'
      exact h

/-! ## Solutions -/

/-- The registers `live` before each position satisfy the liveness equations, and
    the graph joins what an instruction defines with what is live after it. -/
structure Solves (items : Stream) (conflict : Graph) (live : Nat → Register → Prop) : Prop where
  /-- Every item is a label or an instruction. -/
  clean : ∀ {k : Nat} {r : Register}, items[k]? ≠ some (.stray r)
  /-- Every jump goes to a label. -/
  lands : ∀ {k : Nat} {i : Instr} {l : Label}, items[k]? = some (.instr i) → i.target? = some l →
    ∃ j, items.position? l = some j
  /-- What is live is mentioned. -/
  mentioned : ∀ {k r}, live k r → r ∈ items.registers
  /-- What an instruction reads is live before it. -/
  uses : ∀ {k i r}, items[k]? = some (.instr i) → r ∈ i.uses → live k r
  /-- What is live afterwards is live before, unless it is defined in between. -/
  keeps : ∀ {j k r}, items.Leads k j → live j r →
    (∀ i, items[k]? = some (.instr i) → r ∉ i.defines) → live k r
  /-- What is defined interferes with what is live afterwards, but for the source
      of a copy. -/
  apart : ∀ {j k i d r}, items[k]? = some (.instr i) → items.Leads k j → live j r →
    d ∈ i.defines → r ≠ d → (∀ d', i.copy? ≠ some (d', r)) → conflict.linked d r = true

theorem nodes_foldl_addNode (rs : List Register) (g : Graph) :
    ∀ r, r ∈ (rs.foldl Graph.addNode g).nodes ↔ r ∈ g.nodes ∨ r ∈ rs := by
  induction rs generalizing g with
  | nil => simp
  | cons x rs ih =>
    intro r
    rw [List.foldl_cons, ih, Graph.mem_nodes_addNode, List.mem_cons, or_assoc]

theorem linked_foldl_addNode (rs : List Register) (g : Graph) :
    (rs.foldl Graph.addNode g).linked d r = g.linked d r := by
  induction rs generalizing g with
  | nil => rfl
  | cons x rs ih => rw [List.foldl_cons, ih, Graph.linked_addNode]

theorem mem_nodes_registers :
    r ∈ (items.registers.foldl Graph.addNode {}).nodes ↔ r ∈ items.registers :=
  (nodes_foldl_addNode _ _ r).trans (by simp [Graph.nodes, Links.nodes])

/-! ## The sets that the analysis ends with -/

/-- What is live before each item, as the analysis finds it. -/
def liveSets (items : Stream) (ps : List Point) : Array LiveSet :=
  solve ps (items.length * items.registers.length + 1) (Array.replicate items.length [])

theorem size_liveSets (items : Stream) (ps : List Point) : (liveSets items ps).size = items.length := by
  rw [liveSets, (grows_solve _ _ _).size, Array.size_replicate]

theorem lt_length_of_mem_liveSets (h : r ∈ (liveSets items ps).getD k []) : k < items.length := by
  by_contra hk
  rw [← size_liveSets items ps] at hk
  simp [Array.getD_eq_getD_getElem?, hk] at h

/-- What is live at a position that control may go to is live afterwards. -/
theorem mem_after_liveSets {item : Item} {j : Nat} {ks : List Nat} (hlead : items.Leads k j)
    (hk : items[k]? = some item) (hks : items.next k item = .ok ks)
    (hj : r ∈ (liveSets items ps).getD j []) : r ∈ after (liveSets items ps) ks :=
  mem_after.2 ⟨j, hlead.mem_next hk hks (lt_length_of_mem_liveSets hj), hj⟩

theorem within_start (items : Stream) : Within items.registers (Array.replicate items.length []) := by
  constructor <;> intro k <;> by_cases hk : k < items.length <;>
    simp [Array.getD_eq_getD_getElem?, hk]

section
variable (hps : points items = .ok ps)
include hps

theorem reads_points : Reads items.registers ps := fun p hp _ hi =>
  Stream.uses_subset_registers (hi ▸ ((points_eq_ok hps).2 p hp).1)

theorem within_liveSets : Within items.registers (liveSets items ps) :=
  (within_start items).solve (reads_points hps) _

/-- No further pass changes the sets. -/
theorem sweep_liveSets : sweep ps (liveSets items ps) = liveSets items ps := by
  refine sweep_solve (within_start items) (reads_points hps) ?_
  rw [Array.size_replicate]
  omega

/-- The sets satisfy the equation of every item. -/
theorem before_liveSets {item : Item} (hk : items[k]? = some item) :
    ∃ ks, (⟨k, item, ks⟩ : Point) ∈ ps ∧ items.next k item = .ok ks ∧
      before item (after (liveSets items ps) ks) ⊆ (liveSets items ps).getD k [] := by
  obtain ⟨ks, hks, hp⟩ := (points_eq_ok hps).1 k item hk
  obtain ⟨hlt, -⟩ := List.getElem?_eq_some_iff.1 hk
  exact ⟨ks, hp, hks, before_subset (sweep_liveSets hps) hp ((size_liveSets items ps).symm ▸ hlt)⟩

/-- What is live afterwards is live before, unless it is defined in between. -/
theorem mem_liveSets_of_leads {j : Nat} (hlead : items.Leads k j)
    (hj : r ∈ (liveSets items ps).getD j [])
    (hdef : ∀ i, items[k]? = some (.instr i) → r ∉ i.defines) :
    r ∈ (liveSets items ps).getD k [] := by
  obtain ⟨item, hk⟩ := hlead.item
  obtain ⟨ks, -, hks, hsub⟩ := before_liveSets hps hk
  have hout := mem_after_liveSets hlead hk hks hj
  refine hsub ?_
  cases item with
  | label l => rw [before_of_none rfl]; exact hout
  | stray q => rw [before_of_none rfl]; exact hout
  | instr i => exact mem_before_instr.2 (Or.inl ⟨hout, hdef i hk⟩)

theorem mem_liveSets_of_uses (hk : items[k]? = some (.instr i)) (hr : r ∈ i.uses) :
    r ∈ (liveSets items ps).getD k [] := by
  obtain ⟨ks, -, -, hsub⟩ := before_liveSets hps hk
  exact hsub (mem_before_instr.2 (Or.inr hr))

/-- The graph that the analysis makes of the sets. -/
theorem linked_conflict (hd : d ∈ items.registers) (hr : r ∈ items.registers) :
    (interference (items.registers.foldl Graph.addNode {}) ps (liveSets items ps)).linked d r = true ↔
      ∃ p ∈ ps, ∃ i, p.item = .instr i ∧
        (Clashes i (· ∈ after (liveSets items ps) p.next) d r ∨
          Clashes i (· ∈ after (liveSets items ps) p.next) r d) := by
  rw [linked_interference (fun p hp i hi x hx => ?_) (mem_nodes_registers.2 hd)
    (mem_nodes_registers.2 hr), linked_foldl_addNode]
  · exact or_iff_right nofun
  · exact mem_nodes_registers.2
      (Stream.defines_subset_registers (hi ▸ ((points_eq_ok hps).2 p hp).1) hx)

end

/-- **Every stream that can be analyzed has a solution.** -/
theorem analyze_solves {result : Result} (h : analyze items = .ok result) :
    ∃ live, Solves items result.interference live := by
  obtain ⟨ps, hps, h⟩ := Except.bind_eq_ok.1 h
  cases h
  have hwithin := within_liveSets hps
  refine ⟨fun k r => r ∈ (liveSets items ps).getD k [], ?_, ?_, fun hr => hwithin.subset _ hr,
    mem_liveSets_of_uses hps, mem_liveSets_of_leads hps, ?_⟩
  · intro k r hk
    obtain ⟨ks, -, hks, -⟩ := before_liveSets hps hk
    cases hks
  · intro k i l hk hl
    obtain ⟨ks, -, hks, -⟩ := before_liveSets hps hk
    exact Stream.position?_of_next hks hl
  · intro j k i d r hk hlead hj hd hne hcopy
    obtain ⟨ks, hp, hks, -⟩ := before_liveSets hps hk
    exact (linked_conflict hps (Stream.defines_subset_registers hk hd) (hwithin.subset j hj)).2
      ⟨_, hp, i, rfl, Or.inl ⟨hd, mem_after_liveSets hlead hk hks hj, hne, hcopy⟩⟩

end Liveness

end Codegen
