/-
  Liveness is exact.

  A register is live at a position if some path of control from there reaches an
  instruction that reads it before one that defines it (`Stream.LiveAt`).

  * The analysis finds live what is live, and nothing else (`mem_liveSets`).
  * So the interference graph joins two registers if and only if an instruction
    defines one of them while the other is needed, and the copy graph joins the two
    sides of the copies that do not interfere (`analyze_exact`).
-/
import Codegen.Proofs.Liveness.Interference

namespace Codegen

namespace Stream

variable {items : Stream} {i : Instr} {l : Label} {j k : Nat} {item : Item} {ks : List Nat}

/-! ## Paths -/

/-- Control may go from one position to another: to the next item after a label or
    an instruction that falls through, and to the label that a jump names. -/
def Successor (items : Stream) (k j : Nat) : Prop :=
  ∃ item, items[k]? = some item ∧
    match item with
    | .label _ => j = k + 1
    | .instr i => i.fallsThrough = true ∧ j = k + 1 ∨
        ∃ l, i.target? = some l ∧ items[j]? = some (.label l)
    | .stray _ => False

/-- Some path from a position reaches an instruction that reads the register before
    one that defines it. -/
inductive LiveAt (items : Stream) (r : Register) : Nat → Prop
  | use {k : Nat} {i : Instr} (hk : items[k]? = some (.instr i)) (hr : r ∈ i.uses) : LiveAt items r k
  | step {k j : Nat} (h : items.Successor k j)
      (hdef : ∀ i, items[k]? = some (.instr i) → r ∉ i.defines) (hj : LiveAt items r j) :
    LiveAt items r k

/-- The register is live at a position that comes after the given one. -/
def LiveOut (items : Stream) (k : Nat) (r : Register) : Prop :=
  ∃ j, items.Successor k j ∧ items.LiveAt r j

/-- The last definition of a label is found. -/
theorem exists_position? (h : .label l ∈ items) : ∃ j, items.position? l = some j := by
  have key : ∀ (step : Option Nat → Item × Nat → Option Nat),
      (∀ found item k, step found (item, k) = if item = .label l then some k else found) →
      ∀ (xs : List (Item × Nat)) (found : Option Nat),
        found.isSome = true ∨ (∃ k, (.label l, k) ∈ xs) → (xs.foldl step found).isSome = true := by
    intro step hstep xs
    induction xs with
    | nil =>
      rintro found (h | ⟨k, h⟩)
      · exact h
      · cases h
    | cons x xs ih =>
      intro found h
      obtain ⟨item, k⟩ := x
      refine ih _ ?_
      rw [hstep]
      by_cases e : item = .label l
      · exact Or.inl (by simp [e])
      · rw [if_neg e]
        refine h.imp_right (Exists.imp fun k' hk' => (List.mem_cons.1 hk').resolve_left fun h => ?_)
        exact e (Prod.mk.inj h).1.symm
  obtain ⟨k, hk⟩ := List.mem_iff_getElem?.1 h
  exact Option.isSome_iff_exists.1
    (key _ (fun _ _ _ => rfl) _ none (Or.inr ⟨k, List.mem_zipIdx_iff_getElem?.2 hk⟩))

/-- A label that is defined once is at one position. -/
theorem eq_of_label (hlabels : (items.filterMap Item.label?).Nodup)
    (hj : items[j]? = some (.label l)) (hk : items[k]? = some (.label l)) : j = k := by
  induction items generalizing j k with
  | nil => simp at hj
  | cons item items ih =>
    have hrest : ((items.filterMap Item.label?)).Nodup := by
      rw [List.filterMap_cons] at hlabels
      split at hlabels
      · exact hlabels
      · exact (List.nodup_cons.1 hlabels).2
    -- the first item and a later one are different labels
    have hfirst : item = .label l → ∀ n : Nat, items[n]? ≠ some (.label l) := by
      rintro rfl n hn
      rw [List.filterMap_cons_some (by rfl : Item.label? (.label l) = some l)] at hlabels
      exact (List.nodup_cons.1 hlabels).1 (List.mem_filterMap.2 ⟨_, List.mem_of_getElem? hn, rfl⟩)
    cases j with
    | zero =>
      cases k with
      | zero => rfl
      | succ k => exact absurd hk (hfirst (Option.some.inj hj) k)
    | succ j =>
      cases k with
      | zero => exact absurd hj (hfirst (Option.some.inj hk) j)
      | succ k => rw [ih hrest hj hk]

/-- The positions listed after an item are its successors. -/
theorem successor_of_mem_next (hk : items[k]? = some item) (hks : items.next k item = .ok ks)
    (hj : j ∈ ks) : items.Successor k j := by
  have hfollowing : j ∈ next.following items k → j = k + 1 := fun h => by
    unfold next.following at h
    split at h
    · exact List.mem_singleton.1 h
    · cases h
  refine ⟨item, hk, ?_⟩
  cases item with
  | label l =>
    cases hks
    exact hfollowing hj
  | stray r => cases hks
  | instr i =>
    have hfalls : j ∈ (if i.fallsThrough = true then next.following items k else []) →
        i.fallsThrough = true ∧ j = k + 1 := fun h => by
      split at h
      · next hi => exact ⟨hi, hfollowing h⟩
      · cases h
    simp only [next] at hks
    split at hks
    · cases hks
      exact Or.inl (hfalls hj)
    · next l hl =>
      split at hks
      · next j' hj' =>
        cases hks
        rcases List.mem_append.1 hj with hj | hj
        · exact Or.inl (hfalls hj)
        · obtain rfl := List.mem_singleton.1 hj
          exact Or.inr ⟨l, hl, position?_eq_some hj'⟩
      · cases hks

/-- Control goes where the analysis thinks that it goes. -/
theorem Successor.leads (h : items.Successor k j) (hlabels : (items.filterMap Item.label?).Nodup) :
    items.Leads k j := by
  obtain ⟨item, hk, h⟩ := h
  cases item with
  | label l =>
    obtain rfl : j = k + 1 := h
    exact .skips hk
  | stray r => exact h.elim
  | instr i =>
    rcases h with ⟨hi, rfl⟩ | ⟨l, hl, hj⟩
    · exact .falls hk hi
    · obtain ⟨j', hj'⟩ := exists_position? (List.mem_of_getElem? hj)
      rw [eq_of_label hlabels hj (position?_eq_some hj')]
      exact .jumps hk hl hj'

/-- The flow of a stream is known if it has no stray items and its jumps have
    targets. -/
theorem exists_next (hclean : ∀ r, .stray r ∉ items)
    (htargets : ∀ i ∈ items.instructions, ∀ l, i.target? = some l → .label l ∈ items)
    (hk : items[k]? = some item) : ∃ ks, items.next k item = .ok ks := by
  cases item with
  | label l => exact ⟨_, rfl⟩
  | stray r => exact absurd (List.mem_of_getElem? hk) (hclean r)
  | instr i =>
    simp only [next]
    split
    · exact ⟨_, rfl⟩
    · next l hl =>
      have hi : i ∈ items.instructions := List.mem_filterMap.2 ⟨_, List.mem_of_getElem? hk, rfl⟩
      obtain ⟨j, hj⟩ := exists_position? (htargets i hi l hl)
      rw [hj]
      exact ⟨_, rfl⟩

end Stream

namespace Liveness

variable {items : Stream} {ps : List Point} {p : Point} {r a b : Register} {k : Nat}
  {live : Array LiveSet}

theorem exists_points (hclean : ∀ r, .stray r ∉ items)
    (htargets : ∀ i ∈ items.instructions, ∀ l, i.target? = some l → .label l ∈ items) :
    ∃ ps, points items = .ok ps := by
  have key : ∀ point : Item × Nat → Except Fault Point,
      (∀ item k, point (item, k) = do return ⟨k, item, ← items.next k item⟩) →
      ∀ xs : List (Item × Nat), (∀ x ∈ xs, ∃ ks, items.next x.2 x.1 = .ok ks) →
        ∃ ps, xs.mapM point = .ok ps := by
    intro point hpoint xs
    induction xs with
    | nil => exact fun _ => ⟨[], rfl⟩
    | cons x xs ih =>
      intro h
      obtain ⟨item, k⟩ := x
      obtain ⟨ks, hks⟩ := h _ List.mem_cons_self
      obtain ⟨ps, hps⟩ := ih fun x hx => h x (List.mem_cons_of_mem _ hx)
      refine ⟨⟨k, item, ks⟩ :: ps, ?_⟩
      rw [List.mapM_cons, hpoint]
      exact Except.bind_eq_ok.2 ⟨_, Except.bind_eq_ok.2 ⟨ks, hks, rfl⟩,
        Except.bind_eq_ok.2 ⟨ps, hps, rfl⟩⟩
  exact key _ (fun _ _ => rfl) _ fun x hx => Stream.exists_next hclean htargets (List.mem_zipIdx_iff_getElem?.1 hx)

/-! ## Nothing else is found live -/

/-- What the sets hold is live. -/
def Justified (items : Stream) (live : Array LiveSet) : Prop :=
  ∀ k r, r ∈ live.getD k [] → items.LiveAt r k

/-- One point adds what is live. -/
theorem Justified.refine (h : Justified items live) (hitem : items[p.index]? = some p.item)
    (hnext : items.next p.index p.item = .ok p.next) : Justified items (refine live p) := by
  intro k r hr
  rw [getD_refine] at hr
  split at hr
  · next hk =>
    rcases mem_union.1 hr with hr | hr
    · exact h k r hr
    · have hout : r ∈ after live p.next → (∀ i, items[k]? = some (.instr i) → r ∉ i.defines) →
          items.LiveAt r k := by
        intro hr hdef
        obtain ⟨j, hj, hr⟩ := mem_after.1 hr
        exact .step (hk.1 ▸ Stream.successor_of_mem_next hitem hnext hj) hdef (h j r hr)
      have hnone : p.item.instr? = none → items.LiveAt r k := fun hnone => by
        rw [before_of_none hnone] at hr
        refine hout hr fun i hi => ?_
        rw [hk.1, hitem] at hi
        rw [Option.some.inj hi] at hnone
        cases hnone
      cases hi : p.item with
      | label l => exact hnone (by rw [hi]; rfl)
      | stray q => exact hnone (by rw [hi]; rfl)
      | instr i =>
        rw [hi, ← hk.1] at hitem
        rw [hi, mem_before_instr] at hr
        rcases hr with ⟨hr, hdef⟩ | hr
        · refine hout hr fun i' hi' => ?_
          rw [hitem] at hi'
          cases hi'
          exact hdef
        · exact .use hitem hr
  · exact h k r hr

/-- A pass adds what is live. -/
theorem Justified.sweep (h : Justified items live) (hps : ∀ p ∈ ps,
    items[p.index]? = some p.item ∧ items.next p.index p.item = .ok p.next) :
    Justified items (sweep ps live) := by
  induction ps with
  | nil => exact h
  | cons p ps ih =>
    obtain ⟨hitem, hnext⟩ := hps p List.mem_cons_self
    exact (ih fun q hq => hps q (List.mem_cons_of_mem _ hq)).refine hitem hnext

theorem Justified.solve (h : Justified items live) (hps : ∀ p ∈ ps,
    items[p.index]? = some p.item ∧ items.next p.index p.item = .ok p.next) (limit : Nat) :
    Justified items (solve ps limit live) := by
  induction limit generalizing live with
  | zero => exact h
  | succ limit ih =>
    rw [solve_succ]
    split
    · exact h
    · exact ih (h.sweep hps)

/-- **The analysis finds live what is live.** -/
theorem mem_liveSets (hps : points items = .ok ps) (hlabels : (items.filterMap Item.label?).Nodup) :
    r ∈ (liveSets items ps).getD k [] ↔ items.LiveAt r k := by
  constructor
  · have hstart : Justified items (Array.replicate items.length []) := fun k r hr => by
      by_cases hk : k < items.length <;> simp [Array.getD_eq_getD_getElem?, hk] at hr
    exact hstart.solve (points_eq_ok hps).2 _ k r
  · intro h
    induction h with
    | use hk hr => exact mem_liveSets_of_uses hps hk hr
    | step h hdef _ ih => exact mem_liveSets_of_leads hps (h.leads hlabels) ih hdef

theorem mem_after_iff (hps : points items = .ok ps) (hlabels : (items.filterMap Item.label?).Nodup)
    (hp : p ∈ ps) : r ∈ after (liveSets items ps) p.next ↔ items.LiveOut p.index r := by
  obtain ⟨hitem, hnext⟩ := (points_eq_ok hps).2 p hp
  constructor
  · intro hr
    obtain ⟨j, hj, hr⟩ := mem_after.1 hr
    exact ⟨j, Stream.successor_of_mem_next hitem hnext hj, (mem_liveSets hps hlabels).1 hr⟩
  · rintro ⟨j, hj, hr⟩
    exact mem_after_liveSets (hj.leads hlabels) hitem hnext ((mem_liveSets hps hlabels).2 hr)

/-- The passes that the analysis makes. -/
theorem solve_eq_iterate (ps : List Point) (limit : Nat) (live : Array LiveSet) :
    ∃ n ≤ limit, solve ps limit live = (sweep ps)^[n] live := by
  induction limit generalizing live with
  | zero => exact ⟨0, Nat.le_refl 0, rfl⟩
  | succ limit ih =>
    rw [solve_succ]
    split
    · exact ⟨0, Nat.zero_le _, rfl⟩
    · obtain ⟨n, hn, e⟩ := ih (sweep ps live)
      exact ⟨n + 1, Nat.succ_le_succ hn, e⟩

/-! ## The graphs -/

/-- What is live is mentioned. -/
theorem mem_registers_of_liveAt (h : items.LiveAt r k) : r ∈ items.registers := by
  induction h with
  | use hk hr => exact Stream.uses_subset_registers hk hr
  | step _ _ _ ih => exact ih

/-- The nodes are added in order. -/
theorem nodes_eq_registers (items : Stream) :
    (items.registers.foldl Graph.addNode {}).nodes = items.registers := by
  have key : ∀ (rs : List Register) (g : Graph), (g.nodes ++ rs).Nodup →
      (rs.foldl Graph.addNode g).nodes = g.nodes ++ rs := by
    intro rs
    induction rs with
    | nil => exact fun g _ => (List.append_nil _).symm
    | cons x rs ih =>
      intro g h
      have hx : x ∉ g.nodes := fun hx =>
        (List.nodup_append.1 h).2.2 x hx x List.mem_cons_self rfl
      have e : (g.addNode x).nodes = g.nodes ++ [x] := by rw [Graph.nodes_addNode, if_neg hx]
      rw [List.foldl_cons, ih _ (by rw [e]; simpa using h), e, List.append_assoc]
      rfl
  exact key _ {} (nodup_eraseDups _)

/-- The edges of the interference graph. -/
theorem linked_conflict_iff (hps : points items = .ok ps)
    (hlabels : (items.filterMap Item.label?).Nodup) :
    (interference (items.registers.foldl Graph.addNode {}) ps (liveSets items ps)).linked a b = true ↔
      ∃ k i, items[k]? = some (.instr i) ∧
        (Clashes i (items.LiveOut k) a b ∨ Clashes i (items.LiveOut k) b a) := by
  have hnodes := nodes_interference (items.registers.foldl Graph.addNode {}) ps (liveSets items ps)
  have hsame : ∀ p ∈ ps, ∀ i x y, Clashes i (· ∈ after (liveSets items ps) p.next) x y ↔
      Clashes i (items.LiveOut p.index) x y := fun p hp i x y =>
    and_congr_right fun _ => and_congr_left fun _ => mem_after_iff hps hlabels hp
  constructor
  · intro h
    obtain ⟨ha, hb⟩ := Graph.mem_nodes_of_linked h
    rw [hnodes, mem_nodes_registers] at ha hb
    obtain ⟨p, hp, i, hi, h⟩ := (linked_conflict hps ha hb).1 h
    rw [hsame p hp, hsame p hp] at h
    exact ⟨p.index, i, hi ▸ ((points_eq_ok hps).2 p hp).1, h⟩
  · rintro ⟨k, i, hk, h⟩
    -- both registers are mentioned
    have hmem : ∀ {x y}, Clashes i (items.LiveOut k) x y → x ∈ items.registers ∧ y ∈ items.registers :=
      fun ⟨hdef, ⟨_, _, hj⟩, _⟩ =>
        ⟨Stream.defines_subset_registers hk hdef, mem_registers_of_liveAt hj⟩
    have hab : a ∈ items.registers ∧ b ∈ items.registers := h.elim hmem fun h => (hmem h).symm
    obtain ⟨ks, -, hp⟩ := (points_eq_ok hps).1 k _ hk
    refine (linked_conflict hps hab.1 hab.2).2 ⟨_, hp, i, rfl, ?_⟩
    rw [hsame _ hp, hsame _ hp]
    exact h

/-- The copy graph before interfering pairs are removed. -/
theorem linked_foldl_addEdge (moves : List (Register × Register)) (g : Graph) :
    (moves.foldl (fun g (dst, src) => g.addEdge dst src) g).linked a b = true ↔
      g.linked a b = true ∨ a ≠ b ∧ ((a, b) ∈ moves ∨ (b, a) ∈ moves) := by
  induction moves generalizing g with
  | nil => simp
  | cons move moves ih =>
    obtain ⟨dst, src⟩ := move
    rw [List.foldl_cons, ih, Graph.linked_addEdge, or_assoc, ← and_or_left]
    simp only [List.mem_cons, Prod.mk.injEq]
    refine or_congr_right (and_congr_right fun _ => ?_)
    tauto

theorem nodes_foldl_addEdge (moves : List (Register × Register)) (g : Graph)
    (h : ∀ move ∈ moves, move.1 ∈ g.nodes ∧ move.2 ∈ g.nodes) :
    (moves.foldl (fun g (dst, src) => g.addEdge dst src) g).nodes = g.nodes := by
  induction moves generalizing g with
  | nil => rfl
  | cons move moves ih =>
    obtain ⟨hdst, hsrc⟩ := h _ List.mem_cons_self
    have e : (g.addEdge move.1 move.2).nodes = g.nodes := by
      rw [Graph.nodes_addEdge, Graph.nodes_addNode, Graph.nodes_addNode, if_pos hdst, if_pos hsrc]
    rw [List.foldl_cons, ih _ fun m hm => by rw [e]; exact h m (List.mem_cons_of_mem _ hm), e]

theorem nodes_foldl_removeEdge (conflict : Graph) (es : List (Register × Register)) (g : Graph) :
    (es.foldl (fun g (x, y) => if conflict.linked x y then g.removeEdge x y else g) g).nodes = g.nodes := by
  induction es generalizing g with
  | nil => rfl
  | cons e es ih =>
    obtain ⟨x, y⟩ := e
    rw [List.foldl_cons, ih]
    by_cases h : conflict.linked x y = true <;> simp [h]

/-- Of the listed edges, those that interfere are removed. -/
theorem linked_foldl_removeEdge (conflict : Graph) (es : List (Register × Register)) (g : Graph) :
    (es.foldl (fun g (x, y) => if conflict.linked x y then g.removeEdge x y else g) g).linked a b = true ↔
      g.linked a b = true ∧ ∀ e ∈ es, e = (a, b) ∨ e = (b, a) → conflict.linked e.1 e.2 = false := by
  induction es generalizing g with
  | nil => simp
  | cons e es ih =>
    obtain ⟨x, y⟩ := e
    rw [List.foldl_cons, List.forall_mem_cons, ih]
    by_cases hxy : conflict.linked x y = true
    · simp only [hxy, if_true]
      rw [Graph.linked_removeEdge, and_assoc]
      refine and_congr_right fun _ => and_congr_left fun _ => ?_
      simp only [Prod.mk.injEq, Bool.true_eq_false, imp_false, not_or]
      exact and_congr (not_congr (and_congr eq_comm eq_comm))
        (not_congr (and_comm.trans (and_congr eq_comm eq_comm)))
    · simp only [hxy]
      exact and_congr_right fun _ => by simp

/-- The sides of a copy are mentioned. -/
theorem mem_registers_of_copy? {i : Instr} (hi : i ∈ items.instructions) (hc : i.copy? = some (a, b)) :
    a ∈ items.registers ∧ b ∈ items.registers := by
  obtain ⟨item, hitem, e⟩ := List.mem_filterMap.1 hi
  obtain ⟨k, hk⟩ := List.mem_iff_getElem?.1 hitem
  obtain rfl : item = .instr i := by cases item <;> cases e; rfl
  obtain rfl : i = .move a b := by
    unfold Instr.copy? at hc
    split at hc
    · cases hc; rfl
    · cases hc
  exact ⟨Stream.defines_subset_registers hk
      (by simp [Instr.move, Instr.defines, Operand.defined, Operand.register?]),
    Stream.uses_subset_registers hk (by simp [Instr.move, Instr.uses, Operand.registers])⟩

theorem nodes_copies (items : Stream) (conflict : Graph) :
    (copies (items.registers.foldl Graph.addNode {}) items conflict).nodes = items.registers := by
  refine (nodes_foldl_removeEdge _ _ _).trans ?_
  refine (nodes_foldl_addEdge _ _ fun move hmem => ?_).trans (nodes_eq_registers items)
  obtain ⟨i, hi, hc⟩ := List.mem_filterMap.1 hmem
  exact ⟨mem_nodes_registers.2 (mem_registers_of_copy? hi hc).1,
    mem_nodes_registers.2 (mem_registers_of_copy? hi hc).2⟩

/-- The copy graph joins the sides of the copies that do not interfere. -/
theorem linked_copies (items : Stream) (conflict : Graph) :
    (copies (items.registers.foldl Graph.addNode {}) items conflict).linked a b = true ↔
      a ≠ b ∧ (∃ i ∈ items.instructions, i.copy? = some (a, b) ∨ i.copy? = some (b, a)) ∧
        conflict.linked a b = false := by
  have hlinked := linked_foldl_addEdge (a := a) (b := b) (items.instructions.filterMap Instr.copy?)
    (items.registers.foldl Graph.addNode {})
  unfold copies
  simp only
  generalize (items.instructions.filterMap Instr.copy?).foldl _
    (items.registers.foldl Graph.addNode {}) = moves at hlinked ⊢
  have hcopies : moves.linked a b = true ↔
      a ≠ b ∧ ∃ i ∈ items.instructions, i.copy? = some (a, b) ∨ i.copy? = some (b, a) := by
    rw [hlinked, linked_foldl_addNode, List.mem_filterMap, List.mem_filterMap, ← exists_or]
    simp only [← and_or_left]
    exact or_iff_right fun h => by cases h
  have hflip : conflict.linked a b = false ↔ conflict.linked b a = false := by
    rw [Bool.eq_false_iff, Bool.eq_false_iff]
    exact not_congr ⟨Graph.linked_symm, Graph.linked_symm⟩
  rw [linked_foldl_removeEdge, ← and_assoc, ← hcopies]
  refine and_congr_right fun hab => ⟨fun h => ?_, fun h e _ he => ?_⟩
  · -- the edge is listed one way or the other
    rcases Graph.mem_edgeList_of_linked hab with hmem | hmem
    · exact h _ hmem (Or.inl rfl)
    · exact hflip.2 (h _ hmem (Or.inr rfl))
  · rcases he with rfl | rfl
    · exact h
    · exact hflip.1 h

theorem exists_analyze (hclean : ∀ r, .stray r ∉ items)
    (htargets : ∀ i ∈ items.instructions, ∀ l, i.target? = some l → .label l ∈ items) :
    ∃ result, analyze items = .ok result := by
  obtain ⟨ps, hps⟩ := exists_points hclean htargets
  exact ⟨_, Except.bind_eq_ok.2 ⟨ps, hps, rfl⟩⟩

/-- Both graphs list all registers in order of first mention. -/
theorem nodes_analyze {result : Result} (h : analyze items = .ok result) :
    result.interference.nodes = items.registers ∧ result.copies.nodes = items.registers := by
  obtain ⟨ps, -, h⟩ := Except.bind_eq_ok.1 h
  cases h
  exact ⟨(nodes_interference _ _ _).trans (nodes_eq_registers items), nodes_copies items _⟩

/-- What the interference graph of a stream says. -/
theorem analyze_eq_ok {result : Result} (h : analyze items = .ok result)
    (hlabels : (items.filterMap Item.label?).Nodup) :
    (∀ a b, result.interference.linked a b = true ↔
        ∃ k i, items[k]? = some (.instr i) ∧
          (Clashes i (items.LiveOut k) a b ∨ Clashes i (items.LiveOut k) b a)) ∧
      result.interference.nodes = items.registers ∧ result.copies.nodes = items.registers := by
  refine ⟨?_, nodes_analyze h⟩
  obtain ⟨ps, hps, h⟩ := Except.bind_eq_ok.1 h
  cases h
  exact fun a b => linked_conflict_iff hps hlabels

/-- **Liveness analysis is exact.**  It ends on every stream of labels and
    instructions whose labels are defined once and whose jumps have targets.  Two
    registers interfere if and only if some instruction defines one of them while
    the other is live after it and is not what the instruction copies; the copy graph
    joins the sides of the copies that do not interfere; both graphs list all registers
    in order of first mention. -/
theorem analyze_exact (items : Stream) (hclean : ∀ r, .stray r ∉ items)
    (hlabels : (items.filterMap Item.label?).Nodup)
    (htargets : ∀ i ∈ items.instructions, ∀ l, i.target? = some l → .label l ∈ items) :
    (∃ ps, points items = .ok ps ∧ ∃ n ≤ items.length * items.registers.length + 1,
        Function.IsFixedPt (sweep ps) ((sweep ps)^[n] (Array.replicate items.length []))) ∧
      ∃ result, analyze items = .ok result ∧
        (∀ a b, a ≠ b → (result.interference.linked a b = true ↔
          ∃ k i, items[k]? = some (.instr i) ∧
            (Clashes i (items.LiveOut k) a b ∨ Clashes i (items.LiveOut k) b a))) ∧
        (∀ a b, a ≠ b → (result.copies.linked a b = true ↔
          (∃ i ∈ items.instructions, i.copy? = some (a, b) ∨ i.copy? = some (b, a)) ∧
            result.interference.linked a b = false)) ∧
        result.interference.nodes = items.registers ∧ result.copies.nodes = items.registers := by
  obtain ⟨ps, hps⟩ := exists_points hclean htargets
  constructor
  · obtain ⟨n, hn, e⟩ := solve_eq_iterate ps (items.length * items.registers.length + 1)
      (Array.replicate items.length [])
    exact ⟨ps, hps, n, hn, e ▸ sweep_liveSets hps⟩
  · refine ⟨_, Except.bind_eq_ok.2 ⟨ps, hps, rfl⟩, fun a b _ => linked_conflict_iff hps hlabels,
      fun a b hab => (linked_copies items _).trans (and_iff_right hab), ?_, nodes_copies items _⟩
    exact (nodes_interference _ _ _).trans (nodes_eq_registers items)

/-- A loop that counts down and adds up. -/
def addingLoop : Stream :=
  [.instr (.mov (.reg (.virtual 1)) (.imm 3)), .instr (.clear (.virtual 2)), .label "loop",
    .instr (.binary "add" (.reg (.virtual 2)) (.reg (.virtual 1))),
    .instr (.binary "sub" (.reg (.virtual 1)) (.imm 1)), .instr (.jcc "ne" "loop"),
    .instr (.move (.physical .rax) (.virtual 2)), .instr (.ret [.physical .rax])]

/-- The sum is needed where the counter is changed, because control may go back to the
    beginning of the loop. -/
theorem analyze_exact_addingLoop :
    ∃ result, analyze addingLoop = .ok result ∧
      result.interference.linked (.virtual 1) (.virtual 2) = true ∧
      result.copies.nodes = [.virtual 1, .virtual 2, .physical .rax] := by
  have hclean : ∀ r, .stray r ∉ addingLoop := by simp [addingLoop]
  have htargets : ∀ i ∈ addingLoop.instructions, ∀ l, i.target? = some l → .label l ∈ addingLoop := by
    have hall : ∀ i ∈ addingLoop.instructions,
        (i.target?.all fun l => addingLoop.contains (.label l)) = true := by decide
    intro i hi l hl
    simpa [hl] using hall i hi
  obtain ⟨-, result, hresult, hinterference, -, -, hnodes⟩ :=
    analyze_exact addingLoop hclean (by decide) htargets
  refine ⟨result, hresult, (hinterference _ _ (by decide)).2 ⟨4, _, rfl, Or.inl ⟨by decide, ?_,
    by decide, fun _ e => by cases e⟩⟩, hnodes.trans (by decide)⟩
  -- round the loop: the jump, the label, and the addition that reads the sum
  have hlabel : addingLoop.LiveAt (.virtual 2) 2 :=
    .step ⟨_, rfl, rfl⟩ (fun _ h => by cases h) (.use (k := 3) rfl (by decide))
  refine ⟨5, ⟨_, rfl, Or.inl ⟨rfl, rfl⟩⟩, .step ⟨_, rfl, Or.inr ⟨"loop", rfl, rfl⟩⟩ ?_ hlabel⟩
  rintro i hi
  cases hi
  decide

end Liveness

end Codegen
