/-
  A graph of numbers that stands for a graph of registers.

  `InStep` is what the three parts of an `IndexedGraph` have to do with each other: the
  number of a register is its place in node order, and the library knows the numbers that
  are places, with their registers.  Every call keeps the parts in step, and changes the
  nodes and the links in the way in which the call on a `Graph` does (`Represents`).  So all
  that can be asked has the same answer (`Represents.neighbors`, `Represents.edges`),
  whatever order the library lists its nodes and edges in.
-/
import Codegen.Graph.Indexed
import Codegen.Proofs.Graph.Edges
import Codegen.Proofs.Outcomes
import Mathlib

namespace Codegen

/-! ## The listed library -/

namespace Network.Listed

variable {i j k l : Nat}

theorem find?_put (vs : List Vertex) (v : Vertex) (i : Nat) : (put vs v).find? (·.id == i) =
    if i = v.id then some v else vs.find? (·.id == i) := by
  rw [put, List.find?_append, List.find?_filter]
  split
  · next h =>
    subst h
    have hnone : vs.find? (fun u => decide (decide (u.id ≠ v.id) = true ∧ (u.id == v.id) = true)) = none := by
      simp
    rw [hnone]
    simp
  · next h =>
    have hv : (v.id == i) = false := by simpa using Ne.symm h
    have hp : (fun u : Vertex => decide (decide (u.id ≠ v.id) = true ∧ (u.id == i) = true)) =
        fun u => u.id == i := by
      funext u
      by_cases hu : u.id = i
      · simp [hu, h]
      · simp [hu]
    rw [hp, List.find?_singleton, hv]
    simp

theorem pair_eq_pair : pair i j = pair k l ↔ i = k ∧ j = l ∨ i = l ∧ j = k := by
  simp only [pair, Prod.mk.injEq]
  omega

theorem pair_comm (i j : Nat) : pair i j = pair j i := pair_eq_pair.2 (Or.inr ⟨rfl, rfl⟩)

/-- An edge is listed from its lower end. -/
theorem pair_mem_pairs (x : Listed) : pair i j ∈ x.pairs ↔ (i, j) ∈ x.pairs ∨ (j, i) ∈ x.pairs := by
  have hlower : ∀ {i j}, (i, j) ∈ x.pairs → pair i j = (i, j) := by
    intro i j h
    have := x.ordered _ h
    simp only [pair, Prod.mk.injEq] at this ⊢
    omega
  constructor
  · intro h
    rcases Nat.le_total i j with hij | hij
    · exact Or.inl (by simpa only [pair, Nat.min_eq_left hij, Nat.max_eq_right hij] using h)
    · exact Or.inr (by simpa only [pair, Nat.min_eq_right hij, Nat.max_eq_left hij] using h)
  · rintro (h | h)
    · rw [hlower h]; exact h
    · rw [pair_comm, hlower h]; exact h

theorem find?_eq_some {x : Listed} {v : Vertex} : x.vertices.find? (·.id == v.id) = some v ↔ v ∈ x.vertices := by
  constructor
  · exact List.mem_of_find?_eq_some
  · intro hv
    obtain ⟨u, hu⟩ := Option.isSome_iff_exists.1
      (List.find?_isSome.2 ⟨v, hv, beq_self_eq_true v.id⟩ : (x.vertices.find? (·.id == v.id)).isSome)
    have hid : u.id = v.id := by simpa using List.find?_some hu
    rw [hu, List.inj_on_of_nodup_map x.ids (List.mem_of_find?_eq_some hu) hv hid]

/-- The nodes and the edges that are listed are a graph without self loops. -/
instance : LawfulNetwork Listed where
  node?_empty _ := rfl
  hasEdge_empty _ _ := rfl
  addNode x v hv := by
    have hnew : x.vertices.any (·.id == v.id) = false := by
      rw [List.any_eq_false]
      exact fun u hu => List.find?_eq_none.1 hv u hu
    refine ⟨_, if_neg (by rw [hnew]; exact Bool.false_ne_true), ?_, ?_⟩
    · exact find?_put x.vertices v
    · intro i j; rfl
  setEdge x v w hvw := by
    refine ⟨_, dif_neg hvw, ?_, ?_⟩
    · intro i
      exact (find?_put _ v i).trans (by rw [find?_put]; rfl)
    · intro i j
      show (pair v.id w.id :: x.pairs.erase (pair v.id w.id)).contains (pair i j) = true ↔
        x.pairs.contains (pair i j) = true ∨ _
      rw [List.contains_iff_mem, List.contains_iff_mem, List.mem_cons, pair_eq_pair, or_comm]
      by_cases h : pair i j = pair v.id w.id
      · have := pair_eq_pair.1 h
        tauto
      · rw [List.mem_erase_of_ne h]
  node?_removeEdge _ _ _ _ := rfl
  hasEdge_removeEdge x i j k l := by
    show (x.pairs.erase (pair i j)).contains (pair k l) = true ↔ x.pairs.contains (pair k l) = true ∧ _
    rw [List.contains_iff_mem, List.contains_iff_mem, x.once.mem_erase_iff, Ne, pair_eq_pair, not_or,
      and_comm]
  mem_adjacent x i v := by
    show v ∈ x.vertices.filter _ ↔ x.pairs.contains (pair i v.id) = true ∧ x.vertices.find? _ = some v
    rw [List.mem_filter, find?_eq_some, and_comm]
  nodup_adjacent x i := x.ids.sublist (List.filter_sublist.map _)
  mem_edges x i j := List.contains_iff_mem.trans x.pair_mem_pairs
  pairwise_edges x := by
    refine x.once.imp_of_mem ?_
    intro e e' he he' hne
    refine ⟨hne, ?_⟩
    rintro rfl
    have h := x.ordered _ he
    have h' := x.ordered _ he'
    simp only [Prod.fst_swap, Prod.snd_swap] at h
    omega

end Network.Listed

/-! ## The three parts -/

theorem getElem?_concat_eq_some {α : Type} {l : List α} {a b : α} {i : Nat} :
    (l ++ [a])[i]? = some b ↔ l[i]? = some b ∨ i = l.length ∧ a = b := by
  rcases Nat.lt_trichotomy i l.length with hi | rfl | hi
  · rw [List.getElem?_append_left hi]
    have : i ≠ l.length := by omega
    tauto
  · simp
  · rw [List.getElem?_eq_none (by simp; omega), List.getElem?_eq_none (by omega)]
    have : i ≠ l.length := by omega
    simp [this]

/-- A new entry is one more than there were. -/
theorem get?_set_eq_some {index : Bindings Register Nat} {r x : Register} {i n : Nat}
    (hr : index.get? r = none) :
    (index.set r n).get? x = some i ↔ index.get? x = some i ∨ i = n ∧ r = x := by
  by_cases hx : x = r
  · subst hx
    rw [Bindings.get?_set_self, hr]
    simp [eq_comm]
  · rw [Bindings.get?_set_ne _ _ hx]
    simp [Ne.symm hx]

namespace IndexedGraph

variable {γ : Type} [Network γ] {t : IndexedGraph γ} {g : Graph} {a b r : Register} {i j : Nat}

/-- The number of a register is its place in node order, and the library knows the numbers
    that are places, with their registers. -/
structure InStep (t : IndexedGraph γ) : Prop where
  index : ∀ r i, t.index.get? r = some i ↔ t.nodes[i]? = some r
  vertex : ∀ i, Network.node? t.net i = t.nodes[i]?.map (Vertex.mk i)
  known : ∀ i j, Network.hasEdge t.net i j = true → i < t.nodes.length ∧ j < t.nodes.length

theorem hasEdge_iff : t.hasEdge a b = true ↔ ∃ i j, t.index.get? a = some i ∧ t.index.get? b = some j ∧
    Network.hasEdge t.net i j = true := by
  unfold hasEdge
  cases t.index.get? a <;> cases t.index.get? b <;> simp

theorem hasEdge_of_index (ha : t.index.get? a = some i) (hb : t.index.get? b = some j) :
    t.hasEdge a b = Network.hasEdge t.net i j := by
  simp only [hasEdge, ha, hb]

omit [Network γ] in
theorem number_of_index (hr : t.index.get? r = some i) : t.number r = i := by rw [number, hr]; rfl

namespace InStep

theorem mem_nodes (h : t.InStep) : r ∈ t.nodes ↔ ∃ i, t.index.get? r = some i := by
  rw [List.mem_iff_getElem?]
  exact exists_congr fun i => (h.index r i).symm

theorem index_eq_none (h : t.InStep) : t.index.get? r = none ↔ r ∉ t.nodes := by
  rw [h.mem_nodes, Option.eq_none_iff_forall_not_mem, not_exists]
  rfl

/-- Different registers have different numbers. -/
theorem index_inj (h : t.InStep) (ha : t.index.get? a = some i) (hb : t.index.get? b = some i) : a = b := by
  rw [h.index] at ha hb
  exact Option.some.inj (ha.symm.trans hb)

theorem lt_length (h : t.InStep) (hr : t.index.get? r = some i) : i < t.nodes.length :=
  (List.getElem?_eq_some_iff.1 ((h.index r i).1 hr)).1

/-- A register that is not there has no edges. -/
theorem mem_of_hasEdge (h : t.InStep) (hab : t.hasEdge a b = true) : a ∈ t.nodes ∧ b ∈ t.nodes := by
  obtain ⟨i, j, ha, hb, -⟩ := hasEdge_iff.1 hab
  exact ⟨h.mem_nodes.2 ⟨i, ha⟩, h.mem_nodes.2 ⟨j, hb⟩⟩

theorem exists_node (h : t.InStep) (hi : i < t.nodes.length) : ∃ r, t.nodes[i]? = some r ∧
    t.index.get? r = some i ∧ Network.node? t.net i = some ⟨i, r⟩ := by
  refine ⟨t.nodes[i], List.getElem?_eq_getElem hi, ?_, ?_⟩
  · exact (h.index _ i).2 (List.getElem?_eq_getElem hi)
  · rw [h.vertex, List.getElem?_eq_getElem hi]
    rfl

theorem node?_of_index (h : t.InStep) (hr : t.index.get? r = some i) :
    Network.node? t.net i = some ⟨i, r⟩ := by
  rw [h.vertex, (h.index r i).1 hr]
  rfl

end InStep

section
variable [LawfulNetwork γ]

theorem inStep_empty : (empty : IndexedGraph γ).InStep where
  index r i := by simp [empty]
  vertex i := by simp [empty, LawfulNetwork.node?_empty]
  known i j h := by simp [empty, LawfulNetwork.hasEdge_empty] at h

/-- A register that is not there gets the next number. -/
theorem InStep.addNode (h : t.InStep) (r : Register) : ∃ t', t.addNode r = some t' ∧ t'.InStep ∧
    t'.nodes = (if r ∈ t.nodes then t.nodes else t.nodes ++ [r]) ∧
    ∀ a b, t'.hasEdge a b = t.hasEdge a b := by
  cases hr : t.index.get? r with
  | some i =>
    refine ⟨t, by simp only [IndexedGraph.addNode, hr], h, ?_, fun _ _ => rfl⟩
    rw [if_pos (h.mem_nodes.2 ⟨i, hr⟩)]
  | none =>
    have hnew : r ∉ t.nodes := h.index_eq_none.1 hr
    have hfree : Network.node? t.net t.nodes.length = none := by
      rw [h.vertex, List.getElem?_eq_none (Nat.le_refl _)]
      rfl
    obtain ⟨net, hnet, hnode, hedge⟩ := LawfulNetwork.addNode t.net ⟨t.nodes.length, r⟩ hfree
    refine ⟨⟨net, t.nodes ++ [r], t.index.set r t.nodes.length⟩, ?_, ⟨?_, ?_, ?_⟩, ?_, ?_⟩
    · simp only [IndexedGraph.addNode, hr, hnet]
      rfl
    · intro x i
      rw [get?_set_eq_some hr, h.index, getElem?_concat_eq_some]
    · intro i
      rw [hnode, h.vertex, List.getElem?_append]
      rcases Nat.lt_trichotomy i t.nodes.length with hi | rfl | hi
      · rw [if_neg (Nat.ne_of_lt hi), if_pos hi]
      · simp
      · rw [if_neg (Nat.ne_of_gt hi), if_neg (by omega), List.getElem?_eq_none (Nat.le_of_lt hi),
          List.getElem?_eq_none (by simp; omega)]
    · intro i j hij
      rw [hedge] at hij
      have := h.known i j hij
      simp only [List.length_append, List.length_singleton]
      omega
    · rw [if_neg hnew]
    · intro a b
      rw [Bool.eq_iff_iff, hasEdge_iff, hasEdge_iff]
      constructor
      · -- the new number has no edges
        rintro ⟨i, j, ha, hb, hij⟩
        rw [hedge] at hij
        have hlt := h.known i j hij
        refine ⟨i, j, ?_, ?_, hij⟩
        · exact ((get?_set_eq_some hr).1 ha).resolve_right fun e => by omega
        · exact ((get?_set_eq_some hr).1 hb).resolve_right fun e => by omega
      · rintro ⟨i, j, ha, hb, hij⟩
        exact ⟨i, j, (get?_set_eq_some hr).2 (Or.inl ha), (get?_set_eq_some hr).2 (Or.inl hb),
          (hedge i j).trans hij⟩

/-- An edge between the numbers of two registers links the two, and no others. -/
theorem InStep.connect (h : t.InStep) (ha : t.index.get? a = some i) (hb : t.index.get? b = some j)
    (hab : a ≠ b) : ∃ t', t.connect i j = some t' ∧ t'.InStep ∧ t'.nodes = t.nodes ∧
      ∀ x y, t'.hasEdge x y = true ↔ t.hasEdge x y = true ∨ x = a ∧ y = b ∨ x = b ∧ y = a := by
  have hij : i ≠ j := by
    rintro rfl
    exact hab (h.index_inj ha hb)
  obtain ⟨net, hnet, hnode, hedge⟩ := LawfulNetwork.setEdge t.net ⟨i, a⟩ ⟨j, b⟩ hij
  have hi := h.node?_of_index ha
  have hj := h.node?_of_index hb
  refine ⟨{ t with net }, ?_, ⟨h.index, ?_, ?_⟩, rfl, ?_⟩
  · simp only [IndexedGraph.connect, hi, hj, hnet, Option.bind_eq_bind, Option.bind_some]
    rfl
  · intro k
    rw [hnode, ← h.vertex]
    split
    · next hk => rw [hk, hi]
    · split
      · next hk => rw [hk, hj]
      · rfl
  · intro k l hkl
    rcases (hedge k l).1 hkl with hkl | ⟨rfl, rfl⟩ | ⟨rfl, rfl⟩
    · exact h.known k l hkl
    · exact ⟨h.lt_length ha, h.lt_length hb⟩
    · exact ⟨h.lt_length hb, h.lt_length ha⟩
  · intro x y
    constructor
    · intro hxy
      obtain ⟨k, l, hx, hy, hkl⟩ := hasEdge_iff.1 hxy
      rcases (hedge k l).1 hkl with hkl | ⟨rfl, rfl⟩ | ⟨rfl, rfl⟩
      · exact Or.inl (hasEdge_iff.2 ⟨k, l, hx, hy, hkl⟩)
      · exact Or.inr (Or.inl ⟨h.index_inj hx ha, h.index_inj hy hb⟩)
      · exact Or.inr (Or.inr ⟨h.index_inj hx hb, h.index_inj hy ha⟩)
    · rintro (hxy | ⟨rfl, rfl⟩ | ⟨rfl, rfl⟩)
      · obtain ⟨k, l, hx, hy, hkl⟩ := hasEdge_iff.1 hxy
        exact hasEdge_iff.2 ⟨k, l, hx, hy, (hedge k l).2 (Or.inl hkl)⟩
      · exact hasEdge_iff.2 ⟨i, j, ha, hb, (hedge i j).2 (Or.inr (Or.inl ⟨rfl, rfl⟩))⟩
      · exact hasEdge_iff.2 ⟨j, i, hb, ha, (hedge j i).2 (Or.inr (Or.inr ⟨rfl, rfl⟩))⟩

/-- A removed edge links its ends no longer. -/
theorem InStep.removeEdge (h : t.InStep) (a b : Register) : (t.removeEdge a b).InStep ∧
    (t.removeEdge a b).nodes = t.nodes ∧ ∀ x y, (t.removeEdge a b).hasEdge x y = true ↔
      t.hasEdge x y = true ∧ ¬(x = a ∧ y = b) ∧ ¬(x = b ∧ y = a) := by
  by_cases hab : a ∈ t.nodes ∧ b ∈ t.nodes
  · obtain ⟨i, hi⟩ := h.mem_nodes.1 hab.1
    obtain ⟨j, hj⟩ := h.mem_nodes.1 hab.2
    have e : t.removeEdge a b = { t with net := Network.removeEdge t.net i j } := by
      simp only [IndexedGraph.removeEdge, hi, hj]
    rw [e]
    refine ⟨⟨h.index, ?_, ?_⟩, rfl, ?_⟩
    · intro k
      rw [LawfulNetwork.node?_removeEdge]
      exact h.vertex k
    · intro k l hkl
      exact h.known k l ((LawfulNetwork.hasEdge_removeEdge _ _ _ _ _).1 hkl).1
    · intro x y
      rw [hasEdge_iff, hasEdge_iff]
      constructor
      · rintro ⟨k, l, hx, hy, hkl⟩
        obtain ⟨hkl, h₁, h₂⟩ := (LawfulNetwork.hasEdge_removeEdge _ _ _ _ _).1 hkl
        refine ⟨⟨k, l, hx, hy, hkl⟩, ?_, ?_⟩
        · rintro ⟨rfl, rfl⟩
          exact h₁ ⟨Option.some.inj (hx.symm.trans hi), Option.some.inj (hy.symm.trans hj)⟩
        · rintro ⟨rfl, rfl⟩
          exact h₂ ⟨Option.some.inj (hx.symm.trans hj), Option.some.inj (hy.symm.trans hi)⟩
      · rintro ⟨⟨k, l, hx, hy, hkl⟩, h₁, h₂⟩
        refine ⟨k, l, hx, hy, (LawfulNetwork.hasEdge_removeEdge _ _ _ _ _).2 ⟨hkl, ?_, ?_⟩⟩
        · rintro ⟨rfl, rfl⟩
          exact h₁ ⟨h.index_inj hx hi, h.index_inj hy hj⟩
        · rintro ⟨rfl, rfl⟩
          exact h₂ ⟨h.index_inj hx hj, h.index_inj hy hi⟩
  · have e : t.removeEdge a b = t := by
      unfold IndexedGraph.removeEdge
      split
      · next i j hi hj => exact absurd ⟨h.mem_nodes.2 ⟨i, hi⟩, h.mem_nodes.2 ⟨j, hj⟩⟩ hab
      · rfl
    rw [e]
    refine ⟨h, rfl, fun x y => (and_iff_left_of_imp fun hxy => ⟨?_, ?_⟩).symm⟩
    · rintro ⟨rfl, rfl⟩
      exact hab (h.mem_of_hasEdge hxy)
    · rintro ⟨rfl, rfl⟩
      exact hab (h.mem_of_hasEdge hxy).symm

end

/-! ## The graph of the registers -/

/-- The parts are in step, and the nodes and the links are those of the graph. -/
structure Represents (t : IndexedGraph γ) (g : Graph) : Prop extends t.InStep where
  nodes : t.nodes = g.nodes
  linked : ∀ a b, t.hasEdge a b = g.linked a b

namespace Represents

section
variable [LawfulNetwork γ]

theorem empty : (IndexedGraph.empty : IndexedGraph γ).Represents {} where
  toInStep := inStep_empty
  nodes := rfl
  linked _ _ := rfl

theorem addNode (h : t.Represents g) (r : Register) :
    ∃ t', t.addNode r = some t' ∧ t'.Represents (g.addNode r) := by
  obtain ⟨t', ht', hstep, hnodes, hedge⟩ := h.toInStep.addNode r
  refine ⟨t', ht', hstep, ?_, ?_⟩
  · rw [hnodes, h.nodes, Graph.nodes_addNode]
  · intro a b
    rw [hedge, h.linked, Graph.linked_addNode]

theorem addEdge (h : t.Represents g) (a b : Register) :
    ∃ t', t.addEdge a b = some t' ∧ t'.Represents (g.addEdge a b) := by
  obtain ⟨t₁, ht₁, h₁⟩ := h.addNode a
  obtain ⟨t₂, ht₂, h₂⟩ := h₁.addNode b
  have hlinked : ∀ x y, g.linked x y = t₂.hasEdge x y := by
    intro x y
    rw [h₂.linked, Graph.linked_addNode, Graph.linked_addNode]
  by_cases hab : a = b
  · subst hab
    refine ⟨t₂, by simp [IndexedGraph.addEdge, ht₁, ht₂], h₂.toInStep, ?_, ?_⟩
    · rw [h₂.nodes, Graph.nodes_addEdge]
    · intro x y
      rw [Bool.eq_iff_iff, Graph.linked_addEdge, hlinked]
      refine (or_iff_left ?_).symm
      rintro ⟨hne, ⟨rfl, rfl⟩ | ⟨rfl, rfl⟩⟩ <;> exact hne rfl
  · obtain ⟨i, hi⟩ := h₂.mem_nodes.1 (by rw [h₂.nodes]; simp [Graph.mem_nodes_addNode] : a ∈ t₂.nodes)
    obtain ⟨j, hj⟩ := h₂.mem_nodes.1 (by rw [h₂.nodes]; simp [Graph.mem_nodes_addNode] : b ∈ t₂.nodes)
    obtain ⟨t', ht', hstep, hnodes, hedge⟩ := h₂.toInStep.connect hi hj hab
    refine ⟨t', ?_, hstep, ?_, ?_⟩
    · simp [IndexedGraph.addEdge, ht₁, ht₂, hab, number_of_index hi, number_of_index hj, ht']
    · rw [hnodes, h₂.nodes, Graph.nodes_addEdge]
    · intro x y
      rw [Bool.eq_iff_iff, hedge, Graph.linked_addEdge, hlinked]
      refine or_congr_right (and_iff_right_of_imp ?_).symm
      rintro (⟨rfl, rfl⟩ | ⟨rfl, rfl⟩)
      · exact hab
      · exact Ne.symm hab

theorem removeEdge (h : t.Represents g) (a b : Register) :
    (t.removeEdge a b).Represents (g.removeEdge a b) := by
  obtain ⟨hstep, hnodes, hedge⟩ := h.toInStep.removeEdge a b
  refine ⟨hstep, ?_, ?_⟩
  · rw [hnodes, h.nodes, Graph.nodes_removeEdge]
  · intro x y
    rw [Bool.eq_iff_iff, hedge, Graph.linked_removeEdge, h.linked]

end

/-! ## Answers -/

theorem hasNode (h : t.Represents g) (r : Register) : t.hasNode r = g.hasNode r := by
  rw [Bool.eq_iff_iff, Graph.hasNode_iff, ← h.nodes, h.mem_nodes]
  exact Option.isSome_iff_exists

theorem size (h : t.Represents g) : t.size = g.size := by
  rw [IndexedGraph.size, h.nodes, Graph.nodes, Links.nodes, List.length_map]
  rfl

/-- The numbers that have an edge with the number of a register, from the lowest up. -/
def numbers (t : IndexedGraph γ) (i : Nat) : List Nat :=
  (List.range t.nodes.length).filter (Network.hasEdge t.net i)

/-- What stands at the places of a list that are singled out. -/
theorem mapM_getElem?_filter {l : List Register} {p : Nat → Bool} {q : Register → Bool}
    (h : ∀ i r, l[i]? = some r → p i = q r) :
    ((List.range l.length).filter p).mapM (fun i => l[i]?) = some (l.filter q) := by
  -- by induction on how far into the list the places go
  have key : ∀ n ≤ l.length,
      ((List.range n).filter p).mapM (fun i => l[i]?) = some ((l.take n).filter q) := by
    intro n
    induction n with
    | zero => intro _; rfl
    | succ n ih =>
      intro hn
      have hget : l[n]? = some l[n] := List.getElem?_eq_getElem hn
      have hp := h n _ hget
      rw [List.range_succ, List.filter_append, List.mapM_append, ih (by omega), List.take_add_one, hget,
        List.filter_append]
      cases hq : q l[n] <;> simp [hp, hq, hget]
  rw [key l.length (Nat.le_refl _), List.take_length]

/-- The registers at the numbers that have an edge are the neighbors, in node order. -/
theorem mapM_numbers (h : t.Represents g) (ha : t.index.get? a = some i) :
    (numbers t i).mapM (fun k => t.nodes[k]?) = some (g.neighbors a) := by
  rw [numbers, mapM_getElem?_filter (q := fun b => g.linked a b), h.nodes]
  · rfl
  · intro k b hb
    rw [← h.linked, hasEdge_of_index ha ((h.index b k).2 hb)]

theorem number_inj (h : t.Represents g) (ha : a ∈ g.nodes) (hb : b ∈ g.nodes)
    (hab : t.number a = t.number b) : a = b := by
  rw [← h.nodes, h.mem_nodes] at ha hb
  obtain ⟨i, hi⟩ := ha
  obtain ⟨j, hj⟩ := hb
  rw [number_of_index hi, number_of_index hj] at hab
  subst hab
  exact h.index_inj hi hj

/-- Pairs by what a function makes of their two ends, in either order. -/
def ends {α β : Type} (f : α → β) (l : List (α × α)) : List (Sym2 β) := l.map fun e => s(f e.1, f e.2)

theorem nodup_ends {α β : Type} {l : List (α × α)} {f : α → β} {S : α → Prop}
    (hl : l.Pairwise fun e e' => e ≠ e' ∧ e ≠ e'.swap) (hS : ∀ e ∈ l, S e.1 ∧ S e.2)
    (hf : ∀ {a b}, S a → S b → f a = f b → a = b) : (ends f l).Nodup := by
  rw [ends, List.Nodup, List.pairwise_map]
  refine hl.imp_of_mem ?_
  rintro e e' he he' ⟨hne, hswap⟩ heq
  rcases Sym2.eq_iff.1 heq with ⟨h₁, h₂⟩ | ⟨h₁, h₂⟩
  · exact hne (Prod.ext (hf (hS e he).1 (hS e' he').1 h₁) (hf (hS e he).2 (hS e' he').2 h₂))
  · exact hswap (Prod.ext (hf (hS e he).1 (hS e' he').2 h₁) (hf (hS e he).2 (hS e' he').1 h₂))

theorem mem_ends {α β : Type} {l : List (α × α)} {f : α → β} {i j : β} :
    s(i, j) ∈ ends f l ↔ ∃ a b, ((a, b) ∈ l ∨ (b, a) ∈ l) ∧ f a = i ∧ f b = j := by
  rw [ends, List.mem_map]
  constructor
  · rintro ⟨⟨a, b⟩, he, heq⟩
    rcases Sym2.eq_iff.1 heq with ⟨h₁, h₂⟩ | ⟨h₁, h₂⟩
    · exact ⟨a, b, Or.inl he, h₁, h₂⟩
    · exact ⟨b, a, Or.inr he, h₂, h₁⟩
  · rintro ⟨a, b, he | he, rfl, rfl⟩
    · exact ⟨(a, b), he, rfl⟩
    · exact ⟨(b, a), he, Sym2.eq_swap⟩

section
variable [LawfulNetwork γ]

theorem perm_numbers (h : t.InStep) (i : Nat) :
    ((Network.adjacent t.net i).map Vertex.id).Perm (numbers t i) := by
  rw [numbers]
  refine (List.perm_ext_iff_of_nodup (LawfulNetwork.nodup_adjacent _ _)
    (List.nodup_range.filter _)).2 fun k => ?_
  rw [List.mem_filter, List.mem_range, List.mem_map]
  constructor
  · rintro ⟨v, hv, rfl⟩
    have hedge := ((LawfulNetwork.mem_adjacent _ _ _).1 hv).1
    exact ⟨(h.known i v.id hedge).2, hedge⟩
  · rintro ⟨hk, hedge⟩
    obtain ⟨r, -, -, hr⟩ := h.exists_node hk
    exact ⟨⟨k, r⟩, (LawfulNetwork.mem_adjacent _ _ _).2 ⟨hedge, hr⟩, rfl⟩

/-- Sorting by number makes the order of the library's list unimportant. -/
theorem mergeSort_adjacent (h : t.InStep) (i : Nat) :
    ((Network.adjacent t.net i).map Vertex.id).mergeSort = numbers t i := by
  refine List.Perm.eq_of_pairwise (fun a b _ _ => Nat.le_antisymm) ?_ ?_
    ((List.mergeSort_perm _ _).trans (perm_numbers h i))
  · refine (List.pairwise_mergeSort ?_ ?_ _).imp of_decide_eq_true
    · intro a b c hab hbc
      simp only [decide_eq_true_eq] at hab hbc ⊢
      omega
    · intro a b
      simp only [Bool.or_eq_true, decide_eq_true_eq]
      omega
  · exact (List.pairwise_lt_range.filter _).imp Nat.le_of_lt

theorem neighbors (h : t.Represents g) (a : Register) : t.neighbors a = some (g.neighbors a) := by
  cases ha : t.index.get? a with
  | none =>
    have hnone : g.neighbors a = [] := by
      rw [List.eq_nil_iff_forall_not_mem]
      intro b hb
      refine h.index_eq_none.1 ha ?_
      rw [h.nodes]
      exact (Graph.mem_nodes_of_linked (Graph.mem_neighbors.1 hb)).1
    simp only [IndexedGraph.neighbors, ha, hnone]
  | some i =>
    simp only [IndexedGraph.neighbors, ha]
    rw [mergeSort_adjacent h.toInStep]
    exact h.mapM_numbers ha

theorem degree (h : t.Represents g) (a : Register) : t.degree a = g.degree a := by
  rw [Graph.degree_eq_length_neighbors]
  cases ha : t.index.get? a with
  | none =>
    have hneighbors := h.neighbors a
    simp only [IndexedGraph.neighbors, ha] at hneighbors
    rw [← Option.some.inj hneighbors]
    simp only [IndexedGraph.degree, ha, List.length_nil]
  | some i =>
    calc t.degree a
      _ = ((Network.adjacent t.net i).map Vertex.id).length := by
        simp only [IndexedGraph.degree, ha, List.length_map]
      _ = (numbers t i).length := (perm_numbers h.toInStep i).length_eq
      _ = (g.neighbors a).length := (Option.mapM_eq_some (h.mapM_numbers ha)).length_eq

/-- The edges of the library are those of the graph, by the numbers of their ends. -/
theorem perm_edges (h : t.Represents g) :
    (ends id (Network.edges t.net)).Perm (ends t.number g.edgeList) := by
  have hends : ∀ e ∈ g.edgeList, e.1 ∈ g.nodes ∧ e.2 ∈ g.nodes :=
    fun e he => Graph.mem_nodes_of_linked (Graph.linked_of_mem_edgeList he)
  refine (List.perm_ext_iff_of_nodup ?_ ?_).2 ?_
  · exact nodup_ends (S := fun _ => True) (LawfulNetwork.pairwise_edges t.net)
      (fun _ _ => ⟨trivial, trivial⟩) fun _ _ e => e
  · exact nodup_ends g.pairwise_edgeList hends h.number_inj
  · refine Sym2.ind fun i j => ?_
    rw [mem_ends, mem_ends]
    simp only [← LawfulNetwork.mem_edges, ← Graph.linked_iff_mem_edgeList, ← h.linked]
    constructor
    · rintro ⟨_, _, hij, rfl, rfl⟩
      obtain ⟨hi, hj⟩ := h.known _ _ hij
      obtain ⟨a, -, ha, -⟩ := h.exists_node hi
      obtain ⟨b, -, hb, -⟩ := h.exists_node hj
      refine ⟨a, b, ?_, number_of_index ha, number_of_index hb⟩
      rw [hasEdge_of_index ha hb]
      exact hij
    · rintro ⟨a, b, hab, rfl, rfl⟩
      obtain ⟨i, j, ha, hb, hij⟩ := hasEdge_iff.1 hab
      rw [number_of_index ha, number_of_index hb]
      exact ⟨i, j, hij, rfl, rfl⟩

theorem edges (h : t.Represents g) : t.edges = g.edges := by
  have hlength := h.perm_edges.length_eq
  rw [ends, ends, List.length_map, List.length_map] at hlength
  rw [Graph.edges_eq_length_edgeList, IndexedGraph.edges, hlength]

end

end Represents

end IndexedGraph

end Codegen
