/-
  Undirected graphs over registers.

  A graph lists its nodes in the order in which they were first added, each
  with the nodes it is linked to.  Links go both ways, each is listed once, and
  there are no self loops: a `Graph` carries the proof of this.

  * `linked a b`: is there an edge between `a` and `b`?
  * `neighbors a`: the nodes linked to `a`, in node order.

  `Graph.nodes` and `Graph.linked` are the view of a graph: what each operation
  does to it is said beside the operation.
-/
import Codegen.Register

namespace Codegen

/-- Nodes in order of first appearance, each with its links in order of
    appearance. -/
abbrev Links := List (Register × List Register)

namespace Links

variable {es : Links} {a b r : Register}

/-- The nodes. -/
def nodes (es : Links) : List Register := es.map (·.1)

/-- The links of a node. -/
def of (es : Links) (r : Register) : List Register := (es.lookup r).getD []

/-- The links of every node changed, given the node and its links. -/
def change (es : Links) (f : Register → List Register → List Register) : Links :=
  es.map fun (a, ls) => (a, f a ls)

@[simp] theorem nodes_change (es : Links) (f : Register → List Register → List Register) :
    (es.change f).nodes = es.nodes := by
  simp [nodes, change]

theorem lookup_eq_none (h : r ∉ es.nodes) : es.lookup r = none := by
  induction es with
  | nil => rfl
  | cons e es ih =>
    obtain ⟨x, ls⟩ := e
    simp only [nodes, List.map_cons, List.mem_cons, not_or] at h
    have hx : (r == x) = false := by simpa using h.1
    rw [List.lookup_cons, hx]
    exact ih h.2

theorem of_eq_nil (h : r ∉ es.nodes) : es.of r = [] := by rw [of, lookup_eq_none h]; rfl

theorem mem_nodes_of_mem (h : b ∈ es.of a) : a ∈ es.nodes := by
  by_cases ha : a ∈ es.nodes
  · exact ha
  · rw [of_eq_nil ha] at h; cases h

/-- What the links of a node become. -/
theorem of_change (f : Register → List Register → List Register) (h : r ∈ es.nodes) :
    (es.change f).of r = f r (es.of r) := by
  induction es with
  | nil => cases h
  | cons e es ih =>
    obtain ⟨x, ls⟩ := e
    by_cases hx : r = x
    · subst hx; simp [of, change]
    · have hx' : (r == x) = false := by simpa using hx
      have hr : r ∈ nodes es := by
        simp only [nodes, List.map_cons, List.mem_cons, hx, false_or] at h; exact h
      have := ih hr
      simp only [of, change, List.map_cons, List.lookup_cons, hx'] at this ⊢
      exact this

/-- A new node has no links and changes no others. -/
theorem of_append (h : a ∉ es.nodes) (r : Register) : of (es ++ [(a, [])]) r = es.of r := by
  by_cases hr : r ∈ es.nodes
  · induction es with
    | nil => cases hr
    | cons e es ih =>
      obtain ⟨x, ls⟩ := e
      simp only [nodes, List.map_cons, List.mem_cons, not_or] at h hr
      by_cases hx : r = x
      · subst hx; simp [of]
      · have hx' : (r == x) = false := by simpa using hx
        have := ih h.2 (hr.resolve_left hx)
        simp only [of, List.cons_append, List.lookup_cons, hx'] at this ⊢
        exact this
  · rw [of_eq_nil hr]
    by_cases ha : r = a
    · subst ha
      rw [of, List.lookup_append, lookup_eq_none hr]
      simp
    · refine of_eq_nil ?_
      simpa [nodes, ha] using hr

/-- Links go both ways, each is listed once, and no node is linked to itself. -/
structure WellFormed (es : Links) : Prop where
  nodup : es.nodes.Nodup
  symm : ∀ {a b : Register}, b ∈ es.of a → a ∈ es.of b
  irrefl : ∀ a : Register, a ∉ es.of a
  simple : ∀ a : Register, (es.of a).Nodup

namespace WellFormed

theorem nil : WellFormed [] := ⟨by simp [nodes], by simp [of], by simp [of], by simp [of]⟩

theorem mem_nodes (h : es.WellFormed) (hb : b ∈ es.of a) : b ∈ es.nodes :=
  mem_nodes_of_mem (h.symm hb)

theorem append (h : es.WellFormed) (ha : a ∉ es.nodes) : WellFormed (es ++ [(a, [])]) where
  nodup := by
    have : nodes (es ++ [(a, [])]) = es.nodes ++ [a] := by simp [nodes]
    rw [this, List.nodup_append]
    refine ⟨h.nodup, by simp, fun x hx y hy e => ?_⟩
    rw [List.mem_singleton] at hy
    exact ha (hy ▸ e ▸ hx)
  symm hb := by rw [of_append ha] at hb ⊢; exact h.symm hb
  irrefl x := by rw [of_append ha]; exact h.irrefl x
  simple x := by rw [of_append ha]; exact h.simple x

end WellFormed

/-- The links with some between `a` and the nodes listed. -/
def connect (es : Links) (a : Register) (fresh : List Register) : Links :=
  es.change fun x ls => if x = a then ls ++ fresh else if x ∈ fresh then ls ++ [a] else ls

/-- The links without those between `a` and `b`. -/
def cut (es : Links) (a b : Register) : Links :=
  es.change fun x ls => if x = a then ls.erase b else if x = b then ls.erase a else ls

theorem mem_of_connect {fresh : List Register} {x y : Register} (hx : x ∈ es.nodes) :
    y ∈ (es.connect a fresh).of x ↔
      y ∈ es.of x ∨ (x = a ∧ y ∈ fresh) ∨ (x ≠ a ∧ x ∈ fresh ∧ y = a) := by
  rw [connect, of_change _ hx]
  by_cases hxa : x = a
  · simp [hxa]
  · by_cases hxf : x ∈ fresh <;> simp [hxa, hxf]

theorem mem_of_cut {x y : Register} (h : es.WellFormed) (hx : x ∈ es.nodes) :
    y ∈ (es.cut a b).of x ↔ y ∈ es.of x ∧ ¬(x = a ∧ y = b) ∧ ¬(x = b ∧ y = a) := by
  rw [cut, of_change _ hx]
  by_cases hxa : x = a
  · subst hxa
    rw [if_pos rfl, (h.simple x).mem_erase_iff]
    constructor
    · rintro ⟨hy, hm⟩
      exact ⟨hm, fun e => hy e.2, fun e => h.irrefl x (e.2 ▸ hm)⟩
    · rintro ⟨hm, hy, -⟩
      exact ⟨fun e => hy ⟨rfl, e⟩, hm⟩
  · by_cases hxb : x = b
    · subst hxb
      rw [if_neg hxa, if_pos rfl, (h.simple x).mem_erase_iff]
      simp [hxa, and_comm]
    · simp [hxa, hxb]

namespace WellFormed

theorem connect {fresh : List Register} (h : es.WellFormed) (ha : a ∈ es.nodes)
    (hf : ∀ x ∈ fresh, x ∈ es.nodes ∧ x ≠ a ∧ x ∉ es.of a) (hn : fresh.Nodup) :
    (es.connect a fresh).WellFormed where
  nodup := by rw [Links.connect, nodes_change]; exact h.nodup
  symm {x y} hy := by
    have hx : x ∈ es.nodes := by simpa [Links.connect] using mem_nodes_of_mem hy
    rcases (mem_of_connect hx).1 hy with hm | ⟨rfl, hm⟩ | ⟨-, hxf, rfl⟩
    · exact (mem_of_connect (h.mem_nodes hm)).2 (Or.inl (h.symm hm))
    · exact (mem_of_connect (hf y hm).1).2 (Or.inr (Or.inr ⟨(hf y hm).2.1, hm, rfl⟩))
    · exact (mem_of_connect ha).2 (Or.inr (Or.inl ⟨rfl, hxf⟩))
  irrefl x hx := by
    have hn : x ∈ es.nodes := by simpa [Links.connect] using mem_nodes_of_mem hx
    rcases (mem_of_connect hn).1 hx with hm | ⟨rfl, hm⟩ | ⟨hxa, -, rfl⟩
    · exact h.irrefl x hm
    · exact (hf x hm).2.1 rfl
    · exact hxa rfl
  simple x := by
    by_cases hx : x ∈ es.nodes
    · rw [Links.connect, of_change _ hx]
      by_cases hxa : x = a
      · subst hxa
        rw [if_pos rfl, List.nodup_append]
        exact ⟨h.simple x, hn, fun y hy z hz e => (hf z hz).2.2 (e ▸ hy)⟩
      · by_cases hxf : x ∈ fresh
        · rw [if_neg hxa, if_pos hxf, List.nodup_append]
          refine ⟨h.simple x, by simp, fun y hy z hz e => (hf x hxf).2.2 ?_⟩
          rw [List.mem_singleton] at hz
          exact h.symm (hz ▸ e ▸ hy)
        · rw [if_neg hxa, if_neg hxf]; exact h.simple x
    · rw [of_eq_nil (by simpa [Links.connect] using hx)]; exact List.nodup_nil

theorem cut (h : es.WellFormed) (a b : Register) : (es.cut a b).WellFormed where
  nodup := by rw [Links.cut, nodes_change]; exact h.nodup
  symm {x y} hy := by
    have hx : x ∈ es.nodes := by simpa [Links.cut] using mem_nodes_of_mem hy
    obtain ⟨hy, h₁, h₂⟩ := (mem_of_cut h hx).1 hy
    exact (mem_of_cut h (h.mem_nodes hy)).2
      ⟨h.symm hy, fun e => h₂ ⟨e.2, e.1⟩, fun e => h₁ ⟨e.2, e.1⟩⟩
  irrefl x hx := by
    have hn : x ∈ es.nodes := by simpa [Links.cut] using mem_nodes_of_mem hx
    exact h.irrefl x ((mem_of_cut h hn).1 hx).1
  simple x := by
    by_cases hx : x ∈ es.nodes
    · rw [Links.cut, of_change _ hx]
      split
      · exact (h.simple x).erase b
      · split
        · exact (h.simple x).erase a
        · exact h.simple x
    · rw [of_eq_nil (by simpa [Links.cut] using hx)]; exact List.nodup_nil

end WellFormed

end Links

/-- An undirected graph over registers without self loops. -/
structure Graph where
  /-- The nodes in order of first appearance, each with its links. -/
  entries : Links := []
  /-- Links go both ways, each is listed once, and no node is linked to itself. -/
  wellFormed : entries.WellFormed := by exact Links.WellFormed.nil
  deriving DecidableEq, Repr

namespace Graph

/-- The nodes in order of first appearance. -/
def nodes (g : Graph) : List Register := g.entries.nodes

/-- The number of nodes. -/
def size (g : Graph) : Nat := g.entries.length

/-- Is the register a node? -/
def hasNode (g : Graph) (r : Register) : Bool := g.entries.any fun e => e.1 == r

/-- The nodes linked to a node, in order of appearance of the links. -/
def links (g : Graph) (r : Register) : List Register := g.entries.of r

/-- Is there an edge between two registers? -/
def linked (g : Graph) (a b : Register) : Bool := (g.links a).contains b

variable {g : Graph} {a b r : Register}

theorem nodup_nodes (g : Graph) : g.nodes.Nodup := g.wellFormed.nodup

@[simp] theorem hasNode_iff : g.hasNode r = true ↔ r ∈ g.nodes := by
  simp [hasNode, nodes, Links.nodes]

theorem linked_iff : g.linked a b = true ↔ b ∈ g.links a := by simp [linked]

theorem linked_symm (h : g.linked a b = true) : g.linked b a = true :=
  linked_iff.2 (g.wellFormed.symm (linked_iff.1 h))

@[simp] theorem linked_self (g : Graph) (a : Register) : g.linked a a = false := by
  rw [← Bool.not_eq_true, linked_iff]; exact g.wellFormed.irrefl a

theorem mem_nodes_of_linked (h : g.linked a b = true) : a ∈ g.nodes ∧ b ∈ g.nodes :=
  ⟨Links.mem_nodes_of_mem (linked_iff.1 h), g.wellFormed.mem_nodes (linked_iff.1 h)⟩

/-! ## Nodes and edges -/

/-- The graph with a node added, if it is not there yet. -/
def addNode (g : Graph) (r : Register) : Graph :=
  if h : g.hasNode r = true then g
  else ⟨g.entries ++ [(r, [])], g.wellFormed.append fun hr => h (hasNode_iff.2 hr)⟩

theorem nodes_addNode (g : Graph) (r : Register) :
    (g.addNode r).nodes = if r ∈ g.nodes then g.nodes else g.nodes ++ [r] := by
  unfold addNode
  split <;> rename_i h
  · rw [if_pos (hasNode_iff.1 h)]
  · rw [if_neg fun hr => h (hasNode_iff.2 hr)]
    simp [nodes, Links.nodes]

theorem mem_nodes_addNode {x : Register} : x ∈ (g.addNode r).nodes ↔ x ∈ g.nodes ∨ x = r := by
  rw [nodes_addNode]
  split <;> rename_i h
  · constructor
    · exact Or.inl
    · rintro (hx | rfl)
      · exact hx
      · exact h
  · simp

@[simp] theorem linked_addNode (g : Graph) (r a b : Register) :
    (g.addNode r).linked a b = g.linked a b := by
  unfold addNode
  split <;> rename_i h
  · rfl
  · simp only [linked, links]
    rw [Links.of_append fun hr => h (hasNode_iff.2 hr)]

/-- The listed nodes that are not linked to `a` yet. -/
def unlinked (g : Graph) (a : Register) (others : List Register) : List Register :=
  g.nodes.filter fun b => b ≠ a && others.contains b && !g.linked a b

theorem mem_unlinked {others : List Register} {x : Register} :
    x ∈ g.unlinked a others ↔ x ∈ g.nodes ∧ x ≠ a ∧ x ∈ others ∧ x ∉ g.links a := by
  simp [unlinked, linked, and_assoc]

/-- The graph with edges between a node and others of its nodes. -/
def connect (g : Graph) (a : Register) (others : List Register) : Graph :=
  if h : g.hasNode a = true then
    ⟨g.entries.connect a (g.unlinked a others),
      g.wellFormed.connect (hasNode_iff.1 h)
        (fun _ hx => ⟨(mem_unlinked.1 hx).1, (mem_unlinked.1 hx).2.1, (mem_unlinked.1 hx).2.2.2⟩)
        (g.nodup_nodes.filter _)⟩
  else g

@[simp] theorem nodes_connect (g : Graph) (a : Register) (others : List Register) :
    (g.connect a others).nodes = g.nodes := by
  unfold connect
  split
  · simp [nodes, Links.connect]
  · rfl

theorem linked_connect {others : List Register} {x y : Register} (ha : a ∈ g.nodes)
    (hx : x ∈ g.nodes) (hy : y ∈ g.nodes) :
    (g.connect a others).linked x y = true ↔
      g.linked x y = true ∨ x ≠ y ∧ (x = a ∧ y ∈ others ∨ y = a ∧ x ∈ others) := by
  unfold connect
  rw [dif_pos (hasNode_iff.2 ha), linked_iff, linked_iff]
  refine (Links.mem_of_connect hx).trans ?_
  by_cases hl : y ∈ g.links x
  · exact ⟨fun _ => Or.inl hl, fun _ => Or.inl hl⟩
  · have hl' : x ∉ g.links y := fun h => hl (g.wellFormed.symm h)
    constructor
    · rintro (h | ⟨rfl, h⟩ | ⟨hxa, h, rfl⟩)
      · exact absurd h hl
      · obtain ⟨-, h₁, h₂, -⟩ := mem_unlinked.1 h
        exact Or.inr ⟨Ne.symm h₁, Or.inl ⟨rfl, h₂⟩⟩
      · exact Or.inr ⟨hxa, Or.inr ⟨rfl, (mem_unlinked.1 h).2.2.1⟩⟩
    · rintro (h | ⟨hne, ⟨rfl, h⟩ | ⟨rfl, h⟩⟩)
      · exact Or.inl h
      · exact Or.inr (Or.inl ⟨rfl, mem_unlinked.2 ⟨hy, Ne.symm hne, h, hl⟩⟩)
      · exact Or.inr (Or.inr ⟨hne, mem_unlinked.2 ⟨hx, hne, h, hl'⟩, rfl⟩)

/-- The graph with an edge added, and its ends if they are not there yet.  An
    edge from a register to itself is ignored. -/
def addEdge (g : Graph) (a b : Register) : Graph := ((g.addNode a).addNode b).connect a [b]

@[simp] theorem nodes_addEdge (g : Graph) (a b : Register) :
    (g.addEdge a b).nodes = ((g.addNode a).addNode b).nodes := by
  simp [addEdge]

theorem linked_addEdge {x y : Register} :
    (g.addEdge a b).linked x y = true ↔
      g.linked x y = true ∨ x ≠ y ∧ (x = a ∧ y = b ∨ x = b ∧ y = a) := by
  have ha : a ∈ ((g.addNode a).addNode b).nodes := by simp [mem_nodes_addNode]
  have hb : b ∈ ((g.addNode a).addNode b).nodes := by simp [mem_nodes_addNode]
  constructor
  · intro h
    have hn := mem_nodes_of_linked h
    rw [nodes_addEdge] at hn
    rw [addEdge, linked_connect ha hn.1 hn.2] at h
    simpa [and_comm] using h
  · rintro (h | ⟨hne, h⟩)
    · have hn := mem_nodes_of_linked h
      rw [addEdge, linked_connect ha (by simp [mem_nodes_addNode, hn.1])
        (by simp [mem_nodes_addNode, hn.2])]
      exact Or.inl (by simpa using h)
    · rcases h with ⟨rfl, rfl⟩ | ⟨rfl, rfl⟩
      · rw [addEdge, linked_connect ha ha hb]
        exact Or.inr ⟨hne, Or.inl ⟨rfl, by simp⟩⟩
      · rw [addEdge, linked_connect ha hb ha]
        exact Or.inr ⟨hne, Or.inr ⟨rfl, by simp⟩⟩

/-- The graph without the edge between two registers. -/
def removeEdge (g : Graph) (a b : Register) : Graph :=
  ⟨g.entries.cut a b, g.wellFormed.cut a b⟩

@[simp] theorem nodes_removeEdge (g : Graph) (a b : Register) :
    (g.removeEdge a b).nodes = g.nodes := by
  simp [removeEdge, nodes, Links.cut]

theorem linked_removeEdge {x y : Register} :
    (g.removeEdge a b).linked x y = true ↔
      g.linked x y = true ∧ ¬(x = a ∧ y = b) ∧ ¬(x = b ∧ y = a) := by
  constructor
  · intro h
    have hn := (mem_nodes_of_linked h).1
    rw [nodes_removeEdge] at hn
    obtain ⟨hm, h'⟩ := (Links.mem_of_cut g.wellFormed hn).1 (linked_iff.1 h)
    exact ⟨linked_iff.2 hm, h'⟩
  · rintro ⟨h, h'⟩
    exact linked_iff.2 ((Links.mem_of_cut g.wellFormed (mem_nodes_of_linked h).1).2
      ⟨linked_iff.1 h, h'⟩)

/-! ## Neighbors and edges in node order -/

/-- The nodes linked to a register, in node order. -/
def neighbors (g : Graph) (r : Register) : List Register :=
  let ls := g.links r
  g.nodes.filter fun b => ls.contains b

@[simp] theorem mem_neighbors : b ∈ g.neighbors a ↔ g.linked a b = true := by
  rw [linked_iff]
  simp only [neighbors, List.mem_filter, List.contains_iff_mem, and_iff_right_iff_imp]
  exact fun h => (mem_nodes_of_linked (linked_iff.2 h)).2

/-- The number of nodes linked to a register. -/
def degree (g : Graph) (r : Register) : Nat := (g.links r).length

/-- The number of edges. -/
def edges (g : Graph) : Nat := g.entries.foldr (fun (_, ls) n => ls.length + n) 0 / 2

/-- The edges, each once, from the node that was added first; in node order. -/
def edgeList (g : Graph) : List (Register × Register) := go g.nodes
where
  go : List Register → List (Register × Register)
    | [] => []
    | a :: later =>
      let ls := g.links a
      (later.filter fun b => ls.contains b).map (a, ·) ++ go later

theorem linked_of_mem_edgeList {e : Register × Register} (h : e ∈ g.edgeList) :
    g.linked e.1 e.2 = true := by
  have key : ∀ l : List Register, e ∈ edgeList.go g l → g.linked e.1 e.2 = true := by
    intro l
    induction l with
    | nil => simp [edgeList.go]
    | cons a later ih =>
      simp only [edgeList.go, List.mem_append, List.mem_map, List.mem_filter]
      rintro (⟨b, ⟨-, hb⟩, rfl⟩ | h)
      · exact hb
      · exact ih h
  exact key _ h

theorem mem_edgeList_of_linked (h : g.linked a b = true) :
    (a, b) ∈ g.edgeList ∨ (b, a) ∈ g.edgeList := by
  have key : ∀ l : List Register, a ∈ l → b ∈ l →
      (a, b) ∈ edgeList.go g l ∨ (b, a) ∈ edgeList.go g l := by
    intro l
    induction l with
    | nil => simp
    | cons x later ih =>
      have hab : a ≠ b := by rintro rfl; simp at h
      intro ha hb
      simp only [edgeList.go, List.mem_append, List.mem_map, List.mem_filter]
      rcases List.mem_cons.1 ha with rfl | ha'
      · exact Or.inl (Or.inl ⟨b, ⟨(List.mem_cons.1 hb).resolve_left (Ne.symm hab), h⟩, rfl⟩)
      · rcases List.mem_cons.1 hb with rfl | hb'
        · exact Or.inr (Or.inl ⟨a, ⟨ha', linked_symm h⟩, rfl⟩)
        · rcases ih ha' hb' with h' | h'
          · exact Or.inl (Or.inr h')
          · exact Or.inr (Or.inr h')
  exact key _ (mem_nodes_of_linked h).1 (mem_nodes_of_linked h).2

/-- The graph of listed nodes and then listed edges. -/
def ofEdges (nodes : List Register) (edges : List (Register × Register)) : Graph :=
  edges.foldl (fun g (a, b) => g.addEdge a b) (nodes.foldl addNode {})

end Graph

end Codegen
