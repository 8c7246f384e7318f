/-
  Liveness analysis up to names.

  The analysis compares registers and labels for equality and lists them in the order in
  which they are mentioned; nothing depends on their names.  So the graphs of a renamed
  stream are the graphs of the stream renamed (`Liveness.alike_analyze`).
-/
import Codegen.Proofs.Renaming.Basic
import Codegen.Proofs.Outcomes
import Codegen.Liveness

namespace Codegen

/-- Both computations fail, or they give results that correspond. -/
inductive Except.Alike {α β : Type} (R : α → β → Prop) : Except Fault α → Except Fault β → Prop
  | ok {a : α} {b : β} (h : R a b) : Alike R (.ok a) (.ok b)
  | error {e e' : Fault} : Alike R (.error e) (.error e')

namespace Except.Alike

variable {α β γ δ : Type} {R : α → β → Prop} {S : γ → δ → Prop}

theorem bind {x : Except Fault α} {x' : Except Fault β} {k : α → Except Fault γ} {k' : β → Except Fault δ}
    (h : Alike R x x') (hk : ∀ a b, R a b → Alike S (k a) (k' b)) : Alike S (x >>= k) (x' >>= k') := by
  cases h with
  | ok h => exact hk _ _ h
  | error => exact .error

theorem mapM {f : γ → δ} {g : α → β} {k : γ → Except Fault α} {k' : δ → Except Fault β} {xs : List γ}
    (h : ∀ x ∈ xs, Alike (fun a b => b = g a) (k x) (k' (f x))) :
    Alike (fun as bs => bs = as.map g) (xs.mapM k) ((xs.map f).mapM k') := by
  induction xs with
  | nil => exact .ok rfl
  | cons x xs ih =>
    rw [List.map_cons, List.mapM_cons, List.mapM_cons]
    refine (h x List.mem_cons_self).bind fun a b hb => ?_
    refine (ih fun y hy => h y (List.mem_cons_of_mem _ hy)).bind fun as bs hbs => .ok ?_
    rw [hb, hbs, List.map_cons]

theorem foldlM {f : γ → δ} {k : α → γ → Except Fault α} {k' : β → δ → Except Fault β} {xs : List γ}
    (h : ∀ a b x, R a b → Alike R (k a x) (k' b (f x))) {a : α} {b : β} (hab : R a b) :
    Alike R (xs.foldlM k a) ((xs.map f).foldlM k' b) := by
  induction xs generalizing a b with
  | nil => exact .ok hab
  | cons x xs ih =>
    rw [List.map_cons, List.foldlM_cons, List.foldlM_cons]
    exact (h a b x hab).bind fun a b hab => ih hab

end Except.Alike

namespace Renaming

variable {ρ : Renaming}

/-! ## Lists of registers -/

section
variable (h : ρ.Faithful)
include h

theorem contains_map (rs : List Register) (r : Register) :
    (rs.map ρ.register).contains (ρ.register r) = rs.contains r := by
  rw [Bool.eq_iff_iff, List.contains_iff_mem, List.contains_iff_mem]
  exact List.mem_map_of_injective h.register

omit h in
theorem filter_map_of_eq {p q : Register → Bool} (rs : List Register) (hpq : ∀ r, q (ρ.register r) = p r) :
    (rs.map ρ.register).filter q = (rs.filter p).map ρ.register := by
  rw [List.filter_map]
  exact congrArg _ (List.filter_congr fun r _ => hpq r)

theorem union_map (s t : Liveness.LiveSet) :
    Liveness.LiveSet.union (s.map ρ.register) (t.map ρ.register) = (s.union t).map ρ.register := by
  unfold Liveness.LiveSet.union
  rw [List.map_append, filter_map_of_eq t fun r => by rw [contains_map h]]

end

/-- Sets of live registers renamed. -/
def live (ρ : Renaming) (sets : Array Liveness.LiveSet) : Array Liveness.LiveSet :=
  sets.map (List.map ρ.register)

/-- The point of a stream renamed. -/
def point (ρ : Renaming) (p : Liveness.Point) : Liveness.Point := ⟨p.index, ρ.item p.item, p.next⟩

end Renaming

namespace Stream

open Renaming

variable {ρ : Renaming} (h : ρ.Faithful)
include h

theorem position?_rename (items : Stream) (l : Label) :
    (ρ.stream items).position? (ρ.label l) = items.position? l := by
  have hlabel : ∀ it : Item, ρ.item it = .label (ρ.label l) ↔ it = .label l := by
    intro it
    cases it with
    | label l' => exact ⟨fun e => congrArg _ (h.label (Item.label.inj e)), fun e => by rw [Item.label.inj e]; rfl⟩
    | instr i => exact ⟨fun e => (by cases e), fun e => (by cases e)⟩
    | stray r => exact ⟨fun e => (by cases e), fun e => (by cases e)⟩
  unfold position? stream
  rw [List.zipIdx_map, List.foldl_map]
  simp only [Prod.map, hlabel]
  rfl

theorem alike_next (items : Stream) (k : Nat) (it : Item) :
    Except.Alike (fun a b => b = a) (items.next k it) ((ρ.stream items).next k (ρ.item it)) := by
  have hfollowing : Stream.next.following (ρ.stream items) k = Stream.next.following items k := by
    simp [Stream.next.following, stream]
  cases it with
  | label l => exact .ok hfollowing
  | stray r => exact .error
  | instr i =>
    simp only [Renaming.item, next, fallsThrough_instr, target?_instr, hfollowing]
    cases i.target? with
    | none => exact .ok rfl
    | some l =>
      simp only [Option.map_some, position?_rename h]
      cases items.position? l with
      | none => exact .error
      | some j => exact .ok rfl

end Stream

namespace Liveness

open Renaming

variable {ρ : Renaming} (h : ρ.Faithful)
include h

/-! ## The sets -/

theorem alike_points (items : Stream) :
    Except.Alike (fun ps ps' => ps' = ps.map ρ.point) (points items) (points (ρ.stream items)) := by
  unfold points stream
  rw [List.zipIdx_map]
  refine Except.Alike.mapM fun ⟨it, k⟩ _ => ?_
  exact (Stream.alike_next h items k it).bind fun next next' e => .ok (by rw [e]; rfl)

theorem before_rename (it : Item) (out : LiveSet) :
    before (ρ.item it) (out.map ρ.register) = (before it out).map ρ.register := by
  unfold before
  rw [instr?_item]
  cases it.instr? with
  | none => rfl
  | some i =>
    simp only [Option.map_some]
    rw [uses_instr, defines_instr, eraseDups_map h.register, filter_map_of_eq out fun r => by rw [contains_map h],
      union_map h]

theorem after_rename (sets : Array LiveSet) (next : List Nat) :
    after (ρ.live sets) next = (after sets next).map ρ.register := by
  have hget : ∀ k, (ρ.live sets).getD k [] = (sets.getD k []).map ρ.register := by
    intro k
    simp only [live, Array.getD_eq_getD_getElem?, Array.getElem?_map]
    cases sets[k]? <;> rfl
  have key : ∀ (next : List Nat) (out : LiveSet),
      next.foldl (fun out k => LiveSet.union out ((ρ.live sets).getD k [])) (out.map ρ.register) =
        (next.foldl (fun out k => LiveSet.union out (sets.getD k [])) out).map ρ.register := by
    intro next
    induction next with
    | nil => exact fun _ => rfl
    | cons k next ih =>
      intro out
      rw [List.foldl_cons, List.foldl_cons, hget, union_map h, ih]
  exact key next []

theorem refine_rename (sets : Array LiveSet) (p : Point) :
    refine (ρ.live sets) (ρ.point p) = ρ.live (refine sets p) := by
  unfold refine
  refine Array.ext (by simp [live]) fun k hk hk' => ?_
  simp only [live, point, Array.getElem_modify, Array.getElem_map, Array.size_modify, Array.size_map] at hk hk' ⊢
  split
  · rw [← union_map h, ← before_rename h]
    exact congrArg (fun s => _ ++ List.filter _ s) (congrArg _ (after_rename h sets p.next))
  · rfl

theorem sweep_rename (ps : List Point) (sets : Array LiveSet) :
    sweep (ps.map ρ.point) (ρ.live sets) = ρ.live (sweep ps sets) := by
  unfold sweep
  rw [List.foldr_map]
  induction ps with
  | nil => rfl
  | cons p ps ih => rw [List.foldr_cons, List.foldr_cons, ih, refine_rename h]

theorem solve_rename (ps : List Point) (limit : Nat) (sets : Array LiveSet) :
    solve (ps.map ρ.point) limit (ρ.live sets) = ρ.live (solve ps limit sets) := by
  induction limit generalizing sets with
  | zero => rfl
  | succ limit ih =>
    have hinjective : Function.Injective ρ.live := by
      intro s t e
      exact (Array.map_inj_right fun _ _ e => List.map_injective_iff.2 h.register e).1 e
    simp only [solve, sweep_rename h, hinjective.eq_iff]
    split
    · rfl
    · exact ih _

end Liveness

/-! ## Graphs -/

/-- The edge renamed. -/
def Renaming.edge (ρ : Renaming) (e : Register × Register) : Register × Register :=
  (ρ.register e.1, ρ.register e.2)

/-- The nodes and links renamed. -/
def Renaming.links (ρ : Renaming) (es : Links) : Links :=
  es.map fun e => (ρ.register e.1, e.2.map ρ.register)

/-- The second graph is the first one renamed. -/
def Graph.Renamed (ρ : Renaming) (g g' : Graph) : Prop := g'.entries = ρ.links g.entries

theorem Links.change_rename {ρ : Renaming} {f f' : Register → List Register → List Register} (es : Links)
    (hf : ∀ a ls, f' (ρ.register a) (ls.map ρ.register) = (f a ls).map ρ.register) :
    (ρ.links es).change f' = ρ.links (es.change f) := by
  unfold change Renaming.links
  rw [List.map_map, List.map_map]
  refine List.map_congr_left fun e _ => ?_
  simp [hf]

theorem Links.of_rename {ρ : Renaming} (h : ρ.Faithful) (es : Links) (r : Register) :
    (ρ.links es).of (ρ.register r) = (es.of r).map ρ.register := by
  unfold of Renaming.links
  rw [h.lookup_map]
  cases es.lookup r <;> rfl

namespace Graph.Renamed

open Renaming

variable {ρ : Renaming} {g g' : Graph} {a b r : Register}

theorem empty (ρ : Renaming) : Graph.Renamed ρ {} {} := rfl

theorem nodes (h : g.Renamed ρ g') : g'.nodes = g.nodes.map ρ.register := by
  unfold Graph.nodes Links.nodes
  rw [show g'.entries = _ from h, Renaming.links, List.map_map, List.map_map]
  rfl

theorem foldl {α : Type} {f f' : Graph → α → Graph} {φ : α → α} (xs : List α)
    (hf : ∀ {g g'} x, g.Renamed ρ g' → (f g x).Renamed ρ (f' g' (φ x))) (h : g.Renamed ρ g') :
    (xs.foldl f g).Renamed ρ ((xs.map φ).foldl f' g') := by
  induction xs generalizing g g' with
  | nil => exact h
  | cons x xs ih => exact ih (hf x h)

variable (hρ : ρ.Faithful)
include hρ

theorem hasNode (h : g.Renamed ρ g') (r : Register) : g'.hasNode (ρ.register r) = g.hasNode r := by
  rw [Bool.eq_iff_iff, hasNode_iff, hasNode_iff, h.nodes]
  exact List.mem_map_of_injective hρ.register

theorem links (h : g.Renamed ρ g') (r : Register) :
    g'.links (ρ.register r) = (g.links r).map ρ.register := by
  unfold Graph.links
  rw [show g'.entries = _ from h, Links.of_rename hρ]

theorem linked (h : g.Renamed ρ g') (a b : Register) :
    g'.linked (ρ.register a) (ρ.register b) = g.linked a b := by
  rw [Graph.linked, h.links hρ, contains_map hρ, Graph.linked]

theorem addNode (h : g.Renamed ρ g') (r : Register) :
    (g.addNode r).Renamed ρ (g'.addNode (ρ.register r)) := by
  unfold Graph.addNode
  by_cases hr : g.hasNode r = true
  · rw [dif_pos hr, dif_pos ((h.hasNode hρ r).trans hr)]
    exact h
  · rw [dif_neg hr, dif_neg fun e => hr ((h.hasNode hρ r).symm.trans e)]
    change g'.entries ++ _ = ρ.links (g.entries ++ _)
    rw [show g'.entries = _ from h, Renaming.links, Renaming.links, List.map_append]
    rfl

theorem unlinked (h : g.Renamed ρ g') (a : Register) (others : List Register) :
    g'.unlinked (ρ.register a) (others.map ρ.register) = (g.unlinked a others).map ρ.register := by
  unfold Graph.unlinked
  rw [h.nodes]
  refine filter_map_of_eq _ fun r => ?_
  rw [contains_map hρ, h.linked hρ]
  simp [hρ.register.eq_iff]

theorem connect (h : g.Renamed ρ g') (a : Register) (others : List Register) :
    (g.connect a others).Renamed ρ (g'.connect (ρ.register a) (others.map ρ.register)) := by
  unfold Graph.connect
  by_cases ha : g.hasNode a = true
  · rw [dif_pos ha, dif_pos ((h.hasNode hρ a).trans ha)]
    change Links.connect g'.entries _ _ = ρ.links (Links.connect g.entries _ _)
    rw [show g'.entries = _ from h, h.unlinked hρ]
    refine Links.change_rename _ fun x ls => ?_
    simp only [hρ.register.eq_iff, List.mem_map_of_injective hρ.register]
    split
    · rw [List.map_append]
    · split
      · rw [List.map_append]; rfl
      · rfl
  · rw [dif_neg ha, dif_neg fun e => ha ((h.hasNode hρ a).symm.trans e)]
    exact h

theorem addEdge (h : g.Renamed ρ g') (a b : Register) :
    (g.addEdge a b).Renamed ρ (g'.addEdge (ρ.register a) (ρ.register b)) :=
  ((h.addNode hρ a).addNode hρ b).connect hρ a [b]

theorem removeEdge (h : g.Renamed ρ g') (a b : Register) :
    (g.removeEdge a b).Renamed ρ (g'.removeEdge (ρ.register a) (ρ.register b)) := by
  change Links.cut g'.entries _ _ = ρ.links (Links.cut g.entries _ _)
  rw [show g'.entries = _ from h]
  refine Links.change_rename _ fun x ls => ?_
  simp only [hρ.register.eq_iff]
  split
  · rw [List.map_erase hρ.register]
  · split
    · rw [List.map_erase hρ.register]
    · rfl

theorem neighbors (h : g.Renamed ρ g') (r : Register) :
    g'.neighbors (ρ.register r) = (g.neighbors r).map ρ.register := by
  unfold Graph.neighbors
  simp only [h.nodes, h.links hρ]
  exact filter_map_of_eq _ fun b => contains_map hρ _ b

theorem edgeList (h : g.Renamed ρ g') : g'.edgeList = g.edgeList.map ρ.edge := by
  have key : ∀ rs : List Register, edgeList.go g' (rs.map ρ.register) = (edgeList.go g rs).map ρ.edge := by
    intro rs
    induction rs with
    | nil => rfl
    | cons a later ih =>
      simp only [List.map_cons, edgeList.go, h.links hρ, List.map_append, ih,
        filter_map_of_eq later fun b => contains_map hρ (g.links a) b, List.map_map]
      rfl
  rw [Graph.edgeList, h.nodes, key, Graph.edgeList]

end Graph.Renamed

namespace Liveness

open Renaming

/-- The analysis renamed. -/
structure Result.Renamed (ρ : Renaming) (res res' : Result) : Prop where
  interference : res.interference.Renamed ρ res'.interference
  copies : res.copies.Renamed ρ res'.copies
  occurrences : res'.occurrences = res.occurrences.map fun e => (ρ.register e.1, e.2)

variable {ρ : Renaming} {g g' : Graph} (hρ : ρ.Faithful)
include hρ

theorem conflicts_rename (i : Instr) (out : LiveSet) :
    conflicts (ρ.instr i) (out.map ρ.register) = (conflicts i out).map ρ.register := by
  unfold conflicts
  rw [copy?_instr]
  cases i.copy? with
  | none => rfl
  | some c =>
    refine filter_map_of_eq _ fun r => ?_
    simp [hρ.register.eq_iff]

theorem renamed_addConflicts (h : g.Renamed ρ g') (i : Instr) (out : LiveSet) :
    (addConflicts g i out).Renamed ρ (addConflicts g' (ρ.instr i) (out.map ρ.register)) := by
  unfold addConflicts
  rw [defines_instr, conflicts_rename hρ]
  refine Graph.Renamed.foldl _ (fun d h => ?_) h
  rw [filter_map_of_eq (p := (· ≠ d)) _ fun r => by simp [hρ.register.eq_iff]]
  exact h.connect hρ d _

theorem renamed_interference (h : g.Renamed ρ g') (ps : List Point) (sets : Array LiveSet) :
    (interference g ps sets).Renamed ρ (interference g' (ps.map ρ.point) (ρ.live sets)) := by
  unfold interference
  refine Graph.Renamed.foldl _ (fun p h => ?_) h
  simp only [point, instr?_item, after_rename hρ]
  cases p.item.instr? with
  | none => exact h
  | some i => exact renamed_addConflicts hρ h i _

theorem renamed_copies {conflict conflict' : Graph} (h : g.Renamed ρ g')
    (hconflict : conflict.Renamed ρ conflict') (items : Stream) :
    (copies g items conflict).Renamed ρ (copies g' (ρ.stream items) conflict') := by
  have hmoves : (ρ.stream items).instructions.filterMap Instr.copy? =
      (items.instructions.filterMap Instr.copy?).map ρ.edge := by
    rw [instructions_stream, List.filterMap_map, List.map_filterMap]
    exact List.filterMap_congr fun i _ => copy?_instr i
  have hadded : Graph.Renamed ρ
      ((items.instructions.filterMap Instr.copy?).foldl (fun g e => g.addEdge e.1 e.2) g)
      (((items.instructions.filterMap Instr.copy?).map ρ.edge).foldl (fun g e => g.addEdge e.1 e.2) g') :=
    Graph.Renamed.foldl _ (fun e h => h.addEdge hρ e.1 e.2) h
  unfold copies
  simp only [hmoves]
  rw [hadded.edgeList hρ]
  refine Graph.Renamed.foldl _ (fun e h => ?_) hadded
  simp only [edge, hconflict.linked hρ]
  split
  · exact h.removeEdge hρ e.1 e.2
  · exact h

/-- **The analysis of a renamed stream is the analysis renamed.** -/
theorem alike_analyze (items : Stream) :
    Except.Alike (Result.Renamed ρ) (analyze items) (analyze (ρ.stream items)) := by
  refine (alike_points hρ items).bind fun ps ps' hps => .ok ?_
  subst hps
  have hnodes : (items.registers.foldl Graph.addNode {}).Renamed ρ
      ((items.registers.map ρ.register).foldl Graph.addNode {}) :=
    Graph.Renamed.foldl _ (fun r h => h.addNode hρ r) (.empty ρ)
  have hlive : solve (ps.map ρ.point) ((ρ.stream items).length * (items.registers.map ρ.register).length + 1)
      (Array.replicate (ρ.stream items).length []) =
        ρ.live (solve ps (items.length * items.registers.length + 1) (Array.replicate items.length [])) := by
    rw [← solve_rename hρ]
    simp [stream, live]
  rw [registers_stream hρ, hlive, mentions_stream]
  have hinterference := renamed_interference hρ hnodes ps
    (solve ps (items.length * items.registers.length + 1) (Array.replicate items.length []))
  refine ⟨hinterference, renamed_copies hρ hnodes hinterference items, ?_⟩
  simp only [List.map_map]
  refine List.map_congr_left fun r _ => ?_
  simp [List.count_map_of_injective _ _ hρ.register]

end Liveness

end Codegen
