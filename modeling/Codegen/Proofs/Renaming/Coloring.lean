/-
  Coloring up to names.

  A coloring problem numbers its registers, and the steps of its solution look at nothing
  but these numbers and at which registers are physical (`Coloring.solve_rename`).  So the
  allocation for renamed graphs is the allocation renamed (`Allocator.allocate_rename`).
-/
import Codegen.Coloring.Basic
import Codegen.Proofs.Renaming.Liveness

namespace Codegen.Coloring

variable {n m : Nat} {ρ : Renaming} {p : Problem n m}

/-- The problem with its registers renamed. -/
def Problem.rename (ρ : Renaming) (p : Problem n m) : Problem n m :=
  { p with registers := p.registers.map ρ.register }

namespace Problem

theorem get_registers_rename (i : Fin n) :
    (p.rename ρ).registers.get i = ρ.register (p.registers.get i) := by
  simp [rename, Vector.get_eq_getElem]

@[simp] theorem precolored_rename : (p.rename ρ).precolored = p.precolored := by
  funext i
  rw [precolored, get_registers_rename, Renaming.isPhysical_register, precolored]

@[simp] theorem foreign_rename : (p.rename ρ).foreign = p.foreign := by
  funext i
  unfold foreign
  rw [get_registers_rename]
  cases p.registers.get i <;> rfl

@[simp] theorem colors_rename : (p.rename ρ).colors = p.colors := rfl

@[simp] theorem cost_rename : (p.rename ρ).cost = p.cost := rfl

@[simp] theorem moves_rename : (p.rename ρ).moves = p.moves := rfl

end Problem

/-! ## Steps -/

namespace State

@[simp] theorem addEdge_rename : addEdge (p.rename ρ) = addEdge p := by
  funext s u v
  simp only [addEdge, Problem.precolored_rename]

@[simp] theorem decrementDegree_rename : decrementDegree (p.rename ρ) = decrementDegree p := by
  funext s i
  simp only [decrementDegree, Problem.precolored_rename]
  rfl

@[simp] theorem addWorklist_rename : addWorklist (p.rename ρ) = addWorklist p := by
  funext s i
  simp only [addWorklist, Problem.precolored_rename]
  rfl

@[simp] theorem mergeSafe_rename : mergeSafe (p.rename ρ) = mergeSafe p := by
  funext s u v
  simp only [mergeSafe, Problem.precolored_rename]
  rfl

@[simp] theorem unionSafe_rename : unionSafe (p.rename ρ) = unionSafe p := by
  have hsignificant : significant (p.rename ρ) = significant p := by
    funext s i
    simp only [significant, Problem.precolored_rename]
    rfl
  funext s u v
  simp only [unionSafe, hsignificant]
  rfl

@[simp] theorem combine_rename : combine (p.rename ρ) = combine p := by
  funext s u v
  simp only [combine, addEdge_rename, decrementDegree_rename, Problem.colors_rename]

@[simp] theorem tryMove_rename : tryMove (p.rename ρ) = tryMove p := by
  funext s k
  simp only [tryMove, Problem.precolored_rename, Problem.foreign_rename, Problem.moves_rename,
    addWorklist_rename, mergeSafe_rename, unionSafe_rename, combine_rename]

@[simp] theorem freezeMoves_rename : freezeMoves (p.rename ρ) = freezeMoves p := by
  funext s u
  simp only [freezeMoves, Problem.precolored_rename]
  rfl

@[simp] theorem step_rename : step (p.rename ρ) = step p := by
  have hpick : pickSpill (p.rename ρ) = pickSpill p := rfl
  have hspill : spillNode (p.rename ρ) = spillNode p := by
    funext s u
    simp only [spillNode, freezeMoves_rename]
  funext s
  simp only [step, simplifyNode, decrementDegree_rename, tryMove_rename, freezeNode, freezeMoves_rename,
    hpick, hspill]

theorem run_rename (limit : Nat) (s : State n m) : run (p.rename ρ) limit s = run p limit s := by
  induction limit generalizing s with
  | zero => rfl
  | succ limit ih =>
    simp only [run, step_rename]
    split
    · rfl
    · exact ih _

theorem start_rename (edges : List (Fin n × Fin n)) : start (p.rename ρ) edges = start p edges := by
  have hmove : addMove (p.rename ρ) = addMove p := rfl
  have hclassify : classify (p.rename ρ) = classify p := by
    funext s i
    simp only [classify, Problem.precolored_rename]
    rfl
  simp only [start, addEdge_rename, hmove, hclassify]

end State

/-! ## Colors -/

theorem ownColors_rename : ownColors (p.rename ρ) = ownColors p := by
  refine Vector.ext fun i hi => ?_
  simp [ownColors, Problem.rename]

/-- **The colors of a problem do not depend on names.** -/
theorem solve_rename (edges : List (Fin n × Fin n)) : solve (p.rename ρ) edges = solve p edges := by
  have hpaint : ∀ s : State n m, paint (p.rename ρ) s = paint p s := fun s => rfl
  simp only [solve, State.start_rename, State.run_rename, assignColors, hpaint, ownColors_rename]

theorem allocation_rename (colors : Colors n) :
    allocation (p.rename ρ) colors = ρ.allocation (allocation p colors) := by
  have hget : (p.rename ρ).registers.get = ρ.register ∘ p.registers.get :=
    funext Problem.get_registers_rename
  unfold allocation Renaming.allocation
  simp only [hget, List.map_filterMap, List.map_map]
  congr 1
  refine List.filterMap_congr fun i _ => ?_
  cases colors.get i <;> rfl

/-- Two problems of the same size that differ in the names of their registers have the same
    allocation up to names. -/
theorem allocation_congr {n' m' : Nat} (hn : n = n') (hm : m = m') {p' : Problem n' m'}
    (hregisters : ∀ i, p'.registers.get (i.cast hn) = ρ.register (p.registers.get i))
    (hpalette : p'.palette = p.palette) (hcost : ∀ i, p'.cost.get (i.cast hn) = p.cost.get i)
    (hmoves : ∀ k, p'.moves.get (k.cast hm) = Prod.map (Fin.cast hn) (Fin.cast hn) (p.moves.get k))
    (edges : List (Fin n × Fin n)) :
    allocation p' (solve p' (edges.map (Prod.map (Fin.cast hn) (Fin.cast hn)))) =
      ρ.allocation (allocation p (solve p edges)) := by
  subst hn hm
  have hp : p' = p.rename ρ := by
    obtain ⟨registers, palette, cost, moves⟩ := p'
    simp only [Problem.rename, Problem.mk.injEq]
    refine ⟨Vector.ext fun i hi => ?_, hpalette, Vector.ext fun i hi => hcost ⟨i, hi⟩, Vector.ext fun k hk => ?_⟩
    · rw [Vector.getElem_map]
      exact hregisters ⟨i, hi⟩
    · exact hmoves ⟨k, hk⟩
  have hedges : edges.map (Prod.map (Fin.cast rfl) (Fin.cast rfl)) = edges := List.map_id _
  rw [hp, hedges, solve_rename, allocation_rename]

end Codegen.Coloring

namespace Codegen.Allocator

open Renaming

variable {ρ : Renaming} {conflicts conflicts' copies copies' : Graph}

section
variable (hρ : ρ.Faithful)
include hρ

theorem registers_rename (h : conflicts.Renamed ρ conflicts') (hc : copies.Renamed ρ copies') :
    registers conflicts' copies' = (registers conflicts copies).map ρ.register := by
  unfold registers
  rw [h.nodes, hc.nodes, List.map_append, filter_map_of_eq copies.nodes fun r => by rw [h.hasNode hρ]]

theorem finIdxOf?_map (nodes : List Register) (r : Register) :
    (nodes.map ρ.register).finIdxOf? (ρ.register r) =
      (nodes.finIdxOf? r).map (Fin.cast (List.length_map ρ.register).symm) := by
  induction nodes with
  | nil => rfl
  | cons a nodes ih =>
    change List.finIdxOf? (ρ.register r) (ρ.register a :: nodes.map ρ.register) = _
    rw [List.finIdxOf?_cons, List.finIdxOf?_cons, hρ.beq_register, ih]
    split
    · rfl
    · rw [Option.map_map, Option.map_map]
      rfl

theorem pairs_map (nodes : List Register) (es : List (Register × Register)) :
    pairs (nodes.map ρ.register) (es.map ρ.edge) = (pairs nodes es).map
      (Prod.map (Fin.cast (List.length_map ρ.register).symm) (Fin.cast (List.length_map ρ.register).symm)) := by
  unfold pairs
  rw [List.filterMap_map, List.map_filterMap]
  refine List.filterMap_congr fun e _ => ?_
  simp only [Function.comp_apply, edge, finIdxOf?_map hρ]
  cases nodes.finIdxOf? e.1 with
  | none => rfl
  | some i => cases nodes.finIdxOf? e.2 <;> rfl

theorem cost_rename (name : String) (palette : List Physical) (costs : List (Register × Word)) (r : Register) :
    cost ⟨name, palette, costs.map fun e => (ρ.register e.1, e.2)⟩ (ρ.register r) = cost ⟨name, palette, costs⟩ r := by
  unfold cost
  rw [hρ.lookup_map_keys]

/-- **The allocation for renamed graphs is the allocation renamed.** -/
theorem allocate_rename (h : conflicts.Renamed ρ conflicts') (hc : copies.Renamed ρ copies')
    (name : String) (palette : List Physical) (costs : List (Register × Word)) :
    allocate ⟨name, palette, costs.map fun e => (ρ.register e.1, e.2)⟩ conflicts' copies' =
      ρ.allocation (allocate ⟨name, palette, costs⟩ conflicts copies) := by
  have hregisters := registers_rename hρ h hc
  have hn : (registers conflicts copies).length = (registers conflicts' copies').length := by
    rw [hregisters, List.length_map]
  -- the pairs of positions are the same, whatever the registers at these positions
  have hpairs : ∀ es : List (Register × Register), pairs (registers conflicts' copies') (es.map ρ.edge) =
      (pairs (registers conflicts copies) es).map (Prod.map (Fin.cast hn) (Fin.cast hn)) := by
    revert hn
    rw [hregisters]
    exact fun hn es => pairs_map hρ _ es
  have hmoves : moves conflicts' copies' =
      (moves conflicts copies).map (Prod.map (Fin.cast hn) (Fin.cast hn)) := by
    unfold moves
    rw [← hpairs, hc.edgeList hρ, List.filter_map]
    refine congrArg _ (congrArg _ (List.filter_congr fun e _ => ?_))
    simp [edge]
  have hedges : edges conflicts' copies' =
      (edges conflicts copies).map (Prod.map (Fin.cast hn) (Fin.cast hn)) := by
    unfold edges
    rw [← hpairs, h.nodes, List.flatMap_map, List.map_flatMap]
    refine congrArg _ (congrArg (List.flatMap · _) (funext fun u => ?_))
    rw [h.neighbors hρ, List.map_map, List.map_map]
    rfl
  have hm : (moves conflicts copies).length = (moves conflicts' copies').length := by
    rw [hmoves, List.length_map]
  unfold allocate
  rw [hedges]
  refine Coloring.allocation_congr hn hm (fun i => ?_) rfl (fun i => ?_) (fun k => ?_) _
  · simp [problem, Vector.get, hregisters]
  · simp [problem, Vector.get, hregisters, cost_rename hρ]
    rfl
  · simp [problem, Vector.get, hmoves]

end

end Codegen.Allocator
