/-
  Allocations: which physical register each register lives in.

  * `Allocation.lookup` is the assignment of one register;
  * `Allocation.apply` renames the registers of a stream by it; registers without
    one stay as they are.
-/
import Codegen.Instr.Stream

namespace Codegen

/-- An assignment of physical registers, with what was left without one. -/
structure Allocation where
  /-- The assigned registers, each once.  Physical registers are assigned to
      themselves. -/
  assigned : List (Register × Physical) := []
  /-- The registers left without a physical register. -/
  unassigned : List Register := []
  deriving DecidableEq, Repr

namespace Allocation

/-- The physical register of a register. -/
def lookup (a : Allocation) (r : Register) : Option Physical := a.assigned.lookup r

theorem mem_assigned_of_lookup {a : Allocation} {r : Register} {p : Physical}
    (h : a.lookup r = some p) : (r, p) ∈ a.assigned := by
  obtain ⟨l₁, l₂, e, -⟩ := List.lookup_eq_some_iff.1 h
  rw [e]; simp

theorem lookup_eq_some_iff {a : Allocation} (h : (a.assigned.map (·.1)).Nodup) {r : Register}
    {p : Physical} : a.lookup r = some p ↔ (r, p) ∈ a.assigned := by
  refine ⟨mem_assigned_of_lookup, fun hm => ?_⟩
  obtain ⟨l₁, l₂, e⟩ := List.append_of_mem hm
  refine List.lookup_eq_some_iff.2 ⟨l₁, l₂, e, fun x hx => ?_⟩
  rw [e, List.map_append, List.nodup_append] at h
  have := h.2.2 x.1 (List.mem_map_of_mem hx) r (by simp)
  simpa using Ne.symm this

/-- The allocation with one register (re)assigned. -/
def assign (a : Allocation) (r : Register) (p : Physical) : Allocation :=
  { a with assigned := (a.assigned.filter (·.1 ≠ r)) ++ [(r, p)] }

/-- The allocation of listed pairs, of which a later one overrides. -/
def ofPairs (pairs : List (Register × Physical)) (unassigned : List Register) : Allocation :=
  pairs.foldl (fun a (r, p) => a.assign r p) { unassigned }

/-- Has every register a physical one? -/
def complete (a : Allocation) : Bool := a.unassigned.isEmpty

/-- The register that stands for `r` in a renamed stream. -/
def rename (a : Allocation) (r : Register) : Register :=
  match a.lookup r with
  | some p => p
  | none => r

/-- The stream with the assignment applied. -/
def apply (a : Allocation) (items : Stream) : Stream := items.mapRegisters a.rename

/-- The candidates that some register is assigned. -/
def used (a : Allocation) (candidates : List Physical) : List Physical :=
  candidates.filter fun p => (a.assigned.map (·.2)).contains p

/-- Is the item a move whose two sides are one register, or live in one? -/
def isNoop (a : Allocation) (item : Item) : Bool :=
  match item.instr?.bind Instr.copy? with
  | none => false
  | some (dst, src) =>
    decide (dst = src) ||
      match a.lookup dst, a.lookup src with
      | some d, some s => decide (d = s)
      | _, _ => false

/-- The stream without the moves that do nothing. -/
def dropNoops (a : Allocation) (items : Stream) : Stream := items.filter fun item => !a.isNoop item

end Allocation

end Codegen
