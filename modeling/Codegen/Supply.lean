/-
  The supply of fresh names.

  Virtual registers and generated labels are numbered in the order in which
  they are made.  `Fresh` computations draw from a supply and may fail; what
  they drew before a failure stays drawn.
-/
import Codegen.Fault

namespace Codegen

/-- How many virtual registers and labels have been made so far. -/
structure Supply where
  registers : Nat := 0
  labels : Nat := 0
  deriving DecidableEq, Repr

/-- A computation that draws fresh names and may fail. -/
abbrev Fresh (α : Type) := EStateM Fault Supply α

namespace Fresh

/-- A new virtual register. -/
def register : Fresh Register := do
  let s ← get
  set { s with registers := s.registers + 1 }
  return .virtual (s.registers + 1)

/-- A new label. -/
def label : Fresh Label := do
  let s ← get
  set { s with labels := s.labels + 1 }
  return Label.generated (s.labels + 1)

/-- A computation that draws nothing. -/
def ofExcept {α : Type} : Except Fault α → Fresh α
  | .ok a => pure a
  | .error e => throw e

end Fresh

end Codegen
