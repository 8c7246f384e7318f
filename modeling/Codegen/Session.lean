/-
  Sessions: what compilations share and leave behind.

  A session holds the supply of fresh names, the records of what was done, and
  what was displayed.  A computation that fails leaves behind what it did until
  then.
-/
import Codegen.Supply

namespace Codegen

/-- A step of a compilation, with named values. -/
structure Record where
  message : String
  fields : List (String × String)
  deriving DecidableEq, Repr

/-- The level at which records are logged. -/
def Record.level : Nat := 1

/-- The record in one line. -/
def Record.text (r : Record) : String :=
  " ".intercalate (toString level :: r.message :: r.fields.map fun (k, v) => k ++ "=" ++ v)

/-- What compilations share and leave behind. -/
structure Session where
  supply : Supply := {}
  /-- The steps taken, in order. -/
  records : List Record := []
  /-- Are intermediate results displayed? -/
  verbose : Bool := false
  /-- What was displayed. -/
  shown : String := ""
  deriving DecidableEq, Repr

/-- A computation in a session that may fail. -/
abbrev Build (α : Type) := EStateM Fault Session α

namespace Build

variable {α : Type}

/-- A computation that draws on the session's supply. -/
def fresh (x : Fresh α) : Build α := fun s =>
  match x s.supply with
  | .ok a supply => .ok a { s with supply }
  | .error f supply => .error f { s with supply }

/-- A result that may be a fault. -/
def ofExcept (x : Except Fault α) : Build α := fresh (Fresh.ofExcept x)

/-- Records a step. -/
def trace (message : String) (fields : List (String × String)) : Build Unit :=
  modify fun s => { s with records := s.records ++ [⟨message, fields⟩] }

/-- Displays a text if the session asks for it. -/
def display (text : Unit → Except Fault String) : Build Unit := do
  if (← get).verbose then
    let t ← ofExcept (text ())
    modify fun s => { s with shown := s.shown ++ t }

/-- The outcome of a computation, failure included. -/
def attempt (x : Build α) : Build (Except Fault α) := fun s =>
  match x s with
  | .ok a s => .ok (.ok a) s
  | .error f s => .ok (.error f) s

end Build

end Codegen
