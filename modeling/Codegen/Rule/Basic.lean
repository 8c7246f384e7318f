/-
  Rules and catalogues.

  A rule pairs a pattern with the code that implements it.  A catalogue is an
  ordered collection of rules of three kinds, with the calling convention of
  the machine:

  * tree rules tile operations and values;
  * jump rules emit the transfer at the end of a sequential block;
  * branch rules tile the condition of a branch and emit the two-way transfer.

  Earlier rules win ties.
-/
import Codegen.Pattern.Basic
import Codegen.Supply

namespace Codegen

/-- What a rule's code is generated from. -/
structure Emission where
  /-- The registers computed for the open leaves, in visiting order. -/
  inputs : List Register := []
  /-- What the pattern captured. -/
  found : Match := {}
  /-- Where a sequential block continues. -/
  next : Label := Label.none
  /-- Where a branch continues if its condition is not zero. -/
  onTrue : Label := Label.none
  /-- Where a branch continues if its condition is zero. -/
  onFalse : Label := Label.none
  deriving DecidableEq, Repr

/-- The register computed for the `k`-th open leaf. -/
def Emission.input (e : Emission) (k : Nat) : Except Fault Register :=
  match e.inputs[k]? with
  | some r => .ok r
  | none => .error (.outOfRange k e.inputs.length)

/-- The code of a rule, and the register that holds the value of the tiled
    node, if it has one. -/
abbrev Generator := Emission → Fresh (List Instr × Option Register)

/-- A pattern with the code that implements it. -/
structure Rule where
  name : String
  pattern : Pattern
  generate : Generator

/-- A rule for the end of sequential blocks. -/
structure JumpRule where
  name : String
  generate : Label → Fresh (List Instr)

/-- Where a rule applies. -/
inductive RuleKind where
  | tree | jump | branch
  deriving DecidableEq, Repr

namespace RuleKind

/-- The kind of a number. -/
def ofCode? (code : Int) : Option RuleKind :=
  if code = 0 then some tree else if code = 1 then some jump
  else if code = 2 then some branch else none

/-- The name of a kind; there is one for no kind, too. -/
def name : Option RuleKind → String
  | some tree => "tree"
  | some jump => "jump"
  | some branch => "branch"
  | none => "unknown"

end RuleKind

/-- The registers with a fixed role in calls. -/
structure Convention where
  arguments : List Physical
  callerSaved : List Physical
  calleeSaved : List Physical
  result : Physical
  stackPointer : Physical
  framePointer : Physical
  deriving DecidableEq, Repr

/-- An ordered collection of rules. -/
structure Catalogue where
  name : String
  convention : Option Convention := none
  trees : List Rule := []
  jumps : List JumpRule := []
  branches : List Rule := []

/-- A rule on its way into a catalogue, whose pattern or code may be missing. -/
structure Draft where
  name : String
  kind : RuleKind
  pattern : Option Pattern := none
  generate : Option Generator := none

namespace Catalogue

/-- The number of rules. -/
def size (c : Catalogue) : Nat := c.trees.length + c.jumps.length + c.branches.length

/-- The catalogue with one more rule at the end of its kind.  Every rule needs
    code, and every rule but a jump rule a pattern.  A jump rule's code sees
    nothing but the continuation. -/
def register (c : Catalogue) (d : Draft) : Except Fault Catalogue :=
  match d.generate, d.kind, d.pattern with
  | none, _, _ => .error (.noGenerator d.name c.name)
  | some g, .jump, _ =>
    let code := fun next => do return (← g { next }).1
    .ok { c with jumps := c.jumps ++ [⟨d.name, code⟩] }
  | some _, _, none => .error (.noPattern d.name c.name)
  | some g, .tree, some p => .ok { c with trees := c.trees ++ [⟨d.name, p, g⟩] }
  | some g, .branch, some p => .ok { c with branches := c.branches ++ [⟨d.name, p, g⟩] }

/-- A catalogue of the given rules, registered in order. -/
def ofDrafts (name : String) (rules : List Draft) : Except Fault Catalogue :=
  rules.foldlM register { name }

end Catalogue

end Codegen
