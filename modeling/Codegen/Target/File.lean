/-
  Targets described by documents such as

      name: small
      registers: [rax, rbx, rcx, r10, r11]
      scratch: [r10, r11]

  What is left out falls back to the defaults.  `Target.ofFile` makes the target
  of what a document says and `Target.parse` reads the document first.
-/
import Codegen.Target.Basic
import Codegen.Text.Quoted
import Codegen.Yaml.Value

namespace Codegen.Target

/-- Why a document describes no target. -/
inductive FileError where
  /-- The text is no document of the right shape. -/
  | malformed
  /-- A key of the document cannot be compared with others. -/
  | incomparableKey
  /-- A name that is no register. -/
  | unknownRegister (name : Text.Loose)
  /-- An unknown name in a list of the target. -/
  | badList (target list : String) (cause : FileError)
  /-- A register that may not be handed out. -/
  | notAllocatable (target : String) (p : Physical)
  /-- A list of no registers. -/
  | noRegisters (target : String)
  /-- Too few scratch registers. -/
  | fewScratch (target : String) (given : Nat)
  deriving DecidableEq, Repr

/-- The wording of an error. -/
def FileError.message : FileError → String
  | malformed => "parse target"
  | incomparableKey => "compare keys"
  | unknownRegister name => "unknown register " ++ name.quote
  | badList target list cause => "target " ++ target ++ " " ++ list ++ ": " ++ cause.message
  | notAllocatable target p =>
    "target " ++ target ++ ": register " ++ p.shortName ++ " cannot be allocated"
  | noRegisters target => "target " ++ target ++ ": empty register list"
  | fewScratch target given =>
    "target " ++ target ++ ": need at least " ++ toString minScratch ++
      " scratch registers, got " ++ toString given

/-- What a document says about a target. -/
structure File where
  name : String := ""
  registers : Option (List Text.Loose) := none
  scratch : Option (List Text.Loose) := none
  deriving DecidableEq, Repr

/-- The register of a name. -/
def lookupLoose (name : Text.Loose) : Except FileError Physical :=
  match name.string?.bind Physical.ofName? with
  | some p => .ok p
  | none => .error (.unknownRegister name)

/-- The register of a name. -/
def lookup (name : String) : Except FileError Physical := lookupLoose (.ofString name)

/-- The registers of the names of a list. -/
def lookupAll (target list : String) (names : List Text.Loose) : Except FileError (List Physical) :=
  (names.mapM lookupLoose).mapError (.badList target list)

/-- The palette that a document asks for. -/
def File.palette (name : String) (names : List Text.Loose) : Except FileError (List Physical) := do
  let rs ← lookupAll name "registers" names
  match rs.find? fun p => !p.allocatable with
  | some p => throw (.notAllocatable name p)
  | none => if rs.isEmpty then throw (.noRegisters name) else return rs

/-- The scratch registers that a document asks for. -/
def File.reserve (name : String) (names : List Text.Loose) : Except FileError (List Physical) := do
  let rs ← lookupAll name "scratch" names
  if rs.length < minScratch then throw (.fewScratch name rs.length) else return rs

/-- The target of what a document says. -/
def ofFile (f : File) : Except FileError Target := do
  let name := if f.name = "" then defaultName else f.name
  let registers ← f.registers.mapM (File.palette name)
  let scratch ← f.scratch.mapM (File.reserve name)
  return Choice.build { registers, scratch } name

/-! ## Documents -/

/-- The fields of a document that describes a target. -/
def fields : List (String × Yaml.Shape) :=
  [("name", .text), ("registers", .texts), ("scratch", .texts)]

/-- What the fields of a document say. -/
def File.ofFields (values : List (String × Yaml.Value)) : File :=
  let names (field : String) : Option (List Text.Loose) :=
    match values.lookup field with
    | some (.list items) => some (items.filterMap Yaml.Value.text?)
    | _ => none
  { name := (((values.lookup "name").bind Yaml.Value.text?).map Text.Loose.text).getD ""
    registers := names "registers"
    scratch := names "scratch" }

/-- The target that a text describes. -/
def parse (text : String) : Except FileError Target := do
  match Yaml.Document.parse? text with
  | none => throw .malformed
  | some d =>
    match d.fields text.length fields with
    | .ok values => ofFile (.ofFields values)
    | .error .malformed => throw .malformed
    | .error .incomparableKey => throw .incomparableKey

end Codegen.Target
