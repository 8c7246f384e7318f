/-
  Command-line flags.

  A flag starts with one or two dashes; its value follows an equals sign or is
  the next argument.  Flags end at the first argument that is none, or after
  `--`.  The last value given to a flag counts.
-/
import Codegen.Text.Numeral

namespace Codegen.Command

/-- What the flags of a command say. -/
structure Flags where
  /-- The number of values alive at once. -/
  values : Int := 12
  /-- The file to save the report to; none if it has no name. -/
  output : String := ""
  deriving DecidableEq, Repr

/-- Why there is nothing to do. -/
inductive FlagStop where
  /-- Help was asked for. -/
  | help
  /-- The arguments make no sense. -/
  | misuse
  deriving DecidableEq, Repr

namespace Flags

/-- What an argument is. -/
inductive Shape where
  /-- A flag with the value that follows an equals sign, if there is one. -/
  | flag (name : String) (value : Option String)
  /-- The end of the flags. -/
  | stop
  /-- A dash too many, or no name. -/
  | malformed
  deriving DecidableEq, Repr

/-- The name of a flag and the value that follows an equals sign. -/
def split (cs : List Char) : String × Option String :=
  let name := String.ofList (cs.takeWhile (· ≠ '='))
  match cs.dropWhile (· ≠ '=') with
  | [] => (name, none)
  | _ :: value => (name, some (String.ofList value))

/-- What an argument is. -/
def shape (argument : String) : Shape :=
  match argument.toList with
  | ['-', '-'] => .stop
  | '-' :: '-' :: cs => named cs
  | ['-'] => .stop
  | '-' :: cs => named cs
  | _ => .stop
where
  named : List Char → Shape
    | [] => .malformed
    | '-' :: _ => .malformed
    | '=' :: _ => .malformed
    | cs => .flag (split cs).1 (split cs).2

/-- The flags with one of them set. -/
def set (f : Flags) (name value : String) : Except FlagStop Flags :=
  if name = "values" then
    match Text.literal? value with
    | some n => .ok { f with values := n }
    | none => .error .misuse
  else .ok { f with output := value }

/-- Adds what the arguments say. -/
def read : List String → Flags → Except FlagStop Flags
  | [], f => .ok f
  | argument :: rest, f =>
    match shape argument with
    | .stop => .ok f
    | .malformed => .error .misuse
    | .flag name value =>
      if name = "values" ∨ name = "o" then
        match value, rest with
        | some v, rest => (f.set name v).bind (read rest)
        | none, v :: rest => (f.set name v).bind (read rest)
        | none, [] => .error .misuse
      else if name = "help" ∨ name = "h" then .error .help
      else .error .misuse

/-- What the arguments of a command say. -/
def parse (arguments : List String) : Except FlagStop Flags := read arguments {}

end Flags

end Codegen.Command
