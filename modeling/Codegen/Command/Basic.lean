/-
  Commands: what they are told and what they do.

  A command is a function from its arguments and settings to an `Outcome`; the
  outer layer only carries the outcome out.
-/
import Codegen.Session
import Codegen.Text.Numeral

namespace Codegen.Command

/-- What a command leaves behind. -/
structure Outcome where
  /-- The text for the standard output. -/
  output : String := ""
  /-- The exit code. -/
  code : Nat := 0
  /-- What was recorded on the way. -/
  records : List Record := []
  /-- A file to be written, by name and contents.  If it cannot be written, the
      command has failed. -/
  file : Option (String × String) := none
  deriving DecidableEq, Repr

/-- The exit code of a command whose work failed. -/
def failed : Nat := 1

/-- The exit code of a command that was misused or broke off. -/
def broken : Nat := 2

/-- What the environment says. -/
structure Settings where
  /-- Are intermediate results displayed? -/
  verbose : Bool := false
  /-- The greatest number of registers to hand out. -/
  paletteSize : Option Int := none
  /-- The size of the sample. -/
  sampleSize : Option Int := none
  deriving DecidableEq, Repr

/-- The words for "yes". -/
def affirmations : List String :=
  ["true", "t", "yes", "y", "enable", "enabled", "positive", "affirmative", "absolutely"]

/-- Does the text say "yes"?  A word counts in small letters, in capitals, or with
    a capital at its start. -/
def saysYes (s : String) : Bool :=
  s == "1" || affirmations.any fun w => s == w || s == w.toUpper || s == w.capitalize

/-- The settings that environment variables give.  A number that cannot be read
    counts as not given. -/
def Settings.ofLookup (value? : String → Option String) : Settings where
  verbose := ((value? "TILECC_PRINT").map saysYes).getD false
  paletteSize := (value? "TILECC_PALETTE_SIZE").bind Text.decimal?
  sampleSize := (value? "TILECC_SAMPLE_N").bind Text.decimal?

end Codegen.Command
