/-
  The command line: `verify-spill` and `loopsum`.

  The settings come from the environment variables `TILECC_PRINT`,
  `TILECC_PALETTE_SIZE` and `TILECC_SAMPLE_N`.  What was recorded on the way
  goes to the standard error.
-/
import Codegen.Command.LoopSum
import Codegen.Command.SpillCheck

open Codegen Codegen.Command

/-- The settings of the environment. -/
def settingsOfEnvironment : IO Settings := do
  let names := ["TILECC_PRINT", "TILECC_PALETTE_SIZE", "TILECC_SAMPLE_N"]
  let values ← names.filterMapM fun name => do
    return (← IO.getEnv name).map (name, ·)
  return Settings.ofLookup fun name => values.lookup name

/-- Carries out what a command decided. -/
def carryOut (o : Outcome) : IO UInt32 := do
  for r in o.records do
    IO.eprintln r.text
  IO.print o.output
  match o.file with
  | none => return o.code.toUInt32
  | some (name, text) =>
    try
      IO.FS.writeFile name text
      return o.code.toUInt32
    catch e =>
      IO.eprintln s!"Failed to save report: create report file: {e}"
      return failed.toUInt32

/-- Runs the command that the first argument names. -/
def main (arguments : List String) : IO UInt32 := do
  let settings ← settingsOfEnvironment
  match arguments with
  | "verify-spill" :: rest => carryOut (spillCheck (fun _ => true) rest settings)
  | "loopsum" :: _ => carryOut (loopSum settings)
  | _ =>
    IO.eprintln "usage: verify-spill [-values n] [-o file] | loopsum"
    return broken.toUInt32
