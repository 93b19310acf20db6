import A64Disassembler.Host.Arguments
import A64Disassembler.Host.Libraries

/-!
# The command

Reads the arguments and the file, runs the command, and writes what it leaves behind.
-/

open A64Disassembler

/-- The content of a file, if it can be read. -/
def readInput (path : String) : IO (Option ByteArray) := do
  try
    return some (← IO.FS.readBinFile path)
  catch _ =>
    return none

/-- Runs the command. Whether the output is a terminal is not looked at. -/
def main (arguments : List String) : IO UInt32 := do
  let outcome ← match (Host.given? arguments).bind (·.settings? .off) with
    | none => pure Command.usageError
    | some settings =>
      match ← readInput settings.path with
      | none => pure Command.readError
      | some data => pure (Command.runOn Host.libraries settings data)
  outcome.stderr.forM IO.eprintln
  IO.print outcome.stdout
  return UInt32.ofNat outcome.code
