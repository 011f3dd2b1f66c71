import Codegen.Command

/-!
# The program

Runs the command on the arguments and files of the system.
-/

open Codegen

/-- The content of a file, if it can be read. -/
def readText (path : String) : IO (Option String) := do
  try
    return some (← IO.FS.readFile path)
  catch _ => return none

/-- Runs the command. -/
def main (args : List String) : IO UInt32 := do
  let r ← Command.run readText args
  IO.print r.output
  if !r.complaint.isEmpty then IO.eprintln r.complaint
  return UInt32.ofNat r.exitCode
