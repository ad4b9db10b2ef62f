import MessageMapping.Command.Basic

/-!
# The program

Reads the arguments, the standard input and the file that a command needs, and prints its report.
-/

open MessageMapping

/-- The content of a file, if it can be read. -/
def readFile? (path : String) : IO (Option ByteArray) := do
  try return some (← IO.FS.readBinFile path) catch _ => return none

def main (args : List String) : IO UInt32 := do
  let report ←
    match Command.ofArgs? args with
    | none => pure Report.misuse
    | some command => do
      let stdin ←
        if command.readsInput then (← IO.getStdin).readBinToEnd else pure ByteArray.empty
      let content ←
        match command.file? with
        | some path => readFile? path
        | none => pure none
      pure (command.run stdin fun _ => content)
  IO.print report.out
  IO.eprint report.err
  return report.code
