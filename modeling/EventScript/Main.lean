import EventScript.CommandLine.Patcher

/-!
# The program

The first argument selects the tool: `assemble` is the assembler, and every other command is one of
the patcher's.
-/

namespace EventScript

/-- Do something with a file, and say whether it could be done. -/
def attempt (act : IO Unit) : IO Bool := do
  try
    act
    pure true
  catch _ => pure false

/-- The computer as a host. -/
def computer : Host IO where
  read path := do
    try
      let bytes ← IO.FS.readBinFile path
      pure (some bytes.toList)
    catch _ => pure none
  write path bytes := attempt (IO.FS.writeBinFile path ⟨bytes.toArray⟩)
  makeFolders path := if path.isEmpty then pure true else attempt (IO.FS.createDirAll path)
  print text := do (← IO.getStdout).putStr text
  report text := do (← IO.getStderr).putStr text

end EventScript

/-- Run the tool that the first argument selects. -/
def main (arguments : List String) : IO UInt32 :=
  match arguments with
  | "assemble" :: rest => EventScript.CommandLine.assemblerMain EventScript.computer rest
  | other => EventScript.CommandLine.patcherMain EventScript.computer other
