import EventScript.Build
import EventScript.CommandLine.Arguments

/-!
# The assembler's command line

`assemblerMain` assembles one source file with the built-in instructions and writes the bytes to a
file. It exits with zero, with one after a fault, and with two if its arguments are wrong.
-/

namespace EventScript.CommandLine

open Text

/-- A path has to have at least one character. -/
def isPath (text : String) : Bool := !text.isEmpty

/-- The text is a 32-bit number. -/
def isNumber (text : String) : Bool := (Numeral.word? text.toList).isSome

/-- The 32-bit number in a text, or the given one if there is none. -/
def numberOr (fallback : UInt32) (text : Option String) : UInt32 :=
  (text.bind fun text => Numeral.word? text.toList).getD fallback

/-- The arguments of the assembler: its options and one path. -/
def assemblerCommand : Command :=
  { options :=
      [ { key := "base", long := some "base", short := some 'b', accepts := some isNumber },
        { key := "define", short := some 'D', accepts := some fun _ => true, repeats := true },
        { key := "constants", long := some "constants", accepts := some isPath },
        { key := "listing", long := some "listing" },
        { key := "output", long := some "output", short := some 'o', accepts := some isPath } ]
    limit := some 1
    accepts := isPath
    versioned := true }

/-- The version of the programs. -/
def version : String := "0.1.0\n"

/-- How the assembler is called. -/
def assemblerUsage : String :=
  "usage: [-b N] [-D NAME[=VALUE]]... [--constants FILE] [--listing] [-o FILE] SOURCE\n"

/-- What the assembler is asked to do. -/
structure AssemblerTask where
  /-- Address of the first byte. -/
  base : UInt32
  /-- Definitions, each a name or a name and a value divided by `=`. -/
  defines : List String
  /-- Path of a JSON file of constants. -/
  constants : Option String
  /-- Print a line for each record. -/
  listing : Bool
  output : String
  source : String
deriving DecidableEq, Repr

/-- The task that arguments describe. Without a path for the output, it is the source's with the
extension `bin`. -/
def AssemblerTask.ofArguments (arguments : List String) : Except Refusal AssemblerTask :=
  match parse assemblerCommand arguments with
  | .error refusal => .error refusal
  | .ok parsed =>
      match parsed.positional with
      | [source] =>
          .ok
            { base := numberOr 0x08000000 (parsed.value? "base")
              defines := parsed.values "define"
              constants := parsed.value? "constants"
              listing := parsed.has "listing"
              output := (parsed.value? "output").getD (Path.withExtension source "bin")
              source := source }
      | _ => .error .usage

/-- Add definitions to a table. -/
def addDefines (table : Defines) : List String → Except ProgramError Defines
  | [] => .ok table
  | text :: rest =>
      let name := text.toList.takeWhile (· ≠ '=')
      let value := (text.toList.dropWhile (· ≠ '=')).drop 1
      if name = [] then .error (.emptyDefine text)
      else addDefines (table.insert (String.ofList name) (String.ofList value)) rest

/-- The line of the listing for a record: its address, its bytes and its mnemonic. -/
def listingLine (record : Record) : String :=
  let bytes := " ".intercalate (record.bytes.map Bytes.hexByte)
  let padding := String.ofList (List.replicate (36 - bytes.length) ' ')
  Numeral.address record.address ++ "  " ++ bytes ++ padding ++ " " ++ record.mnemonic ++ "\n"

section

variable {m : Type → Type} [Monad m]

/-- The constants in a JSON file. -/
def readConstants (host : Host m) (path : String) : Program m Constants := do
  match Constants.ofJson (← host.readText path) with
  | .error fault => throw (.parsing path fault)
  | .ok constants => pure constants

/-- Assemble as the task says. -/
def AssemblerTask.run (host : Host m) (task : AssemblerTask) : Program m Unit := do
  let source ← host.readText task.source
  let defines ← match addDefines .empty task.defines with
    | .error fault => throw fault
    | .ok defines => pure defines
  let constants ← match task.constants with
    | none => pure .empty
    | some path => readConstants host path
  match (assembleSource .builtin task.base constants defines source).2 with
  | .error fault => throw (.assembling task.source fault)
  | .ok assembly => do
      if task.listing then
        host.print (String.join (assembly.records.map listingLine))
      host.writeBytes task.output assembly.bytes

/-- Run a program and report its fault. -/
def finish (host : Host m) (program : Program m Unit) : m UInt32 := do
  match ← program.run with
  | .ok () => pure 0
  | .error fault => do
      let cause := (fault.cause?.map fun text => "\n\nCaused by:\n    " ++ text).getD ""
      host.report ("Error: " ++ fault.title ++ cause ++ "\n")
      pure 1

/-- Report that a command does not run, or print what was asked for instead. -/
def refuse (host : Host m) (usage : String) : Refusal → m UInt32
  | .help => do
      host.print usage
      pure 0
  | .version => do
      host.print version
      pure 0
  | .usage => do
      host.report usage
      pure 2

/-- The assembler. -/
def assemblerMain (host : Host m) (arguments : List String) : m UInt32 :=
  match AssemblerTask.ofArguments arguments with
  | .error refusal => refuse host assemblerUsage refusal
  | .ok task => finish host (task.run host)

end

end EventScript.CommandLine
