import EventScript.File.Host
import EventScript.Json.Value
import EventScript.Listing
import EventScript.Manifest
import EventScript.Script

/-!
# Building from a manifest

`Manifest.load` reads a manifest, `Job.load` everything it names, and `build` writes the image that
is built. All of them run on a host. Files are read in a fixed order, so the first that cannot be
read is the one reported.
-/

namespace EventScript

/-- Why a program fails. -/
inductive ProgramError where
  | reading (path : String)
  | creating (path : String)
  | writing (path : String)
  /-- The file is not text in UTF-8. -/
  | notText (path : String)
  | parsing (path : String) (fault : Json.Error)
  | assembling (path : String) (fault : ScriptError)
  /-- A definition on the command line has no name. -/
  | emptyDefine (text : String)
  | mnemonic (fault : MnemonicError)
  | ips (fault : IpsError)
  | patch (fault : PatchError)
  | image (fault : ImageError)
  | listing (fault : Listing.Error)
  | build (fault : BuildError)
deriving DecidableEq, Repr

namespace ProgramError

/-- What the program was doing, or what is wrong. -/
def title : ProgramError → String
  | reading path => s!"reading {path}"
  | creating path => s!"creating {path}"
  | writing path => s!"writing {path}"
  | notText path => s!"{path} is not UTF-8"
  | parsing path _ => s!"parsing {path}"
  | assembling path _ => s!"assembling {path}"
  | emptyDefine text => s!"empty define name in `-D {text}`"
  | mnemonic fault => fault.title
  | ips fault => fault.message
  | patch fault => fault.message
  | image fault => fault.message
  | listing fault => fault.message
  | build fault => fault.message

/-- What is wrong, where the title only says what the program was doing. -/
def cause? : ProgramError → Option String
  | parsing _ fault => some fault.message
  | assembling _ fault => some fault.message
  | mnemonic fault => some fault.fault.message
  | _ => none

end ProgramError

/-- A program that runs on a host and can fail. -/
abbrev Program (m : Type → Type) := ExceptT ProgramError m

/-- What was built. -/
structure Report where
  /-- Path of the image. -/
  output : String
  summary : Summary
deriving DecidableEq, Repr

section

variable {m : Type → Type} [Monad m]

namespace Host

/-- The bytes of a file. -/
def readBytes (host : Host m) (path : String) : Program m Bytes := do
  match ← host.read path with
  | some bytes => pure bytes
  | none => throw (.reading path)

/-- The text in bytes that are UTF-8. -/
def textOf? (bytes : Bytes) : Option String :=
  String.fromUTF8? ⟨bytes.toArray⟩

/-- The text of a file, which has to be UTF-8. -/
def readText (host : Host m) (path : String) : Program m String := do
  match textOf? (← host.readBytes path) with
  | some text => pure text
  | none => throw (.reading path)

/-- Write a file. -/
def writeBytes (host : Host m) (path : String) (bytes : Bytes) : Program m Unit := do
  unless ← host.write path bytes do throw (.writing path)

/-- Read IPS files in order, each path once; a path is named as it is first spelled. -/
def readIps (host : Host m) (seen : List (Bool × Bool × List (List Char))) :
    List String → Program m (List IpsFile)
  | [] => pure []
  | path :: rest => do
      if seen.contains (Path.components path) then readIps host seen rest
      else
        match IpsFile.parse path (← host.readBytes path) with
        | .error fault => throw (.ips fault)
        | .ok file => do
            let files ← readIps host (Path.components path :: seen) rest
            pure (file :: files)

end Host

namespace Manifest

/-- Read the manifest with a path. -/
def load (host : Host m) (path : String) : Program m Manifest := do
  let text ← host.readText path
  match ofJson ((Path.parent? path).getD ".") text with
  | .error fault => throw (.parsing path fault)
  | .ok manifest => pure manifest

/-- The text of a file that the manifest names. -/
def readText (host : Host m) (manifest : Manifest) (path : String) : Program m String := do
  match Host.textOf? (← host.readBytes (manifest.resolve path)) with
  | some text => pure text
  | none => throw (.notText path)

/-- The text in front of every event's: the texts of the headers, each with a line feed behind it.
-/
def readHeader (host : Host m) (manifest : Manifest) : List String → Program m String
  | [] => pure ""
  | path :: rest => do
      let text ← readText host manifest path
      let more ← readHeader host manifest rest
      pure (text ++ "\n" ++ more)

/-- The events with their source texts. -/
def readEvents (host : Host m) (manifest : Manifest) : List EventSpec → Program m (List Event)
  | [] => pure []
  | spec :: rest => do
      let source ← readText host manifest spec.source
      let events ← readEvents host manifest rest
      pure ({ table := spec.table
              id := spec.id
              capacity := spec.capacity.map UInt32.toNat
              source := source } :: events)

end Manifest

/-- Read everything that a manifest names. -/
def Job.load (host : Host m) (manifest : Manifest) : Program m Job := do
  let header ← Manifest.readHeader host manifest manifest.headers
  let events ← Manifest.readEvents host manifest manifest.events
  let ips ← host.readIps [] (manifest.ips.map manifest.resolve)
  let image ← host.readBytes (manifest.resolve manifest.image)
  match manifest.grammar with
  | .error fault => throw (.mnemonic fault)
  | .ok grammar =>
      pure
        { image := ⟨image⟩
          layout := manifest.layout
          grammar := grammar
          header := header
          defines := manifest.defines
          constants := manifest.constants
          tables := manifest.tables
          events := events
          ips := ips }

/-- Build the image that a manifest describes and write it, making its folder if need be. -/
def build (host : Host m) (manifest : Manifest) : Program m Report := do
  let job ← Job.load host manifest
  match job.run with
  | .error fault => throw (.build fault)
  | .ok (image, summary) => do
      let output := manifest.resolve manifest.output
      match Path.parent? output with
      | none => pure ()
      | some folder => unless ← host.makeFolders folder do throw (.creating folder)
      host.writeBytes output image.bytes
      pure { output := output, summary := summary }

end

namespace Report

open Json (Value)

/-- A placement in the report. -/
def placementValue (placement : Placement) : Value :=
  .object
    [ ("unit", .text placement.unit),
      ("table", .text placement.table),
      ("id", .number placement.id.toNat),
      ("addr", .number placement.address.toNat),
      ("size", .number placement.size),
      ("capacity", .number placement.capacity),
      ("relocated", .truth placement.relocated) ]

/-- An allocation in the report. -/
def allocationValue (allocation : Allocation) : Value :=
  .object
    [ ("owner", .text allocation.owner),
      ("addr", .number allocation.address.toNat),
      ("size", .number allocation.size.toNat) ]

/-- The report as JSON. -/
def value (report : Report) : Value :=
  .object
    [ ("output", .text report.output),
      ("placements", .array (report.summary.placements.map placementValue)),
      ("allocations", .array (report.summary.allocations.map allocationValue)),
      ("free_remaining", .number report.summary.freeRemaining.toNat),
      ("patches", .number report.summary.patches),
      ("patched_bytes", .number report.summary.patchedBytes) ]

end Report

end EventScript
