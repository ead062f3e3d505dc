import EventScript.CommandLine.Assembler

/-!
# The patcher's command line

`patcherMain` has three commands: `build` builds the image of a manifest and prints a report,
`apply` writes IPS files over an image, and `dis` lists the event at an offset of an image.
-/

namespace EventScript.CommandLine

/-- What the patcher is asked to do. -/
inductive PatcherTask where
  /-- Build the image of a manifest, and print the report over several lines if it is to be pretty.
  -/
  | build (manifest : String) (pretty : Bool)
  /-- Write IPS files over an image. -/
  | apply (image : String) (ips : List String) (output : String)
  /-- List the event at an offset of an image that stands at an address. -/
  | list (image : String) (offset loadBase : UInt32)
deriving DecidableEq, Repr

/-- How the patcher is called. -/
def patcherUsage : String :=
  "usage: build [--pretty] MANIFEST\n" ++
  "       apply ROM IPS... -o FILE\n" ++
  "       dis ROM --offset N [--load-base N]\n"

namespace PatcherTask

/-- The arguments in front of a command: no more than a request for help or the version. -/
def noCommand : Command :=
  { options := [], limit := some 0, accepts := isPath, versioned := true }

/-- The arguments of the command `build`. -/
def buildCommand : Command :=
  { options := [{ key := "pretty", long := some "pretty" }]
    limit := some 1
    accepts := isPath }

/-- The arguments of the command `apply`. -/
def applyCommand : Command :=
  { options :=
      [{ key := "output", long := some "output", short := some 'o', accepts := some isPath }]
    limit := none
    accepts := isPath }

/-- The arguments of the command `dis`. -/
def listCommand : Command :=
  { options :=
      [ { key := "offset", long := some "offset", accepts := some isNumber },
        { key := "load-base", long := some "load-base", accepts := some isNumber } ]
    limit := some 1
    accepts := isPath }

/-- The task of the command `build`. -/
def ofBuild (arguments : List String) : Except Refusal PatcherTask :=
  match parse buildCommand arguments with
  | .error refusal => .error refusal
  | .ok parsed =>
      match parsed.positional with
      | [manifest] => .ok (.build manifest (parsed.has "pretty"))
      | _ => .error .usage

/-- The task of the command `apply`. -/
def ofApply (arguments : List String) : Except Refusal PatcherTask :=
  match parse applyCommand arguments with
  | .error refusal => .error refusal
  | .ok parsed =>
      match parsed.positional, parsed.value? "output" with
      | image :: first :: more, some output => .ok (.apply image (first :: more) output)
      | _, _ => .error .usage

/-- The task of the command `dis`. -/
def ofList (arguments : List String) : Except Refusal PatcherTask :=
  match parse listCommand arguments with
  | .error refusal => .error refusal
  | .ok parsed =>
      match parsed.positional, parsed.value? "offset" with
      | [image], some offset =>
          .ok (.list image (numberOr 0 (some offset))
            (numberOr 0x08000000 (parsed.value? "load-base")))
      | _, _ => .error .usage

/-- What the command `help` answers, which may be given the name of one command. -/
def ofHelp : List String → Refusal
  | [] => .help
  | [command] => if ["build", "apply", "dis", "help"].contains command then .help else .usage
  | _ => .usage

/-- The task that arguments describe. The first argument is the command. -/
def ofArguments : List String → Except Refusal PatcherTask
  | [] => .error .usage
  | command :: arguments =>
      if command = "build" then ofBuild arguments
      else if command = "apply" then ofApply arguments
      else if command = "dis" then ofList arguments
      else if command = "help" then .error (ofHelp arguments)
      else
        match parse noCommand (command :: arguments) with
        | .error refusal => .error refusal
        | .ok _ => .error .usage

/-- The listing of the event at an offset of an image. -/
def listing (image : Image) (offset loadBase : UInt32) : Except ProgramError String :=
  match image.eventSize offset with
  | .error fault => .error (.image fault)
  | .ok size =>
      let layout : Layout := { loadBase := loadBase }
      match layout.toPointer offset with
      | .error fault => .error (.image fault)
      | .ok address =>
          (Listing.text .builtin address ((image.bytes.drop offset.toNat).take size)).mapError
            .listing

section

variable {m : Type → Type} [Monad m]

/-- Do what the task says. -/
def run (host : Host m) : PatcherTask → Program m Unit
  | .build path pretty => do
      let manifest ← Manifest.load host path
      let report ← EventScript.build host manifest
      let value := report.value
      host.print ((if pretty then value.pretty else value.compact) ++ "\n")
  | .apply path ips output => do
      let image ← host.readBytes path
      let files ← host.readIps [] ips
      let patches := files.foldl (fun set file => set.append file.patches) PatchSet.empty
      match patches.compose ⟨image⟩ with
      | .error fault => throw (.patch fault)
      | .ok patched => do
          host.writeBytes output patched.bytes
          host.print s!"{patches.size} patches, {patches.totalBytes} bytes -> {output}\n"
  | .list path offset loadBase => do
      match listing ⟨← host.readBytes path⟩ offset loadBase with
      | .error fault => throw fault
      | .ok text => host.print text

end

end PatcherTask

/-- The patcher. -/
def patcherMain {m : Type → Type} [Monad m] (host : Host m) (arguments : List String) : m UInt32 :=
  match PatcherTask.ofArguments arguments with
  | .error refusal => refuse host patcherUsage refusal
  | .ok task => finish host (task.run host)

end EventScript.CommandLine
