import EventScript.Assembly
import EventScript.Source.Expansion

/-!
# From source to records

A script's source is expanded and then assembled. The definitions it makes stay made, whether or not
it can be assembled.
-/

namespace EventScript

/-- Why a source gives no records. -/
inductive ScriptError where
  /-- The source cannot be expanded. -/
  | expansion (fault : ExpansionError)
  /-- The expanded source cannot be assembled. -/
  | assembly (fault : AssemblyError)
deriving DecidableEq, Repr

/-- The text that reports the fault. -/
def ScriptError.message : ScriptError → String
  | .expansion fault => fault.message
  | .assembly fault => fault.message

/-- Expand a source and assemble it at a base address. The result comes with the definitions after
it. -/
def assembleSource (grammar : Grammar) (base : UInt32) (constants : Constants) (defines : Defines)
    (source : String) : Defines × Except ScriptError Assembly :=
  match Source.expand defines source with
  | (after, .error fault) => (after, .error (.expansion fault))
  | (after, .ok script) =>
      (after, (assemble grammar base constants script).mapError .assembly)

end EventScript
