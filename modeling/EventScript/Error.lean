import EventScript.Assembly.Error
import EventScript.FreeSpace
import EventScript.PointerTable
import EventScript.Source.Expansion

/-!
# Faults of a build
-/

namespace EventScript

/-- Why events cannot be built into an image. -/
inductive BuildError where
  | expansion (fault : ExpansionError)
  | assembly (fault : AssemblyError)
  | stream (fault : StreamError)
  | image (fault : ImageError)
  | patch (fault : PatchError)
  | table (fault : TableError)
  | allocation (fault : AllocationError)
  /-- The fault occurred while the named unit was built. -/
  | unit (name : String) (fault : BuildError)
deriving DecidableEq, Repr

/-- The text that reports the fault. -/
def BuildError.message : BuildError → String
  | .expansion fault => fault.message
  | .assembly fault => fault.message
  | .stream fault => fault.message
  | .image fault => fault.message
  | .patch fault => fault.message
  | .table fault => fault.message
  | .allocation fault => fault.message
  | .unit name fault => s!"unit `{name}`: {fault.message}"

end EventScript
