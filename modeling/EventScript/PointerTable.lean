import EventScript.Patch
import EventScript.Stream.Writer

/-!
# Tables of pointers

A pointer table of an image holds the addresses of events, which are known by consecutive ids. A
table that was changed is written back as a whole, as one patch; a table that was not changed is not
written.
-/

namespace EventScript

open Text

/-- Why a table or an entry of it cannot be found. -/
inductive TableError where
  /-- The table has no entry for the id; its ids go from `first` up to, not including, `stop`. -/
  | unknownId (table : String) (id first stop : UInt32)
  /-- There is no table of this name. -/
  | unknownTable (name : String)
  /-- The table cannot be read from the image. -/
  | image (table : String) (fault : ImageError)
deriving DecidableEq, Repr

/-- The text that reports the fault. -/
def TableError.message : TableError → String
  | .unknownId table id first stop =>
      s!"id {Numeral.hex id.toNat} is not in table `{table}` " ++
        s!"(ids {Numeral.hex first.toNat}..{Numeral.hex stop.toNat})"
  | .unknownTable name => s!"no table named `{name}`"
  | .image table fault => s!"table `{table}`: {fault.message}"

/-- A table of pointers to events. -/
structure PointerTable where
  name : String
  /-- Offset of the first entry in the image. -/
  offset : UInt32
  /-- Id of the first entry. -/
  baseId : UInt32
  entries : List UInt32
  /-- An entry was given another value. -/
  dirty : Bool := false
deriving DecidableEq, Repr

namespace PointerTable

/-- Read a table of `count` entries from an image. -/
def load (image : Image) (name : String) (offset : UInt32) (count : UInt64) (baseId : UInt32) :
    Except TableError PointerTable :=
  match image.pointers offset count with
  | .error fault => .error (.image name fault)
  | .ok entries => .ok { name, offset, baseId, entries }

/-- The id behind the last one, or the largest number if there is none. -/
def stopId (table : PointerTable) : UInt32 :=
  let count := UInt32.ofNat table.entries.length
  if table.baseId.toNat + count.toNat < UInt32.size then table.baseId + count else 0xffffffff

/-- The index of the entry for an id. -/
def index? (table : PointerTable) (id : UInt32) : Option Nat :=
  if table.baseId ≤ id ∧ (id - table.baseId).toNat < table.entries.length then
    some (id - table.baseId).toNat
  else none

/-- The fault that the table has no entry for an id. -/
def unknownId (table : PointerTable) (id : UInt32) : TableError :=
  .unknownId table.name id table.baseId table.stopId

/-- The address of the event with an id. -/
def get (table : PointerTable) (id : UInt32) : Except TableError UInt32 :=
  match table.index? id with
  | none => .error (table.unknownId id)
  | some index => .ok (table.entries.getD index 0)

/-- Let the entry for an id point to an address. -/
def set (table : PointerTable) (id address : UInt32) : Except TableError PointerTable :=
  match table.index? id with
  | none => .error (table.unknownId id)
  | some index =>
      if table.entries.getD index 0 = address then .ok table
      else .ok { table with entries := table.entries.set index address, dirty := true }

/-- Write words in order. -/
def putWords (writer : Writer) : List UInt32 → Except StreamError Writer
  | [] => .ok writer
  | value :: rest =>
      match writer.put .word value with
      | (_, .error fault) => .error fault
      | (after, .ok ()) => putWords after rest

/-- The patch that writes the table back, if it was changed. -/
def patches (table : PointerTable) : Except StreamError PatchSet :=
  if table.dirty then
    match putWords (.start table.offset) table.entries with
    | .error fault => .error fault
    | .ok writer => .ok (PatchSet.empty.insert table.name table.offset writer.bytes)
  else .ok .empty

end PointerTable

end EventScript
