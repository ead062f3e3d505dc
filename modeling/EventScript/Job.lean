import EventScript.Ips
import EventScript.Relocator

/-!
# Jobs

A job is everything that is built into an image: events for tables of the image, and IPS files.
`Job.run` places the events in the order of their tables and ids, and then composes the patches of
the events, of the changed tables and of the IPS files over the image.
-/

namespace EventScript

/-- A pointer table of the image. -/
structure TableSpec where
  name : String
  offset : UInt32
  count : UInt32
  baseId : UInt32 := 0
deriving DecidableEq, Repr

/-- An event to be built. -/
structure Event where
  table : String
  id : UInt32
  /-- The number of bytes it can take in its place; if it is not given, the size of the event that
  stands there. -/
  capacity : Option Nat
  source : String
deriving DecidableEq, Repr

/-- Everything that is built into an image. -/
structure Job where
  image : Image
  layout : Layout
  grammar : Grammar
  /-- Source text in front of every event's. -/
  header : String
  defines : Defines
  constants : Constants
  tables : List TableSpec
  events : List Event
  ips : List IpsFile
deriving DecidableEq, Repr

/-- What a job has done. -/
structure Summary where
  placements : List Placement
  allocations : List Allocation
  freeRemaining : UInt32
  patches : Nat
  patchedBytes : Nat
deriving DecidableEq, Repr

namespace Job

/-- The tables of the image by name. -/
abbrev Tables := Dictionary String PointerTable

/-- Add tables of the image to those loaded already; of two tables with one name the later counts.
-/
def loadTables (image : Image) (tables : Tables) : List TableSpec → Except TableError Tables
  | [] => .ok tables
  | spec :: rest =>
      match PointerTable.load image spec.name spec.offset spec.count.toUInt64 spec.baseId with
      | .error fault => .error fault
      | .ok table => loadTables image (tables.insert spec.name table) rest

/-- The first event is placed before the second: it has a smaller table name, or the same and no
larger id. -/
def placedBefore (first second : Event) : Bool :=
  first.table < second.table || (first.table == second.table && first.id ≤ second.id)

/-- The capacity of an event: the one it is given, or the size of the event that its table points to
in the image. -/
def capacity (job : Job) (table : PointerTable) (event : Event) : Except BuildError Nat :=
  match event.capacity with
  | some capacity => .ok capacity
  | none =>
      match table.get event.id with
      | .error fault => .error (.table fault)
      | .ok address =>
          match job.layout.toOffset address with
          | .error fault => .error (.image fault)
          | .ok offset => (job.image.eventSize offset).mapError .image

/-- Place an event of a table. -/
def placeEvent (job : Job) (relocator : Relocator) (table : PointerTable) (event : Event) :
    Except BuildError (Relocator × PointerTable) :=
  match job.capacity table event with
  | .error fault => .error fault
  | .ok capacity =>
      match (Source.expand job.defines (job.header ++ event.source)).2 with
      | .error fault => .error (.expansion fault)
      | .ok script =>
          match relocator.place table event.id capacity script job.constants with
          | (_, _, .error fault) => .error fault
          | (relocator, table, .ok _) => .ok (relocator, table)

/-- Place events in the given order. -/
def placeEvents (job : Job) (relocator : Relocator) (tables : Tables) :
    List Event → Except BuildError (Relocator × Tables)
  | [] => .ok (relocator, tables)
  | event :: rest =>
      match tables.get? event.table with
      | none => .error (.table (.unknownTable event.table))
      | some table =>
          match job.placeEvent relocator table event with
          | .error fault => .error (.unit (Relocator.unitName event.table event.id) fault)
          | .ok (relocator, table) =>
              job.placeEvents relocator (tables.insert event.table table) rest

/-- Add the patches of tables that were changed. -/
def addTables (set : PatchSet) : List PointerTable → Except StreamError PatchSet
  | [] => .ok set
  | table :: rest =>
      match table.patches with
      | .error fault => .error fault
      | .ok patches => addTables (set.append patches) rest

/-- Build the image. -/
def run (job : Job) : Except BuildError (Image × Summary) :=
  match loadTables job.image .empty job.tables with
  | .error fault => .error (.table fault)
  | .ok tables =>
      match job.placeEvents (.start job.grammar job.layout) tables
          (job.events.mergeSort placedBefore) with
      | .error fault => .error fault
      | .ok (relocator, tables) =>
          match addTables relocator.patches tables.values with
          | .error fault => .error (.stream fault)
          | .ok patches =>
              let patches := job.ips.foldl (fun set file => set.append file.patches) patches
              match patches.compose job.image with
              | .error fault => .error (.patch fault)
              | .ok image =>
                  .ok (image,
                    { placements := relocator.placements
                      allocations := relocator.space.allocations
                      freeRemaining := relocator.space.remaining
                      patches := patches.size
                      patchedBytes := patches.totalBytes })

end Job

end EventScript
