import EventScript.Assembly
import EventScript.Error

/-!
# Placing events

A relocator gives each event its place in the image. An event that is not larger than its capacity
stays where its table points to. A larger one is assembled again in free space, and the table is
made to point there. `Relocator.place` returns the relocator and the table beside its result,
because a placement that fails can leave traces in both.
-/

namespace EventScript

open Text

/-- Where an event was placed. -/
structure Placement where
  /-- Table and id of the event, as they are written in faults. -/
  unit : String
  table : String
  id : UInt32
  address : UInt32
  size : Nat
  /-- The number of bytes it could take in its first place. -/
  capacity : Nat
  /-- It was placed in free space. -/
  relocated : Bool
deriving DecidableEq, Repr

/-- What has been placed so far. -/
structure Relocator where
  grammar : Grammar
  layout : Layout
  space : FreeSpace
  /-- Tables and ids of the events that were to be placed, whether or not they could be. -/
  placed : List (String × UInt32)
  patches : PatchSet
  placements : List Placement
deriving DecidableEq, Repr

namespace Relocator

/-- Nothing is placed yet. -/
def start (grammar : Grammar) (layout : Layout) : Relocator :=
  { grammar := grammar
    layout := layout
    space := .ofLayout layout
    placed := []
    patches := .empty
    placements := [] }

/-- How the event of a table with an id is named. -/
def unitName (table : String) (id : UInt32) : String :=
  s!"{table}[{Numeral.hex id.toNat}]"

/-- Assemble a script for the event with an id, in its place if it fits and in free space if it does
not. The result says whether the event was relocated. -/
def locate (relocator : Relocator) (table : PointerTable) (id : UInt32) (capacity : Nat)
    (script : String) (constants : Constants) :
    Relocator × PointerTable × Except BuildError (Bool × Assembly) :=
  match table.get id with
  | .error fault => (relocator, table, .error (.table fault))
  | .ok address =>
      match assemble relocator.grammar address constants script with
      | .error fault => (relocator, table, .error (.assembly fault))
      | .ok inPlace =>
          if inPlace.size ≤ capacity then (relocator, table, .ok (false, inPlace))
          else
            match relocator.space.allocate (unitName table.name id)
                (UInt64.ofNat inPlace.size) with
            | .error fault => (relocator, table, .error (.allocation fault))
            | .ok (free, space) =>
                let relocator := { relocator with space := space }
                match assemble relocator.grammar free constants script with
                | .error fault => (relocator, table, .error (.assembly fault))
                | .ok moved =>
                    match table.set id free with
                    | .error fault => (relocator, table, .error (.table fault))
                    | .ok table => (relocator, table, .ok (true, moved))

/-- Note an assembled event and the patch that writes it. -/
def record (relocator : Relocator) (table : String) (id : UInt32) (capacity : Nat)
    (relocated : Bool) (offset : UInt32) (assembly : Assembly) : Relocator :=
  let unit := unitName table id
  { relocator with
    patches := relocator.patches.insert unit offset assembly.bytes
    placements := relocator.placements ++
      [{ unit := unit
         table := table
         id := id
         address := assembly.base
         size := assembly.size
         capacity := capacity
         relocated := relocated }] }

/-- Place the event of a table with an id. An event is placed at most once. -/
def place (relocator : Relocator) (table : PointerTable) (id : UInt32) (capacity : Nat)
    (script : String) (constants : Constants) :
    Relocator × PointerTable × Except BuildError Assembly :=
  if relocator.placed.contains (table.name, id) then
    (relocator, table, .error (.allocation (.alreadyPlaced (unitName table.name id))))
  else
    let marked := { relocator with placed := (table.name, id) :: relocator.placed }
    match marked.locate table id capacity script constants with
    | (after, changed, .error fault) => (after, changed, .error fault)
    | (after, changed, .ok (relocated, assembly)) =>
        match after.layout.toOffset assembly.base with
        | .error fault => (after, changed, .error (.image fault))
        | .ok offset =>
            (after.record table.name id capacity relocated offset assembly, changed, .ok assembly)

end Relocator

end EventScript
