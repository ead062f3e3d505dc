import EventScript.Layout

/-!
# Free space

Free space is a stretch of addresses that is given away from its start. Every allocation starts at a
multiple of four, and nothing is ever given back. Sums are taken in 64 bits, and one that does not
fit stops the run.
-/

namespace EventScript

/-- A piece of free space and what it was given to. -/
structure Allocation where
  owner : String
  address : UInt32
  size : UInt64
deriving DecidableEq, Repr

/-- Why free space cannot be given away. -/
inductive AllocationError where
  /-- Fewer bytes are left than asked for. -/
  | outOfSpace (owner : String) (size : UInt64) (remaining : UInt32)
  /-- The unit has its place already. -/
  | alreadyPlaced (unit : String)
  /-- The end of the piece cannot be written in 64 bits, and the run stops. -/
  | overflow
deriving DecidableEq, Repr

/-- The text that reports the fault. -/
def AllocationError.message : AllocationError → String
  | .outOfSpace owner size remaining =>
      s!"out of free space placing `{owner}`: needs {size.toNat} bytes, {remaining.toNat} left"
  | .alreadyPlaced unit => s!"`{unit}` was already placed in this run"
  | .overflow => "attempt to add with overflow"

/-- A stretch of addresses, of which the part before the cursor is given away. -/
structure FreeSpace where
  base : UInt32
  /-- The address behind the last byte. -/
  stop : UInt64
  cursor : UInt64
  /-- What was given away, in order. -/
  allocations : List Allocation
deriving DecidableEq, Repr

namespace FreeSpace

/-- The stretch of `size` bytes at an address, nothing of which is given away. -/
def start (base size : UInt32) : FreeSpace :=
  { base := base
    stop := base.toUInt64 + size.toUInt64
    cursor := base.toUInt64
    allocations := [] }

/-- The free space of a layout. -/
def ofLayout (layout : Layout) : FreeSpace :=
  start layout.freeBase layout.freeSize

/-- How many bytes are left. -/
def remaining (space : FreeSpace) : UInt32 :=
  (space.stop - min space.cursor space.stop).toUInt32

/-- The first multiple of four that is not before the cursor. -/
def next (space : FreeSpace) : UInt64 :=
  (space.cursor + 3) / 4 * 4

/-- Give `size` bytes to an owner. -/
def allocate (space : FreeSpace) (owner : String) (size : UInt64) :
    Except AllocationError (UInt32 × FreeSpace) :=
  let stop := space.next + size
  if UInt64.size ≤ space.next.toNat + size.toNat then .error .overflow
  else if space.stop < stop then .error (.outOfSpace owner size space.remaining)
  else
    let address := space.next.toUInt32
    .ok (address,
      { space with
        cursor := stop
        allocations := space.allocations ++ [⟨owner, address, size⟩] })

end FreeSpace

end EventScript
