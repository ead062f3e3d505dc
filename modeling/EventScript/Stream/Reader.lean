import EventScript.Bytes
import EventScript.Stream.Error

/-!
# Reading bytes in order

A `Reader` is a byte string with a position in it. A read either returns a value and the reader
behind it, or a fault, in which case the reader at hand stays as good as before. A checked reader
reads numbers of two and four bytes only at positions that the width divides.
-/

namespace EventScript

/-- A byte string and a position in it. -/
structure Reader where
  data : Bytes
  position : Nat
  /-- Positions of numbers are checked against their widths. -/
  checked : Bool
deriving DecidableEq, Repr

namespace Reader

/-- A checked reader at the start of a byte string. -/
def ofBytes (data : Bytes) : Reader := ⟨data, 0, true⟩

/-- A reader at the start of a byte string that reads numbers at any position. -/
def unchecked (data : Bytes) : Reader := ⟨data, 0, false⟩

/-- The number of bytes, read or not. -/
def size (reader : Reader) : Nat := reader.data.length

/-- Nothing is left to read. -/
def atEnd (reader : Reader) : Bool := reader.size ≤ reader.position

/-- Read `count` bytes. -/
def take (reader : Reader) (count : Nat) : Except StreamError (Bytes × Reader) :=
  if reader.size < reader.position + count then
    .error (.endOfStream reader.position reader.size)
  else
    .ok ((reader.data.drop reader.position).take count,
      { reader with position := reader.position + count })

/-- Read a number of the given width. A misplaced number is reported before a missing one. -/
def read (reader : Reader) (width : Width) : Except StreamError (UInt32 × Reader) :=
  let address := UInt32.ofNat reader.position
  if reader.checked && !width.aligned address then .error (.misaligned address width)
  else
    match reader.take width.size with
    | .error fault => .error fault
    | .ok (bytes, after) => .ok (UInt32.ofNat (LittleEndian.decode bytes), after)

end Reader

end EventScript
