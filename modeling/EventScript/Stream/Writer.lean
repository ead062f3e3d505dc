import EventScript.Bytes
import EventScript.Stream.Error

/-!
# Writing bytes in order

A `Writer` collects bytes that will stand from an address on. Addresses wrap around at 2^32, and a
number of two or four bytes is written only at an address that its width divides. The writer after
an attempt is returned beside the outcome, whether or not the attempt failed.
-/

namespace EventScript

/-- Bytes written so far, and the address of the first one. -/
structure Writer where
  base : UInt32
  bytes : Bytes
deriving DecidableEq, Repr

namespace Writer

/-- A writer that has written nothing yet. -/
def start (base : UInt32) : Writer := ⟨base, []⟩

/-- How many bytes have been written. -/
def size (writer : Writer) : Nat := writer.bytes.length

/-- The address of the next byte. -/
def address (writer : Writer) : UInt32 :=
  writer.base + UInt32.ofNat writer.size

/-- Write bytes. -/
def putBytes (writer : Writer) (bytes : Bytes) : Writer :=
  { writer with bytes := writer.bytes ++ bytes }

/-- Write the lowest bytes of a number. -/
def put (writer : Writer) (width : Width) (value : UInt32) : Writer × Except StreamError Unit :=
  if width.aligned writer.address then
    (writer.putBytes (LittleEndian.encode width.size value.toNat), .ok ())
  else (writer, .error (.misaligned writer.address width))

/-- Replace the four bytes at an offset from the first one by a number. -/
def patch (writer : Writer) (offset : Nat) (value : UInt32) : Writer × Except StreamError Unit :=
  let address := writer.base + UInt32.ofNat offset
  if !Width.word.aligned address then (writer, .error (.misaligned address .word))
  else if writer.size < offset + 4 then (writer, .error (.outOfRange offset writer.size))
  else
    ({ writer with
        bytes := writer.bytes.take offset ++ LittleEndian.encode 4 value.toNat ++
          writer.bytes.drop (offset + 4) }, .ok ())

end Writer

end EventScript
