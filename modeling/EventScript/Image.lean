import EventScript.Image.Error
import EventScript.Stream.Reader

/-!
# Images

An image is the byte string that scripts are built into. It holds tables of pointers and events. An
event is a run of records, each of which tells its size in its second byte, up to a record with
opcode zero.
-/

namespace EventScript

/-- A byte string that holds events and tables of pointers to them. -/
structure Image where
  bytes : Bytes
deriving DecidableEq, Repr

namespace Image

/-- The number of bytes. -/
def size (image : Image) : Nat := image.bytes.length

/-- The opcode of the record that ends an event. -/
def endOpcode : UInt8 := 0

/-- The end of the stretch of `size` bytes at an offset, or of the image if no size is given. It has
to be inside the image, and so has the offset. -/
def stop? (image : Image) (offset : UInt32) (size : Option Nat) : Option Nat :=
  if image.size ≤ offset.toNat then none
  else
    match size with
    | none => some image.size
    | some size => if offset.toNat + size ≤ image.size then some (offset.toNat + size) else none

/-- A reader over the stretch of `size` bytes at an offset, or over the rest of the image if no size
is given. -/
def openAt (image : Image) (offset : UInt32) (size : Option Nat) : Except ImageError Reader :=
  match image.stop? offset size with
  | none => .error (.outOfBounds offset image.size)
  | some stop =>
      .ok (.ofBytes ((image.bytes.drop offset.toNat).take (stop - offset.toNat)))

/-- Read `count` words. -/
def readWords (reader : Reader) : Nat → Except StreamError (List UInt32)
  | 0 => .ok []
  | count + 1 =>
      match reader.read .word with
      | .error fault => .error fault
      | .ok (value, after) =>
          match readWords after count with
          | .error fault => .error fault
          | .ok values => .ok (value :: values)

/-- The `count` pointers of the table at an offset, which has to be a multiple of four. -/
def pointers (image : Image) (offset : UInt32) (count : UInt64) :
    Except ImageError (List UInt32) :=
  if !Width.word.aligned offset then .error (.stream (.misaligned offset .word))
  else if UInt64.size ≤ 4 * count.toNat then .error .overflow
  else
    match image.openAt offset (some (4 * count.toNat)) with
    | .error fault => .error fault
    | .ok reader => (readWords reader count.toNat).mapError .stream

/-- The size of the records in front of `bytes`, up to the first that ends an event. They stand
`position` bytes behind the offset `start`, where `total` bytes are left of the image. -/
def recordsSize (start : UInt32) (total position : Nat) : Bytes → Except ImageError Nat
  | [] => .error (.stream (.endOfStream position total))
  | [_] => .error (.stream (.endOfStream (position + 1) total))
  | opcode :: length :: rest =>
      if length < 2 then .error (.badRecord (start + UInt32.ofNat position) length)
      else if (rest.take (length.toNat - 2)).length < length.toNat - 2 then
        .error (.stream (.endOfStream (position + 2) total))
      else if opcode = endOpcode then .ok (position + length.toNat)
      else recordsSize start total (position + length.toNat) (rest.drop (length.toNat - 2))
termination_by bytes => bytes.length
decreasing_by
  simp only [List.length_drop, List.length_cons]
  omega

/-- The size of the event at an offset. Jumps are not followed. -/
def eventSize (image : Image) (offset : UInt32) : Except ImageError Nat :=
  if image.size ≤ offset.toNat then .error (.outOfBounds offset image.size)
  else recordsSize offset (image.size - offset.toNat) 0 (image.bytes.drop offset.toNat)

end Image

end EventScript
