import EventScript.Stream.Error

/-!
# Faults of images
-/

namespace EventScript

open Text

/-- Why something cannot be found in an image. -/
inductive ImageError where
  /-- The place is not inside the image of `size` bytes. -/
  | outOfBounds (offset : UInt32) (size : Nat)
  /-- The address is below the one the image stands at. -/
  | notAPointer (address : UInt32)
  /-- The offset has no address of 32 bits. -/
  | notAnOffset (offset : UInt32)
  /-- The record at the offset has a length byte below two. -/
  | badRecord (offset : UInt32) (length : UInt8)
  /-- The bytes cannot be read. -/
  | stream (fault : StreamError)
  /-- The size of the stretch cannot be written in 64 bits, and the run stops. -/
  | overflow
deriving DecidableEq, Repr

/-- The text that reports the fault. -/
def ImageError.message : ImageError → String
  | .outOfBounds offset size =>
      s!"offset {Numeral.hex offset.toNat} is outside the {Numeral.hex size}-byte image"
  | .notAPointer address => s!"{Numeral.address address} is not a pointer into the image"
  | .notAnOffset offset =>
      s!"offset {Numeral.hex offset.toNat} cannot be expressed as a pointer"
  | .badRecord offset length =>
      s!"bad event record at {Numeral.hex offset.toNat}: length byte {length.toNat}"
  | .stream fault => fault.message
  | .overflow => "attempt to multiply with overflow"

end EventScript
