import EventScript.Text.Numeral
import EventScript.Width

/-!
# Faults of byte cursors
-/

namespace EventScript

open Text

/-- Why bytes cannot be read or written at a place. -/
inductive StreamError where
  /-- Fewer bytes are left at `offset` than asked for; the stream has `size` bytes. -/
  | endOfStream (offset size : Nat)
  /-- The address is not a multiple of the width. -/
  | misaligned (address : UInt32) (width : Width)
  /-- The place at `offset` was not written before; `size` bytes were. -/
  | outOfRange (offset size : Nat)
deriving DecidableEq, Repr

/-- The text that reports the fault. -/
def StreamError.message : StreamError → String
  | .endOfStream offset size =>
      s!"Read past end of stream at {Numeral.hex offset} ({size} bytes available)"
  | .misaligned address width =>
      s!"{width.size}-byte access at {Numeral.address address} is not aligned"
  | .outOfRange offset size =>
      s!"Write at {Numeral.hex offset} is outside the {size}-byte buffer"

end EventScript
