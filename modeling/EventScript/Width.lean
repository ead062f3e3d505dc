import EventScript.Bytes

/-!
# Widths of encoded numbers

Numbers stand in images and records with one of three widths, and a number of two or four bytes
stands at an address that its width divides.
-/

namespace EventScript

/-- How many bytes an encoded number takes. -/
inductive Width where
  | byte
  | half
  | word
deriving DecidableEq, Repr

namespace Width

/-- The number of bytes. -/
def size : Width → Nat
  | byte => 1
  | half => 2
  | word => 4

/-- The character that stands for the width in a template. -/
def tag : Width → Char
  | byte => 'x'
  | half => 'u'
  | word => 'U'

/-- The width a template character stands for. -/
def ofTag? (tag : Char) : Option Width :=
  if tag = 'x' then some byte
  else if tag = 'u' then some half
  else if tag = 'U' then some word
  else none

/-- The number fits into the width. -/
def fits (width : Width) (value : UInt32) : Bool :=
  value.toNat < LittleEndian.limit width.size

/-- A number of this width may stand at the address. -/
def aligned (width : Width) (address : UInt32) : Bool :=
  address.toNat % width.size == 0

@[simp] theorem ofTag?_tag (width : Width) : ofTag? width.tag = some width := by
  cases width <;> decide

/-- Every 32-bit number fits into a word. -/
@[simp] theorem fits_word (value : UInt32) : word.fits value = true :=
  decide_eq_true value.toNat_lt

/-- Bytes may stand anywhere. -/
@[simp] theorem aligned_byte (address : UInt32) : byte.aligned address = true := by
  simp [aligned, size, Nat.mod_one]

end Width

end EventScript
