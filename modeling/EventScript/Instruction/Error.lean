import EventScript.Stream.Error

/-!
# Faults of instruction definitions and encodings
-/

namespace EventScript

open Text

/-- Why an instruction cannot be defined or encoded. -/
inductive EncodeError where
  /-- A slot has a width mark that stands for no width. -/
  | badWidthTag (tag : Char)
  /-- A template item is neither a byte nor a slot. -/
  | badTemplateItem (item : String)
  /-- There is no operand of this index among `count`. -/
  | noSuchOperand (index count : Nat)
  /-- A label has a slot that is not four bytes wide. -/
  | labelWidth (index : Nat)
  /-- A label has no slot. -/
  | unplacedLabel (index : Nat)
  /-- The second byte of a record is not the record's size. -/
  | framing (size : Nat) (declared : Option UInt8)
  /-- The number does not fit into its slot. -/
  | fieldOverflow (value : UInt32) (width : Width)
  /-- No kind of operand has this name. -/
  | unknownOperandKind (name : String)
  /-- The mnemonic is taken. -/
  | duplicateMnemonic (mnemonic : String)
  /-- The bytes cannot be written. -/
  | stream (fault : StreamError)
deriving DecidableEq, Repr

namespace EncodeError

/-- The length byte of a record, or that there is none. -/
def declaredText : Option UInt8 → String
  | none => "None"
  | some byte => s!"Some({byte.toNat})"

/-- The text that reports the fault. -/
def message : EncodeError → String
  | badWidthTag tag => s!"unrecognized width tag `{tag}` (expected x, u or U)"
  | badTemplateItem item => s!"malformed template item `{item}`"
  | noSuchOperand index count =>
      s!"template slot refers to operand {index}, but only {count} operands are declared"
  | labelWidth index => s!"label operand {index} needs a 4-byte slot"
  | unplacedLabel index => s!"label operand {index} is not placed in any template slot"
  | framing size declared =>
      s!"record is {size} bytes but its length byte says {declaredText declared}"
  | fieldOverflow value width =>
      s!"value {Numeral.hex value.toNat} does not fit in {width.size} byte(s)"
  | unknownOperandKind name => s!"unknown operand kind `{name}`"
  | duplicateMnemonic mnemonic => s!"mnemonic `{mnemonic}` is already defined"
  | stream fault => fault.message

end EncodeError

end EventScript
