import EventScript.Bytes
import EventScript.Instruction.Error
import EventScript.Operand
import EventScript.Text.Blank

/-!
# Byte templates

A template lists the fields of an instruction's record: bytes that are always the same, and slots
that hold operands. Its text has one item per field, a byte in hexadecimal or a slot such as `$0` or
`$(u:1)`. `Template.parse` reads the text for given operands, and `Template.render` writes it.
-/

namespace EventScript

open Text

/-- A field of a record. -/
inductive Field where
  /-- A byte that is always the same. -/
  | literal (byte : UInt8)
  /-- The place of the operand with the given index. -/
  | slot (operand : Nat) (width : Width)
deriving DecidableEq, Repr

namespace Field

/-- How many bytes the field takes. -/
def size : Field → Nat
  | literal _ => 1
  | slot _ width => width.size

/-- How many bytes fields take together. -/
def totalSize : List Field → Nat
  | [] => 0
  | field :: fields => field.size + totalSize fields

/-- The field is a fixed byte. -/
def isLiteral : Field → Bool
  | literal _ => true
  | slot .. => false

/-- The field is a slot of the operand with the given index. -/
def holds (index : Nat) : Field → Bool
  | literal _ => false
  | slot operand _ => operand == index

/-- The largest index a slot can be written with. -/
def maxIndex : Nat := UInt64.size - 1

/-- The item without the hexadecimal marks in front of it. -/
def dropMarks : List Char → List Char
  | '0' :: 'x' :: rest => dropMarks rest
  | digits => digits

/-- The text between an opening bracket at the start and a closing one at the end. -/
def bracketed? : List Char → Option (List Char)
  | '(' :: rest =>
      match rest.reverse with
      | ')' :: inner => some inner.reverse
      | _ => none
  | _ => none

/-- The width mark of a bracketed slot and the text of its index, which are divided by the first
colon. -/
def marked? (inner : List Char) : Option (Char × List Char) :=
  match inner with
  | mark :: ':' :: index => if mark = ':' then none else some (mark, index)
  | _ => none

/-- The width of a slot, given the kind of its operand and the width it is marked with. -/
def slotWidth (index : Nat) : OperandKind → Option Width → Except EncodeError Width
  | .label, none => .ok .word
  | .label, some .word => .ok .word
  | .label, some _ => .error (.labelWidth index)
  | _, some width => .ok width
  | _, none => .ok .byte

/-- The slot with the given width mark and text of an index. -/
def slotOf (operands : List OperandKind) (item : List Char) (width : Option Width)
    (index : List Char) : Except EncodeError Field :=
  match Numeral.read? 10 maxIndex index with
  | none => .error (.badTemplateItem (String.ofList item))
  | some operand =>
      match operands[operand]? with
      | none => .error (.noSuchOperand operand operands.length)
      | some kind =>
          match slotWidth operand kind width with
          | .error fault => .error fault
          | .ok width => .ok (.slot operand width)

/-- The field an item of a template's text stands for. -/
def ofItem (operands : List OperandKind) (item : List Char) : Except EncodeError Field :=
  match item with
  | '$' :: text =>
      match bracketed? text with
      | none => slotOf operands item none text
      | some inner =>
          match marked? inner with
          | none => .error (.badTemplateItem (String.ofList item))
          | some (mark, index) =>
              match Width.ofTag? mark with
              | none => .error (.badWidthTag mark)
              | some width => slotOf operands item (some width) index
  | _ =>
      match Numeral.read? 16 255 (dropMarks item) with
      | none => .error (.badTemplateItem (String.ofList item))
      | some byte => .ok (.literal (UInt8.ofNat byte))

/-- The item that stands for the field. -/
def render : Field → String
  | literal byte => Bytes.hexByte byte
  | slot operand width => s!"$({width.tag}:{operand})"

end Field

/-- The fields of an instruction's record, in order. -/
structure Template where
  fields : List Field
deriving DecidableEq, Repr

namespace Template

/-- The size of the record, which no operand changes. -/
def size (template : Template) : Nat :=
  Field.totalSize template.fields

/-- How many fields are fixed bytes. -/
def literals (template : Template) : Nat :=
  template.fields.countP Field.isLiteral

/-- The fixed byte that says how long the record is. -/
def declared (template : Template) : Option UInt8 :=
  match template.fields[1]? with
  | some (Field.literal byte) => some byte
  | _ => none

/-- The length byte is there and tells the size of the record. -/
def framed (template : Template) : Bool :=
  template.declared.map UInt8.toNat == some template.size

/-- The index of the first label, from `index` on, that has no slot. -/
def unplaced? (fields : List Field) (index : Nat) : List OperandKind → Option Nat
  | [] => none
  | kind :: rest =>
      if kind = .label ∧ fields.any (Field.holds index) = false then some index
      else unplaced? fields (index + 1) rest

/-- The fields of a list of items. -/
def fieldsOf (operands : List OperandKind) : List (List Char) → Except EncodeError (List Field)
  | [] => .ok []
  | item :: rest =>
      match Field.ofItem operands item with
      | .error fault => .error fault
      | .ok field =>
          match fieldsOf operands rest with
          | .error fault => .error fault
          | .ok fields => .ok (field :: fields)

/-- Read the text of a template for an instruction with the given operands. Every label needs a
slot, and the second byte has to tell the size of the record. -/
def parse (text : String) (operands : List OperandKind) : Except EncodeError Template :=
  match fieldsOf operands (words text.toList) with
  | .error fault => .error fault
  | .ok fields =>
      match unplaced? fields 0 operands with
      | some index => .error (.unplacedLabel index)
      | none =>
          let template : Template := ⟨fields⟩
          if template.framed then .ok template
          else .error (.framing template.size template.declared)

/-- The text of a template, with single spaces between the items. -/
def render (template : Template) : String :=
  " ".intercalate (template.fields.map Field.render)

end Template

end EventScript
