import EventScript.Instruction.Template
import EventScript.Stream.Writer

/-!
# Instructions and their encoding

An instruction has a mnemonic, kinds of operands and a template. `Instruction.encode` writes its
record for given arguments. A label is written as four bytes of ones and noted as a `Fixup`, to be
replaced once its address is known.
-/

namespace EventScript

/-- An operand as it is encoded. -/
inductive Argument where
  | value (value : UInt32)
  | label (name : String)
deriving DecidableEq, Repr

/-- A place where the address of a label has to be filled in. -/
structure Fixup where
  /-- Offset of the four bytes from the start of the writer. -/
  offset : Nat
  label : String
deriving DecidableEq, Repr

/-- A mnemonic with its operands and the template of its record. -/
structure Instruction where
  mnemonic : String
  /-- The kinds of the operands; `none` for an instruction of fixed bytes. -/
  operands : Option (List OperandKind)
  template : Template
deriving DecidableEq, Repr

namespace Instruction

/-- What stands in place of a label until its address is known. -/
def unresolved : UInt32 := 0xffffffff

/-- The kinds of the operands. -/
def kinds (instruction : Instruction) : List OperandKind :=
  instruction.operands.getD []

/-- The instruction with the given mnemonic, operands and text of a template. -/
def define (mnemonic : String) (operands : Option (List OperandKind)) (template : String) :
    Except EncodeError Instruction :=
  match Template.parse template (operands.getD []) with
  | .error fault => .error fault
  | .ok template => .ok ⟨mnemonic, operands, template⟩

/-- Write a number that has to be on an address its width divides. -/
def putNumber (writer : Writer) (width : Width) (value : UInt32) :
    Writer × Except EncodeError Unit :=
  match writer.put width value with
  | (after, .error fault) => (after, .error (.stream fault))
  | (after, .ok ()) => (after, .ok ())

/-- Write one field. A label takes four bytes whatever its slot says. -/
def encodeField (arguments : List Argument) (writer : Writer) :
    Field → Writer × Except EncodeError (List Fixup)
  | .literal byte => (writer.putBytes [byte], .ok [])
  | .slot operand width =>
      match arguments[operand]? with
      | none => (writer, .error (.noSuchOperand operand arguments.length))
      | some (.label name) =>
          match putNumber writer .word unresolved with
          | (after, .error fault) => (after, .error fault)
          | (after, .ok ()) => (after, .ok [⟨writer.size, name⟩])
      | some (.value value) =>
          if width.fits value then
            match putNumber writer width value with
            | (after, .error fault) => (after, .error fault)
            | (after, .ok ()) => (after, .ok [])
          else (writer, .error (.fieldOverflow value width))

/-- Write fields in order. What was written before a fault stays written. -/
def encodeFields (arguments : List Argument) (writer : Writer) :
    List Field → Writer × Except EncodeError (List Fixup)
  | [] => (writer, .ok [])
  | field :: rest =>
      match encodeField arguments writer field with
      | (after, .error fault) => (after, .error fault)
      | (after, .ok fixups) =>
          match encodeFields arguments after rest with
          | (final, .error fault) => (final, .error fault)
          | (final, .ok more) => (final, .ok (fixups ++ more))

/-- Write the record of the instruction for the given arguments. The result comes with the writer
after it, and holds the places of its labels in order. -/
def encode (instruction : Instruction) (arguments : List Argument) (writer : Writer) :
    Writer × Except EncodeError (List Fixup) :=
  encodeFields arguments writer instruction.template.fields

end Instruction

end EventScript
