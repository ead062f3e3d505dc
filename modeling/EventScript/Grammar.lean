import EventScript.Dictionary
import EventScript.Instruction

/-!
# Grammars

A grammar is the set of instructions that a script may use, by mnemonic. `Grammar.define` adds an
instruction under a free mnemonic; `db` is never free, because it writes raw bytes.
-/

namespace EventScript

/-- The instructions a script may use, by mnemonic. -/
structure Grammar where
  instructions : Dictionary String Instruction
deriving DecidableEq, Repr

namespace Grammar

/-- The mnemonic of a record that is given byte by byte. -/
def rawMnemonic : String := "db"

/-- The grammar without instructions. -/
def empty : Grammar := ⟨.empty⟩

/-- The instruction with a mnemonic. -/
def get? (grammar : Grammar) (mnemonic : String) : Option Instruction :=
  grammar.instructions.get? mnemonic

/-- The mnemonics in increasing order. -/
def mnemonics (grammar : Grammar) : List String :=
  grammar.instructions.keys

/-- The instructions in increasing order of their mnemonics. -/
def toList (grammar : Grammar) : List Instruction :=
  grammar.instructions.values

/-- Add an instruction. A mnemonic that is taken is reported before its template is read. -/
def define (grammar : Grammar) (mnemonic : String) (operands : Option (List OperandKind))
    (template : String) : Except EncodeError Grammar :=
  if grammar.instructions.contains mnemonic || mnemonic == rawMnemonic then
    .error (.duplicateMnemonic mnemonic)
  else
    match Instruction.define mnemonic operands template with
    | .error fault => .error fault
    | .ok instruction => .ok ⟨grammar.instructions.insert mnemonic instruction⟩

/-- The kinds of operands with the given names. -/
def kindsOf : List String → Except EncodeError (List OperandKind)
  | [] => .ok []
  | name :: rest =>
      match OperandKind.ofName? name with
      | none => .error (.unknownOperandKind name)
      | some kind =>
          match kindsOf rest with
          | .error fault => .error fault
          | .ok kinds => .ok (kind :: kinds)

end Grammar

end EventScript
