import EventScript.Assembly.Error
import EventScript.Assembly.Symbol
import EventScript.Instruction

/-!
# Statements of a script

A line of a script holds at most one statement: the definition of a label or a constant, or an
instruction. `Statement.ofTokens` reads the shape of a line; `valueOf`, `arguments` and `rawRecord`
give the operands of a statement their meaning in a table of symbols. Operands are judged from left
to right, so the first fault of a line is the one reported.
-/

namespace EventScript

/-- What a line of a script does. -/
inductive Statement where
  /-- Nothing. -/
  | blank
  /-- Define a label as the current address. -/
  | mark (name : String)
  /-- Define a label as a value. -/
  | label (name : String) (value : Token)
  /-- Define a constant. -/
  | constant (name : String) (value : Token)
  /-- Write a record. -/
  | instruction (mnemonic : String) (operands : List Token)
deriving DecidableEq, Repr

/-- How the end of a line is named in faults. -/
def endOfLine : String := "end of line"

/-- The tokens of a line without the comment at its end. -/
def Token.withoutComment (tokens : List Token) : List Token :=
  match tokens.getLast? with
  | some (.comment _) => tokens.dropLast
  | _ => tokens

namespace Statement

/-- The statement that the tokens of a line form. -/
def ofTokens (place : Place) (tokens : List Token) : Except AssemblyError Statement :=
  match Token.withoutComment tokens with
  | [] => .ok .blank
  | .label name :: rest =>
      match rest with
      | [] => .error (.unexpected place endOfLine TokenClass.definition.text)
      | [.colon] => .ok (.mark name)
      | [value] => .ok (.label name value)
      | _ :: extra :: _ => .error (.unexpected place extra.text endOfLine)
  | .symbol name :: rest =>
      match rest with
      | [] => .error (.unexpected place endOfLine OperandKind.value.text)
      | [value] => .ok (.constant name value)
      | _ :: extra :: _ => .error (.unexpected place extra.text endOfLine)
  | .keyword mnemonic :: operands => .ok (.instruction mnemonic operands)
  | other :: _ => .error (.unexpected place other.text TokenClass.lineStart.text)

/-- The value of a number or of a constant defined above; anything else is not what was expected. -/
def valueOf (place : Place) (symbols : SymbolTable) (expected : String) :
    Token → Except AssemblyError UInt32
  | .number value => .ok value
  | .symbol name =>
      match symbols.constant? name with
      | some value => .ok value
      | none => .error (.undefinedSymbol place name)
  | other => .error (.unexpected place other.text expected)

/-- The argument that a token stands for as an operand of the given kind. -/
def argumentOf (place : Place) (symbols : SymbolTable) (kind : OperandKind) (token : Token) :
    Except AssemblyError Argument :=
  match kind, token with
  | .value, token =>
      match valueOf place symbols kind.text token with
      | .error fault => .error fault
      | .ok value => .ok (.value value)
  | .keyword set, .keyword word =>
      match set.valueOf? word with
      | some value => .ok (.value value.toUInt32)
      | none => .error (.unexpected place token.text kind.text)
  | .label, .label name => .ok (.label name)
  | _, _ => .error (.unexpected place token.text kind.text)

/-- The arguments of an instruction with operands of the given kinds. -/
def arguments (place : Place) (symbols : SymbolTable) :
    List OperandKind → List Token → Except AssemblyError (List Argument)
  | [], [] => .ok []
  | [], extra :: _ => .error (.unexpected place extra.text endOfLine)
  | kind :: _, [] => .error (.unexpected place endOfLine kind.text)
  | kind :: kinds, token :: tokens =>
      match argumentOf place symbols kind token with
      | .error fault => .error fault
      | .ok argument =>
          match arguments place symbols kinds tokens with
          | .error fault => .error fault
          | .ok rest => .ok (argument :: rest)

/-- The bytes that the operands of a raw record stand for. -/
def bytesOf (place : Place) (symbols : SymbolTable) : List Token → Except AssemblyError Bytes
  | [] => .ok []
  | token :: tokens =>
      match valueOf place symbols "a byte value" token with
      | .error fault => .error fault
      | .ok value =>
          if Width.byte.fits value then
            match bytesOf place symbols tokens with
            | .error fault => .error fault
            | .ok bytes => .ok (value.toUInt8 :: bytes)
          else .error (.encode place (.fieldOverflow value .byte))

/-- The bytes of a raw record, whose second byte has to tell its size. -/
def rawRecord (place : Place) (symbols : SymbolTable) (operands : List Token) :
    Except AssemblyError Bytes :=
  match bytesOf place symbols operands with
  | .error fault => .error fault
  | .ok bytes =>
      let declared := bytes[1]?
      if declared.map UInt8.toNat = some bytes.length then .ok bytes
      else .error (.encode place (.framing bytes.length declared))

end Statement

end EventScript
