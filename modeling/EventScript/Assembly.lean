import EventScript.Assembly.Statement
import EventScript.Grammar
import EventScript.Text.Lines

/-!
# Assembly

`assemble` turns a script into records that stand one after the other from a base address on. It
goes through the lines once, defining names and writing all records into one buffer with the places
of labels left open, then fills these places in, and at last cuts the buffer into the records. The
size of a record depends on no label, so every address is final when the lines are done.
-/

namespace EventScript

open Text

/-- An encoded instruction. -/
structure Record where
  address : UInt32
  /-- Number of the line it was written on. -/
  line : Nat
  mnemonic : String
  bytes : Bytes
deriving DecidableEq, Repr

/-- An assembled script. -/
structure Assembly where
  base : UInt32
  /-- The records, one after the other from the base on. -/
  records : List Record
  labels : Dictionary String UInt32
deriving DecidableEq, Repr

namespace Assembly

/-- The bytes of all records. -/
def bytes (assembly : Assembly) : Bytes :=
  assembly.records.flatMap Record.bytes

/-- The number of bytes of all records. -/
def size (assembly : Assembly) : Nat :=
  assembly.bytes.length

/-- Where the record of a line stands in the buffer. -/
structure Span where
  /-- Offset of its first byte. -/
  start : Nat
  /-- Offset behind its last byte. -/
  stop : Nat
  /-- Number of the line it was written on. -/
  line : Nat
  mnemonic : String
deriving DecidableEq, Repr

/-- A place of a label that is left open, and the line that refers to the label. -/
structure Pending where
  place : Place
  fixup : Fixup
deriving DecidableEq, Repr

/-- What the lines that are done leave for the others. -/
structure Draft where
  symbols : SymbolTable
  /-- The buffer with the bytes of all records. -/
  writer : Writer
  /-- The records in the buffer, in order. -/
  spans : List Span
  /-- The open places in the buffer, in order. -/
  pending : List Pending
deriving DecidableEq, Repr

/-- Write the record of an instruction behind what was written before. The result holds the places
of its labels. -/
def write (grammar : Grammar) (symbols : SymbolTable) (place : Place) (mnemonic : String)
    (operands : List Token) (writer : Writer) : Except AssemblyError (Writer × List Fixup) :=
  if mnemonic = Grammar.rawMnemonic then
    match Statement.rawRecord place symbols operands with
    | .error fault => .error fault
    | .ok bytes => .ok (writer.putBytes bytes, [])
  else
    match grammar.get? mnemonic with
    | none => .error (.unexpected place s!"`{mnemonic}`" "a known mnemonic")
    | some instruction =>
        match Statement.arguments place symbols instruction.kinds operands with
        | .error fault => .error fault
        | .ok arguments =>
            match instruction.encode arguments writer with
            | (_, .error fault) => .error (.encode place fault)
            | (after, .ok fixups) => .ok (after, fixups)

namespace Draft

/-- Before the first line. -/
def start (base : UInt32) (constants : Constants) : Draft :=
  ⟨.ofConstants constants, .start base, [], []⟩

/-- Give a name. -/
def define (draft : Draft) (place : Place) (name : String) (symbol : Symbol) :
    Except AssemblyError Draft :=
  match draft.symbols.define? name symbol with
  | none => .error (.duplicateSymbol place name)
  | some symbols => .ok { draft with symbols := symbols }

/-- Add the record of an instruction, with the places of its labels left open. -/
def add (grammar : Grammar) (draft : Draft) (place : Place) (mnemonic : String)
    (operands : List Token) : Except AssemblyError Draft :=
  match write grammar draft.symbols place mnemonic operands draft.writer with
  | .error fault => .error fault
  | .ok (writer, fixups) =>
      .ok
        { draft with
          writer := writer
          spans := draft.spans ++ [⟨draft.writer.size, writer.size, place.number, mnemonic⟩]
          pending := draft.pending ++ fixups.map (⟨place, ·⟩) }

/-- What a statement leaves. -/
def statement (grammar : Grammar) (draft : Draft) (place : Place) :
    Statement → Except AssemblyError Draft
  | .blank => .ok draft
  | .mark name => draft.define place name (.label draft.writer.address)
  | .label name value =>
      match Statement.valueOf place draft.symbols TokenClass.definition.text value with
      | .error fault => .error fault
      | .ok address => draft.define place name (.label address)
  | .constant name value =>
      match Statement.valueOf place draft.symbols OperandKind.value.text value with
      | .error fault => .error fault
      | .ok value => draft.define place name (.constant value)
  | .instruction mnemonic operands => draft.add grammar place mnemonic operands

/-- What the line with the given number leaves. -/
def line (grammar : Grammar) (draft : Draft) (number : Nat) (text : List Char) :
    Except AssemblyError Draft :=
  match Token.scan number text with
  | .error fault => .error (.lex fault)
  | .ok tokens =>
      let place : Place := ⟨number, String.ofList (trim text)⟩
      match Statement.ofTokens place tokens with
      | .error fault => .error fault
      | .ok statement => draft.statement grammar place statement

/-- What lines leave. The first of them has the given number. -/
def lines (grammar : Grammar) (draft : Draft) (number : Nat) :
    List (List Char) → Except AssemblyError Draft
  | [] => .ok draft
  | text :: rest =>
      match draft.line grammar number text with
      | .error fault => .error fault
      | .ok after => after.lines grammar (number + 1) rest

end Draft

/-- Fill in the addresses of labels, one place after the other. -/
def fillAll (symbols : SymbolTable) (writer : Writer) :
    List Pending → Except AssemblyError Writer
  | [] => .ok writer
  | pending :: rest =>
      match symbols.label? pending.fixup.label with
      | none => .error (.undefinedLabel pending.fixup.label pending.place.number)
      | some address =>
          match writer.patch pending.fixup.offset address with
          | (_, .error fault) => .error (.encode pending.place (.stream fault))
          | (after, .ok ()) => fillAll symbols after rest

/-- The record that stands in the buffer. -/
def Span.record (writer : Writer) (span : Span) : Record :=
  { address := writer.base + UInt32.ofNat span.start
    line := span.line
    mnemonic := span.mnemonic
    bytes := (writer.bytes.drop span.start).take (span.stop - span.start) }

end Assembly

/-- Assemble a script at a base address, starting from the given constants. -/
def assemble (grammar : Grammar) (base : UInt32) (constants : Constants) (script : String) :
    Except AssemblyError Assembly :=
  match (Assembly.Draft.start base constants).lines grammar 1 (linesOf script) with
  | .error fault => .error fault
  | .ok draft =>
      match Assembly.fillAll draft.symbols draft.writer draft.pending with
      | .error fault => .error fault
      | .ok writer =>
          .ok ⟨base, draft.spans.map (Assembly.Span.record writer), draft.symbols.labels⟩

end EventScript
