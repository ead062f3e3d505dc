import EventScript.Assembly

/-!
# Assembling record by record

Here every record has a writer of its own, which starts at the address of the record and holds the
places of its labels by their offsets in the record. A line then adds at most one record to those
above it and changes none of them, and the places of one record are filled in without the others.
That `assembleRecords` gives what `assemble` gives with one buffer for all records is
`Assembly.assemble_eq_records`.
-/

namespace EventScript

open Text

namespace Assembly

/-- A record in which the places of labels are still open. -/
structure OpenRecord where
  place : Place
  mnemonic : String
  /-- The bytes of the record, from its address on. -/
  writer : Writer
  /-- The places of labels, with offsets in the record. -/
  fixups : List Fixup
deriving DecidableEq, Repr

/-- What the lines that are done leave for the others. -/
structure State where
  symbols : SymbolTable
  /-- The address of the next record. -/
  address : UInt32
deriving DecidableEq, Repr

namespace State

/-- Before the first line. -/
def start (base : UInt32) (constants : Constants) : State :=
  ⟨.ofConstants constants, base⟩

/-- Give a name. -/
def define (state : State) (place : Place) (name : String) (symbol : Symbol) :
    Except AssemblyError State :=
  match state.symbols.define? name symbol with
  | none => .error (.duplicateSymbol place name)
  | some symbols => .ok { state with symbols := symbols }

/-- The record of an instruction, at the address of the next record. -/
def record (grammar : Grammar) (state : State) (place : Place) (mnemonic : String)
    (operands : List Token) : Except AssemblyError OpenRecord :=
  match write grammar state.symbols place mnemonic operands (.start state.address) with
  | .error fault => .error fault
  | .ok (writer, fixups) => .ok ⟨place, mnemonic, writer, fixups⟩

/-- What a statement leaves, and the record it writes, if any. -/
def statement (grammar : Grammar) (state : State) (place : Place) :
    Statement → Except AssemblyError (State × Option OpenRecord)
  | .blank => .ok (state, none)
  | .mark name => (state.define place name (.label state.address)).map (·, none)
  | .label name value =>
      match Statement.valueOf place state.symbols TokenClass.definition.text value with
      | .error fault => .error fault
      | .ok address => (state.define place name (.label address)).map (·, none)
  | .constant name value =>
      match Statement.valueOf place state.symbols OperandKind.value.text value with
      | .error fault => .error fault
      | .ok value => (state.define place name (.constant value)).map (·, none)
  | .instruction mnemonic operands =>
      match state.record grammar place mnemonic operands with
      | .error fault => .error fault
      | .ok record => .ok ({ state with address := record.writer.address }, some record)

/-- What the line with the given number leaves, and the record it writes, if any. -/
def line (grammar : Grammar) (state : State) (number : Nat) (text : List Char) :
    Except AssemblyError (State × Option OpenRecord) :=
  match Token.scan number text with
  | .error fault => .error (.lex fault)
  | .ok tokens =>
      let place : Place := ⟨number, String.ofList (trim text)⟩
      match Statement.ofTokens place tokens with
      | .error fault => .error fault
      | .ok statement => state.statement grammar place statement

/-- What lines leave, and the records they write in order. The first line has the given number. -/
def lines (grammar : Grammar) (state : State) (number : Nat) :
    List (List Char) → Except AssemblyError (State × List OpenRecord)
  | [] => .ok (state, [])
  | text :: rest =>
      match state.line grammar number text with
      | .error fault => .error fault
      | .ok (after, record) =>
          match after.lines grammar (number + 1) rest with
          | .error fault => .error fault
          | .ok (final, records) => .ok (final, record.toList ++ records)

end State

/-- Fill in the addresses of labels in a record that a line writes. -/
def fill (symbols : SymbolTable) (place : Place) (writer : Writer) (fixups : List Fixup) :
    Except AssemblyError Writer :=
  fillAll symbols writer (fixups.map (⟨place, ·⟩))

/-- The record with the addresses of its labels filled in. -/
def OpenRecord.close (symbols : SymbolTable) (record : OpenRecord) :
    Except AssemblyError Record :=
  match fill symbols record.place record.writer record.fixups with
  | .error fault => .error fault
  | .ok writer =>
      .ok
        { address := writer.base
          line := record.place.number
          mnemonic := record.mnemonic
          bytes := writer.bytes }

/-- The records with the addresses of their labels filled in. -/
def closeAll (symbols : SymbolTable) : List OpenRecord → Except AssemblyError (List Record)
  | [] => .ok []
  | record :: rest =>
      match record.close symbols with
      | .error fault => .error fault
      | .ok closed =>
          match closeAll symbols rest with
          | .error fault => .error fault
          | .ok records => .ok (closed :: records)

/-- Assemble a script with a writer for every record. -/
def assembleRecords (grammar : Grammar) (base : UInt32) (constants : Constants) (script : String) :
    Except AssemblyError Assembly :=
  match (State.start base constants).lines grammar 1 (linesOf script) with
  | .error fault => .error fault
  | .ok (state, records) =>
      match closeAll state.symbols records with
      | .error fault => .error fault
      | .ok closed => .ok ⟨base, closed, state.symbols.labels⟩

variable {symbols : SymbolTable} {place : Place} {writer : Writer}

/-- Without open places nothing is filled in. -/
@[simp] theorem fill_nil : fill symbols place writer [] = .ok writer := rfl

/-- A name that is no label is found when its place is to be filled in. -/
theorem fill_cons_of_none {fixup : Fixup} (h : symbols.label? fixup.label = none)
    (rest : List Fixup) :
    fill symbols place writer (fixup :: rest) =
      .error (.undefinedLabel fixup.label place.number) := by
  simp only [fill, List.map_cons, fillAll, h]

/-- One place is filled in before the others. -/
theorem fill_cons_of_patch {fixup : Fixup} {address : UInt32} {after : Writer}
    (h : symbols.label? fixup.label = some address)
    (hpatch : writer.patch fixup.offset address = (after, .ok ())) (rest : List Fixup) :
    fill symbols place writer (fixup :: rest) = fill symbols place after rest := by
  simp only [fill, List.map_cons, fillAll, h, hpatch]

/-- Labels are filled in one by one. -/
theorem fill_cons_eq_ok_iff {closed : Writer} {fixup : Fixup} {rest : List Fixup} :
    fill symbols place writer (fixup :: rest) = .ok closed ↔
      ∃ address after, symbols.label? fixup.label = some address ∧
        writer.patch fixup.offset address = (after, .ok ()) ∧
        fill symbols place after rest = .ok closed := by
  simp only [fill, List.map_cons, fillAll]
  cases symbols.label? fixup.label with
  | none => simp
  | some address =>
      simp only [Option.some.injEq, exists_and_left, exists_eq_left']
      obtain ⟨after, outcome⟩ := writer.patch fixup.offset address
      cases outcome <;> simp

end Assembly

end EventScript
