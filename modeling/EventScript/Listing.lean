import EventScript.Grammar
import EventScript.Text.Numeral

/-!
# Listings

A listing is a script for bytes that are there already. `Listing.lines` cuts the bytes into records
and finds an instruction for each; `Listing.text` writes the script, with a label for every address
that an instruction refers to. A record that no instruction accounts for, or whose slots would not
be aligned when it is assembled at its address, is listed byte by byte.
-/

namespace EventScript.Listing

open Text

/-- Why bytes cannot be listed. -/
inductive Error where
  /-- The record at the address has a length byte that is too small or exceeds the bytes left. -/
  | badRecord (address : UInt32) (length : UInt8) (remaining : Nat)
deriving DecidableEq, Repr

/-- The text that reports the fault. -/
def Error.message : Error → String
  | .badRecord address length remaining =>
      s!"record at {Numeral.address address} has length byte {length.toNat} " ++
        s!"with {remaining} bytes left"

/-- An operand as it is listed. -/
inductive Operand where
  | value (value : UInt32)
  | word (word : String)
  /-- An address that gets a label. -/
  | target (address : UInt32)
deriving DecidableEq, Repr

/-- An instruction of a listing. -/
structure Line where
  address : UInt32
  mnemonic : String
  operands : List Operand
deriving DecidableEq, Repr

/-- The name of the label of an address: `L` and the eight digits of the address in upper case. -/
def labelName (address : UInt32) : String :=
  "L" ++ String.ofList ((Numeral.hexDigitsPadded 8 address.toNat).map Char.toUpper)

/-- The operand as a script writes it. -/
def Operand.text : Operand → String
  | .value number => Numeral.hex number.toNat
  | .word keyword => keyword
  | .target address => "." ++ labelName address

/-- The address the operand refers to. -/
def Operand.target? : Operand → Option UInt32
  | .target address => some address
  | _ => none

/-- The addresses the line refers to, in the order of its operands. -/
def Line.targets (line : Line) : List UInt32 :=
  line.operands.filterMap Operand.target?

/-- The instruction as a script writes it. -/
def Line.text (line : Line) : String :=
  line.mnemonic ++ String.join (line.operands.map fun operand => " " ++ operand.text)

/-- Note the value of an operand. Two slots of one operand have to hold the same value. -/
def note? (values : List (Option UInt32)) (operand : Nat) (value : UInt32) :
    Option (List (Option UInt32)) :=
  match values[operand]? with
  | none => none
  | some none => some (values.set operand (some value))
  | some (some previous) => if previous = value then some values else none

/-- Read bytes that stand at an address along the fields of a template, noting the values of the
operands. -/
def readFields? (address : UInt32) :
    List Field → Bytes → List (Option UInt32) → Option (List (Option UInt32))
  | [], _, values => some values
  | .literal _ :: _, [], _ => none
  | .literal expected :: fields, byte :: rest, values =>
      if byte = expected then readFields? (address + 1) fields rest values else none
  | .slot operand width :: fields, bytes, values =>
      if width.aligned address ∧ width.size ≤ bytes.length then
        let value := UInt32.ofNat (LittleEndian.decode (bytes.take width.size))
        match note? values operand value with
        | none => none
        | some values =>
            readFields? (address + UInt32.ofNat width.size) fields (bytes.drop width.size) values
      else none

/-- How an operand of the given kind is listed. An operand without a slot can have any value, except
that a label has to have an address. -/
def operand? : OperandKind → Option UInt32 → Option Operand
  | .value, value => some (.value (value.getD 0))
  | .keyword set, none => set.choices.head?.map fun choice => .word choice.1
  | .keyword set, some value =>
      if Width.byte.fits value then (set.wordFor? value.toUInt8).map .word else none
  | .label, value => value.map .target

/-- How the operands of the given kinds are listed. -/
def operands? : List OperandKind → List (Option UInt32) → Option (List Operand)
  | kind :: kinds, value :: values =>
      match operand? kind value with
      | none => none
      | some operand =>
          match operands? kinds values with
          | none => none
          | some rest => some (operand :: rest)
  | _, _ => some []

/-- The line for a record at an address, if it is a record of the instruction. -/
def match? (address : UInt32) (record : Bytes) (instruction : Instruction) : Option Line :=
  if instruction.template.size = record.length then
    match readFields? address instruction.template.fields record
        (instruction.kinds.map fun _ => none) with
    | none => none
    | some values =>
        (operands? instruction.kinds values).map fun operands =>
          ⟨address, instruction.mnemonic, operands⟩
  else none

/-- The line that gives a record byte by byte. -/
def rawLine (address : UInt32) (record : Bytes) : Line :=
  ⟨address, Grammar.rawMnemonic, record.map fun byte => .value byte.toUInt32⟩

/-- The first instruction is tried before the second: it has more fixed bytes, or as many and a
smaller mnemonic. -/
def triedBefore (first second : Instruction) : Bool :=
  second.template.literals < first.template.literals ||
    (first.template.literals == second.template.literals && first.mnemonic ≤ second.mnemonic)

/-- The instructions in the order in which they are tried. -/
def candidates (instructions : List Instruction) : List Instruction :=
  instructions.mergeSort triedBefore

/-- The line for a record at an address, given the instructions in the order they are tried. -/
def decode (candidates : List Instruction) (address : UInt32) (record : Bytes) : Line :=
  (candidates.findSome? (match? address record)).getD (rawLine address record)

/-- The byte that tells the size of the record in front; zero if it is missing. -/
def lengthByte (bytes : Bytes) : UInt8 :=
  bytes[1]?.getD 0

/-- The lines for bytes that stand at an address, one for each record. The second byte of a record
is its size, which is at least two. -/
def linesFrom (candidates : List Instruction) (address : UInt32) (bytes : Bytes) :
    Except Error (List Line) :=
  if bytes.isEmpty then .ok []
  else
    let record := bytes.take (lengthByte bytes).toNat
    if 2 ≤ (lengthByte bytes).toNat ∧ record.length = (lengthByte bytes).toNat then
      match linesFrom candidates (address + (lengthByte bytes).toUInt32)
          (bytes.drop (lengthByte bytes).toNat) with
      | .error fault => .error fault
      | .ok lines => .ok (decode candidates address record :: lines)
    else .error (.badRecord address (lengthByte bytes) bytes.length)
termination_by bytes.length
decreasing_by
  rename_i hnonempty hlength
  have hpositive : 0 < bytes.length := by
    cases bytes with
    | nil => simp at hnonempty
    | cons byte rest => simp
  simp only [List.length_drop]
  omega

/-- The lines for bytes that stand at a base address. -/
def lines (grammar : Grammar) (base : UInt32) (bytes : Bytes) : Except Error (List Line) :=
  linesFrom (candidates grammar.toList) base bytes

/-- The addresses that lines refer to, in increasing order and each once. -/
def targetsOf (lines : List Line) : List UInt32 :=
  ((lines.flatMap Line.targets).mergeSort fun first second => first ≤ second).eraseDups

/-- The lines that define labels for addresses which start no line. -/
def outsideText (starts targets : List UInt32) : String :=
  String.join ((targets.filter fun target => !starts.contains target).map fun target =>
    "." ++ labelName target ++ " " ++ Numeral.hex target.toNat ++ "\n")

/-- The line that marks an address with its label, if it is referred to. -/
def markText (targets : List UInt32) (address : UInt32) : String :=
  if targets.contains address then "." ++ labelName address ++ ":\n" else ""

/-- The script that consists of the given lines and ends at an address. -/
def render (lines : List Line) (stop : UInt32) : String :=
  let targets := targetsOf lines
  outsideText (lines.map Line.address ++ [stop]) targets ++
    String.join (lines.map fun line =>
      markText targets line.address ++ "    " ++ line.text ++ "\n") ++
    markText targets stop

/-- A script for bytes that stand at a base address. -/
def text (grammar : Grammar) (base : UInt32) (bytes : Bytes) : Except Error String :=
  match lines grammar base bytes with
  | .error fault => .error fault
  | .ok lines => .ok (render lines (base + UInt32.ofNat bytes.length))

end EventScript.Listing
