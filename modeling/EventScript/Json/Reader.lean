import EventScript.Dictionary
import EventScript.Text.Numeral

/-!
# Reading JSON

A `Json.Reader` reads a value of one type from the front of a JSON text and returns the text after
it. Readers go through the text once and stop at the first fault, so of two faults the one that
stands first in the text is reported. A 32-bit number is written as a JSON number or as a string
that holds one in decimal or hexadecimal. A structure is written as an object, or as an array of its
members in order.
-/

namespace EventScript.Json

open Text

/-- Why a text cannot be read. -/
inductive Error where
  /-- It is not JSON, or not of the expected form. -/
  | malformed
  /-- A string stands for a number and holds none. -/
  | badNumber (text : String)
deriving DecidableEq, Repr

/-- The text that reports the fault. -/
def Error.message : Error → String
  | .malformed => "malformed JSON"
  | .badNumber text => s!"`{text}` is not a valid 32-bit number"

/-- Reads a value from the front of a text, and gives the text after it. -/
abbrev Reader (α : Type) := List Char → Except Error (α × List Char)

/-! ## Characters -/

/-- A blank between the parts of a JSON text. -/
def isSpace (c : Char) : Bool :=
  c == ' ' || c == '\n' || c == '\t' || c == '\r'

/-- The text without the blanks in front. -/
def skipSpace (text : List Char) : List Char :=
  text.dropWhile isSpace

/-- The text after a character that has to stand in front, behind blanks. -/
def expect (c : Char) (text : List Char) : Except Error (List Char) :=
  match skipSpace text with
  | first :: rest => if first = c then .ok rest else .error .malformed
  | [] => .error .malformed

/-- The text after a word that has to stand in front. -/
def word (expected : List Char) (text : List Char) : Except Error (List Char) :=
  if text.take expected.length = expected then .ok (text.drop expected.length)
  else .error .malformed

/-! ## Strings -/

/-- The number that four hexadecimal digits stand for. -/
def unit? (digits : List Char) : Option Nat :=
  if digits.length = 4 then Numeral.value? 16 digits else none

/-- The character that a single letter stands for after a backslash. -/
def escaped? (letter : Char) : Option Char :=
  match letter with
  | '"' => some '"'
  | '\\' => some '\\'
  | '/' => some '/'
  | 'b' => some '\x08'
  | 'f' => some '\x0c'
  | 'n' => some '\n'
  | 'r' => some '\r'
  | 't' => some '\t'
  | _ => none

/-- The code unit is the first of a pair. -/
def isLeading (unit : Nat) : Bool := 0xd800 ≤ unit && unit ≤ 0xdbff

/-- The code unit is the second of a pair. -/
def isTrailing (unit : Nat) : Bool := 0xdc00 ≤ unit && unit ≤ 0xdfff

/-- The character that a pair of code units stands for. -/
def paired (leading trailing : Nat) : Char :=
  Char.ofNat (0x10000 + (leading - 0xd800) * 0x400 + (trailing - 0xdc00))

/-- The rest of a string up to its closing quote, behind the given characters in reverse. Code units
that are escaped singly must not be halves of a pair. -/
def stringFrom (front : List Char) : List Char → Except Error (String × List Char)
  | [] => .error .malformed
  | '"' :: rest => .ok (String.ofList front.reverse, rest)
  | '\\' :: 'u' :: a :: b :: c :: d :: rest =>
      match unit? [a, b, c, d] with
      | none => .error .malformed
      | some unit =>
          if isTrailing unit then .error .malformed
          else if isLeading unit then
            match rest with
            | '\\' :: 'u' :: e :: f :: g :: h :: rest =>
                match unit? [e, f, g, h] with
                | none => .error .malformed
                | some second =>
                    if isTrailing second then stringFrom (paired unit second :: front) rest
                    else .error .malformed
            | _ => .error .malformed
          else stringFrom (Char.ofNat unit :: front) rest
  | '\\' :: letter :: rest =>
      match escaped? letter with
      | none => .error .malformed
      | some c => stringFrom (c :: front) rest
  | c :: rest => if c.toNat < 0x20 then .error .malformed else stringFrom (c :: front) rest

/-- A string. -/
def string : Reader String := fun text => do
  stringFrom [] (← expect '"' text)

/-! ## Numbers -/

/-- A number as a JSON text gives it: as a number, or in a string. -/
inductive NumberForm where
  | integer (value : UInt32)
  | text (spelling : String)
deriving DecidableEq, Repr

/-- The number that is given. A string has to hold a number in one of its two spellings. -/
def NumberForm.value : NumberForm → Except Error UInt32
  | .integer value => .ok value
  | .text spelling =>
      match Numeral.word? spelling.toList with
      | some value => .ok value
      | none => .error (.badNumber spelling)

/-- A number or a string in place of a 32-bit number. -/
def numberForm : Reader NumberForm := fun text =>
  match skipSpace text with
  | '"' :: rest => do
      let (spelling, after) ← stringFrom [] rest
      .ok (.text spelling, after)
  | digits =>
      let literal := digits.takeWhile (Numeral.isDigit 10)
      let after := digits.dropWhile (Numeral.isDigit 10)
      if (literal.head? = some '0' ∧ literal.length ≠ 1) ∨
          after.head? = some '.' ∨ after.head? = some 'e' ∨ after.head? = some 'E' then
        .error .malformed
      else
        match (Numeral.value? 10 literal).filter fun value => value ≤ Numeral.maxWord with
        | some value => .ok (.integer (UInt32.ofNat value), after)
        | none => .error .malformed

/-- A 32-bit number, from what the reader finds in its place. -/
def numberOf (form : Reader NumberForm) : Reader UInt32 := fun text => do
  let (found, after) ← form text
  let value ← found.value
  .ok (value, after)

/-- A 32-bit number. -/
def number : Reader UInt32 := numberOf numberForm

/-! ## Values that may be left out -/

/-- A value, or `null`. -/
def optional {α : Type} (reader : Reader α) : Reader (Option α) := fun text =>
  match skipSpace text with
  | 'n' :: rest => do
      let after ← word ['u', 'l', 'l'] rest
      .ok (none, after)
  | other => do
      let (value, after) ← reader other
      .ok (some value, after)

/-! ## Values that are passed over -/

/-- The text after the rest of a string that is passed over. -/
def skipString : List Char → Except Error (List Char)
  | [] => .error .malformed
  | '"' :: rest => .ok rest
  | '\\' :: 'u' :: a :: b :: c :: d :: rest =>
      match unit? [a, b, c, d] with
      | none => .error .malformed
      | some _ => skipString rest
  | '\\' :: letter :: rest =>
      match escaped? letter with
      | none => .error .malformed
      | some _ => skipString rest
  | c :: rest => if c.toNat < 0x20 then .error .malformed else skipString rest

/-- A digit stands in front of the text. -/
def digitInFront (text : List Char) : Bool :=
  (text.head?.map (Numeral.isDigit 10)).getD false

/-- The text after at least one digit. -/
def skipDigits (text : List Char) : Except Error (List Char) :=
  if digitInFront text then .ok (text.dropWhile (Numeral.isDigit 10)) else .error .malformed

/-- The text after the exponent of a number, if one stands in front. -/
def skipExponent (text : List Char) : Except Error (List Char) :=
  match text with
  | [] => .ok text
  | mark :: rest =>
      if mark = 'e' ∨ mark = 'E' then
        match rest with
        | '+' :: digits => skipDigits digits
        | '-' :: digits => skipDigits digits
        | digits => skipDigits digits
      else .ok text

/-- The text after a number without its sign. A number has no zeros in front. -/
def skipNumber (text : List Char) : Except Error (List Char) := do
  let after ← match text with
    | '0' :: rest => if digitInFront rest then .error .malformed else .ok rest
    | _ => skipDigits text
  match after with
  | '.' :: fraction => skipExponent (← skipDigits fraction)
  | _ => skipExponent after

/-- The parts a JSON text consists of. -/
inductive Part where
  | openArray
  | closeArray
  | openObject
  | closeObject
  | comma
  | colon
  | string
  /-- A number, a truth value or `null`. -/
  | scalar
deriving DecidableEq, Repr

/-- The part in front of a text, and the text after it. -/
def skipPart (text : List Char) : Except Error (Part × List Char) :=
  match skipSpace text with
  | '[' :: rest => .ok (.openArray, rest)
  | ']' :: rest => .ok (.closeArray, rest)
  | '\x7b' :: rest => .ok (.openObject, rest)
  | '\x7d' :: rest => .ok (.closeObject, rest)
  | ',' :: rest => .ok (.comma, rest)
  | ':' :: rest => .ok (.colon, rest)
  | '"' :: rest => do .ok (.string, ← skipString rest)
  | 'n' :: rest => do .ok (.scalar, ← word ['u', 'l', 'l'] rest)
  | 't' :: rest => do .ok (.scalar, ← word ['r', 'u', 'e'] rest)
  | 'f' :: rest => do .ok (.scalar, ← word ['a', 'l', 's', 'e'] rest)
  | '-' :: rest => do .ok (.scalar, ← skipNumber rest)
  | rest => do .ok (.scalar, ← skipNumber rest)

/-- What encloses a value. -/
inductive Frame where
  | array
  | object
deriving DecidableEq, Repr

/-- What may stand next in a value that is passed over. -/
inductive Awaited where
  /-- A value. -/
  | value
  /-- The first value or member behind an opening bracket, or the closing bracket. -/
  | first
  /-- The key of a member. -/
  | key
  /-- The colon behind a key. -/
  | colon
  /-- A comma or a closing bracket. -/
  | more
deriving DecidableEq, Repr

/-- What a value starting with a part makes of the enclosing frames. -/
def enter? (frames : List Frame) : Part → Option (Awaited × List Frame)
  | .openArray => some (.first, .array :: frames)
  | .openObject => some (.first, .object :: frames)
  | .string => some (.more, frames)
  | .scalar => some (.more, frames)
  | _ => none

/-- What may stand behind a part, and the frames around it, of which the innermost comes first. -/
def advance? : Awaited → List Frame → Part → Option (Awaited × List Frame)
  | .value, frames, part => enter? frames part
  | .first, .array :: outer, .closeArray => some (.more, outer)
  | .first, .array :: outer, part => enter? (.array :: outer) part
  | .first, .object :: outer, .closeObject => some (.more, outer)
  | .first, frames, .string => some (.colon, frames)
  | .key, frames, .string => some (.colon, frames)
  | .colon, frames, .colon => some (.value, frames)
  | .more, .array :: outer, .comma => some (.value, .array :: outer)
  | .more, .object :: outer, .comma => some (.key, .object :: outer)
  | .more, .array :: outer, .closeArray => some (.more, outer)
  | .more, .object :: outer, .closeObject => some (.more, outer)
  | _, _, _ => none

/-- The text after all frames are closed. Every part takes at least one character away. -/
def skipFrames (awaited : Awaited) (frames : List Frame) (text : List Char) :
    Except Error (List Char) :=
  if awaited = .more ∧ frames = [] then .ok text
  else
    match skipPart text with
    | .error fault => .error fault
    | .ok (part, rest) =>
        match advance? awaited frames part with
        | none => .error .malformed
        | some (next, inside) =>
            if rest.length < text.length then skipFrames next inside rest
            else .error .malformed
termination_by text.length

/-- Pass over a value of any form. -/
def skipValue : Reader Unit := fun text => do
  .ok ((), ← skipFrames .value [] text)

/-! ## Arrays and objects -/

/-- Read the items of an array or object up to the closing character `close`, each with `item`,
which may depend on and changes a state. Items are divided by commas. Every item takes at least one
character away. -/
def items {σ : Type} (close : Char) (item : σ → Reader σ) (state : σ) (text : List Char) :
    Except Error (σ × List Char) :=
  match item state text with
  | .error fault => .error fault
  | .ok (after, rest) =>
      match skipSpace rest with
      | c :: behind =>
          if c = close then .ok (after, behind)
          else if c = ',' ∧ behind.length < text.length then items close item after behind
          else .error .malformed
      | [] => .error .malformed
termination_by text.length

/-- Read the items between an opening and a closing character. -/
def enclosed {σ : Type} (opening close : Char) (item : σ → Reader σ) (state : σ) : Reader σ :=
  fun text => do
    let inside ← expect opening text
    match skipSpace inside with
    | c :: behind => if c = close then .ok (state, behind) else items close item state inside
    | [] => .error .malformed

/-- An array of values of one type. -/
def list {α : Type} (reader : Reader α) : Reader (List α) :=
  enclosed '[' ']' (fun values text => do
    let (value, rest) ← reader text
    .ok (values ++ [value], rest)) []

/-- The key of a member, and the text behind its colon. -/
def key : Reader String := fun text => do
  let (name, rest) ← string text
  .ok (name, ← expect ':' rest)

/-- An object whose members have values of one type. Of two members with one key the later counts.
-/
def dictionary {α : Type} (reader : Reader α) : Reader (Dictionary String α) :=
  enclosed '\x7b' '\x7d' (fun values text => do
    let (name, rest) ← key text
    let (value, rest) ← reader rest
    .ok (values.insert name value, rest)) .empty

/-! ## Structures -/

/-- A member of a structure that is read into a value of type `σ`. -/
structure Member (σ : Type) where
  name : String
  /-- The member must not be missing. -/
  required : Bool
  /-- Read the member into the structure. -/
  read : σ → Reader σ

/-- A member whose value is put into the structure by `put`. -/
def member {σ α : Type} (name : String) (required : Bool) (reader : Reader α)
    (put : σ → α → σ) : Member σ :=
  { name := name
    required := required
    read := fun state text => do
      let (value, rest) ← reader text
      .ok (put state value, rest) }

/-- Read one member of an object into a structure, given the names read so far. A name must not
occur twice; an unknown one is refused or passed over. -/
def namedMember {σ : Type} (members : List (Member σ)) (refuseUnknown : Bool)
    (state : List String × σ) : Reader (List String × σ) := fun text => do
  let (name, rest) ← key text
  match members.find? fun member => member.name == name with
  | none =>
      if refuseUnknown then .error .malformed
      else do
        let ((), rest) ← skipValue rest
        .ok (state, rest)
  | some member =>
      if state.1.contains name then .error .malformed
      else do
        let (value, rest) ← member.read state.2 rest
        .ok ((name :: state.1, value), rest)

/-- Read the next element of an array into a structure, given the members still to come and the
names read so far. -/
def nextMember {σ : Type} (state : List (Member σ) × List String × σ) :
    Reader (List (Member σ) × List String × σ) := fun text =>
  match state with
  | ([], _, _) => .error .malformed
  | (member :: coming, names, value) => do
      let (value, rest) ← member.read value text
      .ok ((coming, member.name :: names, value), rest)

/-- No required member is missing among the names read. -/
def complete {σ : Type} (members : List (Member σ)) (names : List String) : Bool :=
  members.all fun member => !member.required || names.contains member.name

/-- A structure, written as an object or as an array of its members in order. Members that are
missing keep the value they have in `start`. -/
def structured {σ : Type} (members : List (Member σ)) (refuseUnknown : Bool) (start : σ) :
    Reader σ := fun text => do
  let ((names, value), rest) ←
    if (skipSpace text).head? = some '[' then do
      let ((_, names, value), rest) ← enclosed '[' ']' nextMember (members, [], start) text
      .ok ((names, value), rest)
    else enclosed '\x7b' '\x7d' (namedMember members refuseUnknown) ([], start) text
  if complete members names then .ok (value, rest) else .error .malformed

/-! ## Documents -/

/-- The value of a whole text, with nothing but blanks behind it. -/
def document {α : Type} (reader : Reader α) (text : String) : Except Error α := do
  let (value, rest) ← reader text.toList
  if skipSpace rest = [] then .ok value else .error .malformed

end EventScript.Json
