import EventScript.Text.Numeral

/-!
# Writing JSON

A `Json.Value` is written on one line without blanks by `compact`, and over several lines by
`pretty`, where every level is two spaces further in.
-/

namespace EventScript.Json

open Text

/-- A JSON value of the kinds that are written. -/
inductive Value where
  | text (content : String)
  | number (n : Nat)
  | truth (b : Bool)
  | array (items : List Value)
  | object (members : List (String × Value))

/-- A character as it is written inside a string. -/
def escape (c : Char) : List Char :=
  match c with
  | '"' => ['\\', '"']
  | '\\' => ['\\', '\\']
  | '\x08' => ['\\', 'b']
  | '\x0c' => ['\\', 'f']
  | '\n' => ['\\', 'n']
  | '\r' => ['\\', 'r']
  | '\t' => ['\\', 't']
  | c => if c.toNat < 0x20 then '\\' :: 'u' :: Numeral.hexDigitsPadded 4 c.toNat else [c]

/-- A text in quotes. -/
def quote (text : String) : String :=
  String.ofList ('"' :: text.toList.flatMap escape ++ ['"'])

namespace Value

mutual

/-- The value on one line. -/
def compact : Value → String
  | .text content => quote content
  | .number n => toString n
  | .truth b => if b then "true" else "false"
  | .array items => "[" ++ ",".intercalate (compactItems items) ++ "]"
  | .object members => "\x7b" ++ ",".intercalate (compactMembers members) ++ "\x7d"

/-- The items of an array, each on one line. -/
def compactItems : List Value → List String
  | [] => []
  | item :: rest => item.compact :: compactItems rest

/-- The members of an object, each on one line. -/
def compactMembers : List (String × Value) → List String
  | [] => []
  | (name, value) :: rest => (quote name ++ ":" ++ value.compact) :: compactMembers rest

end

/-- The start of a line at a level. -/
def indent (level : Nat) : String :=
  String.ofList (List.replicate (2 * level) ' ')

/-- Lines between brackets, one level further in; nothing between them if there are none. -/
def block (opening closing : String) (level : Nat) : List String → String
  | [] => opening ++ closing
  | lines =>
      opening ++ "\n" ++ ",\n".intercalate (lines.map (indent (level + 1) ++ ·)) ++ "\n" ++
        indent level ++ closing

mutual

/-- The value over several lines, starting at a level. -/
def prettyAt (level : Nat) : Value → String
  | .text content => quote content
  | .number n => toString n
  | .truth b => if b then "true" else "false"
  | .array items => block "[" "]" level (prettyItems (level + 1) items)
  | .object members => block "\x7b" "\x7d" level (prettyMembers (level + 1) members)

/-- The items of an array over several lines. -/
def prettyItems (level : Nat) : List Value → List String
  | [] => []
  | item :: rest => item.prettyAt level :: prettyItems level rest

/-- The members of an object over several lines. -/
def prettyMembers (level : Nat) : List (String × Value) → List String
  | [] => []
  | (name, value) :: rest =>
      (quote name ++ ": " ++ value.prettyAt level) :: prettyMembers level rest

end

/-- The value over several lines. -/
def pretty (value : Value) : String :=
  value.prettyAt 0

end Value

end EventScript.Json
