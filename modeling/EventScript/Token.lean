import EventScript.Text.Numeral

/-!
# Tokens of a script line

A line of a script is a list of tokens. `Token.text` writes a token the way it can be read again,
and `TokenClass` is a set of lexical classes, used to say what was expected at a place.
-/

namespace EventScript

/-- A token of a script line. -/
inductive Token where
  /-- A label, written `.name`. -/
  | label (name : String)
  /-- A named constant, written `%name`. -/
  | symbol (name : String)
  /-- A bare word: a mnemonic or one of an operand's keywords. -/
  | keyword (word : String)
  /-- A number. -/
  | number (value : UInt32)
  /-- The colon after a label that marks the current address. -/
  | colon
  /-- The text from a semicolon to the end of the line, without the semicolon. -/
  | comment (text : String)
  /-- Any other character. -/
  | raw (char : Char)
deriving DecidableEq, Repr

/-- The token as it is written in a script. Numbers are written in hexadecimal. -/
def Token.text : Token → String
  | .label name => "." ++ name
  | .symbol name => "%" ++ name
  | .keyword word => word
  | .number value => Text.Numeral.hex value.toNat
  | .colon => ":"
  | .comment text => ";" ++ text
  | .raw char => String.singleton char

/-- A set of the lexical classes that can stand at some place of a line. -/
structure TokenClass where
  label : Bool := false
  symbol : Bool := false
  keyword : Bool := false
  number : Bool := false
  colon : Bool := false
deriving DecidableEq, Repr

namespace TokenClass

/-- What may follow the name in a label definition. -/
def definition : TokenClass := { symbol := true, number := true, colon := true }

/-- What may open a line. -/
def lineStart : TokenClass := { label := true, symbol := true, keyword := true }

/-- The names of the classes in the set, in their fixed order. -/
def names (set : TokenClass) : List String :=
  [(set.label, "label"), (set.symbol, "symbol"), (set.keyword, "keyword"),
    (set.number, "number"), (set.colon, "`:`")].filterMap
      fun (member, name) => if member then some name else none

/-- The classes of the set as alternatives. -/
def text (set : TokenClass) : String :=
  " or ".intercalate set.names

end TokenClass

end EventScript
