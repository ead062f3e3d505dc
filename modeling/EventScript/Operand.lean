/-!
# Operands of instructions

An operand is a value, a label, or a keyword of one of four sets. Each keyword stands for one byte.
-/

namespace EventScript

/-- A set of keywords, each of which stands for a byte. -/
inductive KeywordSet where
  /-- Conditions of a jump on a flag. -/
  | jumpCondition
  /-- The one condition of a jump on an item. -/
  | itemCondition
  /-- Places of a text window. -/
  | textWindow
  /-- Ways to close a dialog. -/
  | dialogClose
deriving DecidableEq, Repr

namespace KeywordSet

/-- What the keywords of the set say. -/
def name : KeywordSet → String
  | jumpCondition => "condition"
  | itemCondition => "condition"
  | textWindow => "window"
  | dialogClose => "close mode"

/-- The keywords of the set with their bytes. -/
def choices : KeywordSet → List (String × UInt8)
  | jumpCondition => [("jz", 2), ("jnz", 3)]
  | itemCondition => [("jz", 2)]
  | textWindow => [("top", 0), ("bot", 1)]
  | dialogClose => [("auto", 0), ("wait", 1)]

/-- The byte a keyword stands for. -/
def valueOf? (set : KeywordSet) (word : String) : Option UInt8 :=
  (set.choices.find? fun choice => choice.1 == word).map Prod.snd

/-- The keyword that stands for a byte. -/
def wordFor? (set : KeywordSet) (value : UInt8) : Option String :=
  (set.choices.find? fun choice => choice.2 == value).map Prod.fst

end KeywordSet

/-- What an operand of an instruction is. -/
inductive OperandKind where
  /-- A number or a named constant. -/
  | value
  /-- A keyword of a set. -/
  | keyword (set : KeywordSet)
  /-- A label, which stands for an address. -/
  | label
deriving DecidableEq, Repr

namespace OperandKind

/-- The kind with the given name in a manifest. -/
def ofName? (name : String) : Option OperandKind :=
  if name = "value" then some value
  else if name = "label" then some label
  else if name = "cond" then some (keyword .jumpCondition)
  else if name = "window" then some (keyword .textWindow)
  else if name = "close" then some (keyword .dialogClose)
  else none

/-- What a script may write for an operand of the kind. -/
def text : OperandKind → String
  | value => "symbol or number"
  | keyword set =>
      set.name ++ " (" ++ "|".intercalate (set.choices.map Prod.fst) ++ ")"
  | label => "label"

end OperandKind

end EventScript
