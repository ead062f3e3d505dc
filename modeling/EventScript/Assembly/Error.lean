import EventScript.Instruction.Error
import EventScript.Token.Scan

/-!
# Faults of a script
-/

namespace EventScript

/-- A line of a script: its number, counted from one, and its text without the blanks around it. -/
structure Place where
  number : Nat
  text : String
deriving DecidableEq, Repr

/-- Why a script cannot be assembled. -/
inductive AssemblyError where
  /-- A line cannot be split into tokens. -/
  | lex (fault : LexError)
  /-- Something else is expected where `found` stands. -/
  | unexpected (place : Place) (found expected : String)
  /-- The name is taken by a label or a constant. -/
  | duplicateSymbol (place : Place) (name : String)
  /-- No constant of this name is defined above. -/
  | undefinedSymbol (place : Place) (name : String)
  /-- No label of this name is defined anywhere. -/
  | undefinedLabel (name : String) (line : Nat)
  /-- The record of the line cannot be encoded. -/
  | encode (place : Place) (fault : EncodeError)
deriving DecidableEq, Repr

/-- The text that reports the fault. -/
def AssemblyError.message : AssemblyError → String
  | .lex fault => fault.message
  | .unexpected place found expected =>
      s!"line {place.number}: unexpected {found}, expected {expected}: {place.text}"
  | .duplicateSymbol place name =>
      s!"line {place.number}: `{name}` is already defined: {place.text}"
  | .undefinedSymbol place name =>
      s!"line {place.number}: undefined symbol `%{name}`: {place.text}"
  | .undefinedLabel name line => s!"undefined label `.{name}` (referenced on line {line})"
  | .encode place fault => s!"line {place.number}: {fault.message}: {place.text}"

end EventScript
