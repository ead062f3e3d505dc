import EventScript.Dictionary

/-!
# Symbols of a script

Labels and constants of a script share one set of names, and a name is given only once. The
constants a script starts from are in the same set.
-/

namespace EventScript

/-- Constants by name. -/
abbrev Constants := Dictionary String UInt32

/-- What a name stands for. -/
inductive Symbol where
  /-- An address. -/
  | label (address : UInt32)
  /-- A number. -/
  | constant (value : UInt32)
deriving DecidableEq, Repr

/-- The names given so far. -/
structure SymbolTable where
  symbols : Dictionary String Symbol
deriving DecidableEq, Repr

namespace SymbolTable

/-- The table that holds the given constants. -/
def ofConstants (constants : Constants) : SymbolTable :=
  ⟨⟨constants.entries.map fun (name, value) => (name, .constant value)⟩⟩

/-- Give a name, if it is free. -/
def define? (table : SymbolTable) (name : String) (symbol : Symbol) : Option SymbolTable :=
  if table.symbols.contains name then none
  else some ⟨table.symbols.insert name symbol⟩

/-- The value of the constant with a name. -/
def constant? (table : SymbolTable) (name : String) : Option UInt32 :=
  match table.symbols.get? name with
  | some (.constant value) => some value
  | _ => none

/-- The address of the label with a name. -/
def label? (table : SymbolTable) (name : String) : Option UInt32 :=
  match table.symbols.get? name with
  | some (.label address) => some address
  | _ => none

/-- The labels with their addresses. -/
def labels (table : SymbolTable) : Dictionary String UInt32 :=
  ⟨table.symbols.entries.filterMap fun (name, symbol) =>
    match symbol with
    | .label address => some (name, address)
    | .constant _ => none⟩

end SymbolTable

end EventScript
