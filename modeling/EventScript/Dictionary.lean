/-!
# Dictionaries

A `Dictionary` is a finite map held as a list of entries. `insert` keeps the entries in increasing
order of their keys and replaces the value of a key that is there already. The main statement is
`get?_insert`, which says what every look-up sees after an insertion.
-/

namespace EventScript

/-- A finite map, held as its entries in increasing order of their keys. -/
structure Dictionary (κ α : Type) where
  /-- The keys with their values. -/
  entries : List (κ × α)
deriving DecidableEq, Repr

namespace Dictionary

variable {κ α : Type}

/-- The dictionary without entries. -/
def empty : Dictionary κ α := ⟨[]⟩

/-- The value of the first entry with the given key. -/
def find? [DecidableEq κ] (key : κ) : List (κ × α) → Option α
  | [] => none
  | (other, value) :: rest => if key = other then some value else find? key rest

/-- The value of a key. -/
def get? [DecidableEq κ] (dictionary : Dictionary κ α) (key : κ) : Option α :=
  find? key dictionary.entries

/-- The key has a value. -/
def contains [DecidableEq κ] (dictionary : Dictionary κ α) (key : κ) : Bool :=
  (dictionary.get? key).isSome

/-- Put an entry in front of the first larger key, or in place of an equal one. -/
def insertEntry [DecidableEq κ] [LT κ] [DecidableLT κ] (key : κ) (value : α) :
    List (κ × α) → List (κ × α)
  | [] => [(key, value)]
  | (other, old) :: rest =>
      if key = other then (key, value) :: rest
      else if key < other then (key, value) :: (other, old) :: rest
      else (other, old) :: insertEntry key value rest

/-- Give a key a value, in place of the one it had. -/
def insert [DecidableEq κ] [LT κ] [DecidableLT κ] (dictionary : Dictionary κ α) (key : κ)
    (value : α) : Dictionary κ α :=
  ⟨insertEntry key value dictionary.entries⟩

/-- The dictionary of a list of entries; of two entries with one key the later counts. -/
def ofList [DecidableEq κ] [LT κ] [DecidableLT κ] (entries : List (κ × α)) : Dictionary κ α :=
  entries.foldl (fun dictionary entry => dictionary.insert entry.1 entry.2) empty

/-- The keys in increasing order. -/
def keys (dictionary : Dictionary κ α) : List κ :=
  dictionary.entries.map Prod.fst

/-- The values in increasing order of their keys. -/
def values (dictionary : Dictionary κ α) : List α :=
  dictionary.entries.map Prod.snd

/-- The number of keys. -/
def size (dictionary : Dictionary κ α) : Nat :=
  dictionary.entries.length

@[simp] theorem get?_empty [DecidableEq κ] (key : κ) : (empty : Dictionary κ α).get? key = none :=
  rfl

/-- Looking up a key among entries into which one was put. -/
theorem find?_insertEntry [DecidableEq κ] [LT κ] [DecidableLT κ] (key other : κ) (value : α)
    (entries : List (κ × α)) :
    find? other (insertEntry key value entries) =
      if other = key then some value else find? other entries := by
  induction entries with
  | nil => simp [insertEntry, find?]
  | cons entry rest ih =>
      obtain ⟨first, old⟩ := entry
      by_cases hfirst : key = first
      · subst hfirst
        by_cases hother : other = key <;> simp [insertEntry, find?, hother]
      · by_cases hlt : key < first
        · by_cases hother : other = key <;> simp [insertEntry, find?, hfirst, hlt, hother]
        · by_cases hother : other = first
          · subst hother
            simp [insertEntry, find?, hfirst, hlt, Ne.symm hfirst]
          · simp [insertEntry, find?, hfirst, hlt, hother, ih]

/-- After an insertion the key has its new value and every other key the value it had. -/
@[simp] theorem get?_insert [DecidableEq κ] [LT κ] [DecidableLT κ] (dictionary : Dictionary κ α)
    (key other : κ) (value : α) :
    (dictionary.insert key value).get? other =
      if other = key then some value else dictionary.get? other :=
  find?_insertEntry key other value dictionary.entries

end Dictionary

end EventScript
