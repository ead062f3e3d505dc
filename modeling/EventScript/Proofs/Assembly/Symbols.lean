import EventScript.Assembly.Symbol
import EventScript.Proofs.Dictionary

/-!
# Tables of symbols

A name is given once: `define?_eq_some_iff` says when a name can be given and what look-ups see
afterwards. The dictionary of labels of a table that arose by giving names (`Lists`) holds every
label once, so that `Lists.get?_labels` holds: the dictionary and the table agree on all labels.
-/

namespace EventScript.SymbolTable

variable {table after : SymbolTable} {name : String} {symbol : Symbol}

/-- A name can be given if it is free, and is then put into the table. -/
theorem define?_eq_some_iff :
    table.define? name symbol = some after ↔
      table.symbols.get? name = none ∧ after = ⟨table.symbols.insert name symbol⟩ := by
  unfold define? Dictionary.contains
  cases table.symbols.get? name <;> simp [eq_comm]

/-- What look-ups see after a name was given. -/
theorem get?_of_define? (h : table.define? name symbol = some after) (other : String) :
    after.symbols.get? other = if other = name then some symbol else table.symbols.get? other := by
  obtain ⟨_, rfl⟩ := define?_eq_some_iff.mp h
  exact Dictionary.get?_insert ..

/-- A table of constants holds these constants. -/
theorem get?_ofConstants (constants : Constants) (name : String) :
    (ofConstants constants).symbols.get? name = (constants.get? name).map .constant := by
  unfold ofConstants Dictionary.get?
  induction constants.entries with
  | nil => rfl
  | cons entry rest ih =>
      simp only [List.map_cons, Dictionary.find?]
      by_cases hname : name = entry.1
      · rw [if_pos hname, if_pos hname, Option.map_some]
      · rw [if_neg hname, if_neg hname, ih]

/-- The labels of a table are its entries for labels. -/
theorem mem_labels {address : UInt32} :
    (name, address) ∈ table.labels.entries ↔ (name, .label address) ∈ table.symbols.entries := by
  simp only [labels, List.mem_filterMap]
  constructor
  · rintro ⟨⟨other, symbol⟩, hmem, heq⟩
    cases symbol with
    | label value =>
        cases heq
        exact hmem
    | constant value => cases heq
  · intro hmem
    exact ⟨_, hmem, rfl⟩

/-- No label of the table is hidden by an entry in front of it. -/
structure Lists (table : SymbolTable) : Prop where
  nodup : table.labels.keys.Nodup
  found : ∀ name address, (name, .label address) ∈ table.symbols.entries →
    table.symbols.get? name = some (.label address)

/-- A table of constants has no labels. -/
theorem lists_ofConstants (constants : Constants) : (ofConstants constants).Lists := by
  have hnone :
      ∀ name address, (name, .label address) ∉ (ofConstants constants).symbols.entries := by
    intro name address hmem
    obtain ⟨entry, _, heq⟩ := List.mem_map.mp hmem
    cases heq
  refine ⟨?_, fun name address hmem => absurd hmem (hnone name address)⟩
  have hempty : (ofConstants constants).labels.entries = [] := by
    apply List.eq_nil_iff_forall_not_mem.mpr
    rintro ⟨name, address⟩ hmem
    exact hnone name address (mem_labels.mp hmem)
  simp [Dictionary.keys, hempty]

/-- Giving a name hides no label. -/
theorem Lists.define (h : table.Lists) (hdefine : table.define? name symbol = some after) :
    after.Lists := by
  have hget := get?_of_define? hdefine
  obtain ⟨hfree, rfl⟩ := define?_eq_some_iff.mp hdefine
  have hperm := Dictionary.insertEntry_perm hfree symbol
  have hnew : ∀ address, (name, .label address) ∉ table.symbols.entries := by
    intro address hmem
    rw [h.found name address hmem] at hfree
    cases hfree
  constructor
  · apply ((hperm.filterMap _).map Prod.fst).nodup_iff.mpr
    cases symbol with
    | constant value => exact h.nodup
    | label address =>
        refine List.nodup_cons.mpr ⟨fun hmem => ?_, h.nodup⟩
        obtain ⟨⟨other, old⟩, hold, rfl⟩ := List.mem_map.mp hmem
        exact hnew old (mem_labels.mp hold)
  · intro other address hmem
    rw [hget]
    rcases List.mem_cons.mp (hperm.mem_iff.mp hmem) with heq | hold
    · cases heq
      rw [if_pos rfl]
    · have hother : other ≠ name := by
        rintro rfl
        exact hnew address hold
      rw [if_neg hother]
      exact h.found other address hold

/-- The label of a name is an entry of the table. -/
theorem label?_eq_some_iff {address : UInt32} :
    table.label? name = some address ↔ table.symbols.get? name = some (.label address) := by
  unfold label?
  split
  · rename_i heq
    simp [heq]
  · rename_i hother
    constructor
    · intro h
      cases h
    · intro h
      exact absurd h (hother address)

/-- The constant of a name is an entry of the table. -/
theorem constant?_eq_some_iff {value : UInt32} :
    table.constant? name = some value ↔ table.symbols.get? name = some (.constant value) := by
  unfold constant?
  split
  · rename_i heq
    simp [heq]
  · rename_i hother
    constructor
    · intro h
      cases h
    · intro h
      exact absurd h (hother value)

/-- The dictionary of labels and the table agree. -/
theorem Lists.get?_labels (h : table.Lists) (name : String) :
    table.labels.get? name = table.label? name := by
  apply Option.ext
  intro address
  rw [Dictionary.get?, Dictionary.find?_eq_some_iff h.nodup, mem_labels, label?_eq_some_iff]
  exact ⟨h.found name address, Dictionary.mem_of_find?⟩

end EventScript.SymbolTable
