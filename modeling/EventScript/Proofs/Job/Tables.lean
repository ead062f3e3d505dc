import EventScript.Proofs.Job

/-!
# Loading tables

What loading the tables of a job depends on. It succeeds if each description can be loaded by itself
(`exists_loadTables_iff`). If the names are different, a look-up finds the table of the description
with this name (`get?_of_loadTables`), so the order of the descriptions does not matter
(`loadTables_perm`). From another image of the same size tables are loaded for the same descriptions
(`matches_of_loadTables`).
-/

namespace EventScript

namespace TableSpec

/-- The byte with the index belongs to the table. -/
def Covers (spec : TableSpec) (index : Nat) : Prop :=
  spec.offset.toNat ≤ index ∧ index < spec.offset.toNat + 4 * spec.count.toNat

/-- No byte belongs to both tables. -/
def Apart (first second : TableSpec) : Prop :=
  ∀ index, first.Covers index → ¬ second.Covers index

end TableSpec

namespace Job

variable {image : Image} {spec : TableSpec} {specs : List TableSpec} {table : PointerTable}
  {tables loaded : Tables}

/-- Loading a table succeeds with the one that is described. -/
theorem load_eq_ok_iff :
    PointerTable.load image spec.name spec.offset spec.count.toUInt64 spec.baseId = .ok table ↔
      Loads image spec table := by
  refine ⟨loads_of_load, fun h => ?_⟩
  obtain ⟨name, offset, baseId, entries, dirty⟩ := table
  obtain ⟨rfl, rfl, rfl, hentries, rfl⟩ := h
  exact PointerTable.load_eq_ok_iff.mpr ⟨entries, hentries, rfl⟩

/-- A description is loaded as one table only. -/
theorem Loads.unique {other : PointerTable} (h : Loads image spec table)
    (hother : Loads image spec other) : table = other :=
  Except.ok.inj ((load_eq_ok_iff.mpr h).symm.trans (load_eq_ok_iff.mpr hother))

/-- The first description is loaded, and then the others. -/
theorem loadTables_cons_eq_ok_iff :
    loadTables image tables (spec :: specs) = .ok loaded ↔
      ∃ table, Loads image spec table ∧
        loadTables image (tables.insert spec.name table) specs = .ok loaded := by
  rw [loadTables]
  constructor
  · intro h
    split at h
    · cases h
    · rename_i table htable
      exact ⟨table, loads_of_load htable, h⟩
  · rintro ⟨table, hloads, h⟩
    simp only [load_eq_ok_iff.mpr hloads, h]

/-- Tables can be loaded if each of them can. -/
theorem exists_loadTables_iff :
    (∃ loaded, loadTables image tables specs = .ok loaded) ↔
      ∀ spec ∈ specs, ∃ table, Loads image spec table := by
  induction specs generalizing tables with
  | nil => simp [loadTables]
  | cons spec rest ih =>
      simp only [loadTables_cons_eq_ok_iff, List.forall_mem_cons]
      constructor
      · rintro ⟨loaded, table, hloads, h⟩
        exact ⟨⟨table, hloads⟩, ih.mp ⟨loaded, h⟩⟩
      · rintro ⟨⟨table, hloads⟩, hrest⟩
        obtain ⟨loaded, h⟩ : ∃ loaded, loadTables image (tables.insert spec.name table) rest =
            .ok loaded := ih.mpr hrest
        exact ⟨loaded, table, hloads, h⟩

/-- Loading keeps tables of other names. -/
theorem get?_loadTables_of_not_mem {name : String} (h : loadTables image tables specs = .ok loaded)
    (hname : name ∉ specs.map TableSpec.name) : loaded.get? name = tables.get? name := by
  induction specs generalizing tables with
  | nil =>
      cases h
      rfl
  | cons spec rest ih =>
      obtain ⟨table, _, hrest⟩ := loadTables_cons_eq_ok_iff.mp h
      rw [List.map_cons, List.mem_cons, not_or] at hname
      rw [ih hrest hname.2, Dictionary.get?_insert, if_neg hname.1]

/-- If the names are different, each description's table is found under its name. -/
theorem get?_of_loadTables (h : loadTables image tables specs = .ok loaded)
    (hnames : (specs.map TableSpec.name).Nodup) (hspec : spec ∈ specs) :
    loaded.get? spec.name = some table ↔ Loads image spec table := by
  induction specs generalizing tables with
  | nil => cases hspec
  | cons first rest ih =>
      obtain ⟨head, hhead, hrest⟩ := loadTables_cons_eq_ok_iff.mp h
      rw [List.map_cons, List.nodup_cons] at hnames
      rcases List.mem_cons.mp hspec with rfl | hspec
      · rw [get?_loadTables_of_not_mem hrest hnames.1, Dictionary.get?_insert, if_pos rfl,
          Option.some.injEq]
        exact ⟨fun heq => heq ▸ hhead, hhead.unique⟩
      · exact ih hrest hnames.2 hspec

/-- The order in which tables of different names are described does not matter. -/
theorem loadTables_perm {others : List TableSpec} (hperm : others.Perm specs)
    (hnames : (specs.map TableSpec.name).Nodup) (h : loadTables image .empty specs = .ok loaded) :
    loadTables image .empty others = .ok loaded := by
  have hothers : (others.map TableSpec.name).Nodup := (hperm.map _).nodup_iff.mpr hnames
  obtain ⟨found, hfound⟩ : ∃ found, loadTables image .empty others = .ok found := by
    have heach := exists_loadTables_iff.mp ⟨loaded, h⟩
    exact exists_loadTables_iff.mpr fun spec hspec => heach spec (hperm.mem_iff.mp hspec)
  suffices heq : found = loaded from heq ▸ hfound
  refine Dictionary.Ordered.ext (loadTables_eq_ok hfound Dictionary.ordered_empty).1
    (loadTables_eq_ok h Dictionary.ordered_empty).1 fun name table => ?_
  by_cases hname : name ∈ specs.map TableSpec.name
  · obtain ⟨spec, hspec, rfl⟩ := List.mem_map.mp hname
    rw [get?_of_loadTables hfound hothers (hperm.mem_iff.mpr hspec),
      get?_of_loadTables h hnames hspec]
  · have hother : name ∉ others.map TableSpec.name := by rwa [(hperm.map _).mem_iff]
    rw [get?_loadTables_of_not_mem hfound hother, get?_loadTables_of_not_mem h hname]

variable {result : Image}

/-- Loading tables from two images takes the same descriptions. -/
theorem matches_of_loadTables {others reloaded : Tables}
    {related : PointerTable → PointerTable → Prop}
    (hrelated : ∀ spec ∈ specs, ∀ table other, Loads image spec table → Loads result spec other →
      related table other)
    (hmatches : Dictionary.Matches related tables others)
    (h : loadTables image tables specs = .ok loaded)
    (hagain : loadTables result others specs = .ok reloaded) :
    Dictionary.Matches related loaded reloaded := by
  induction specs generalizing tables others with
  | nil =>
      cases h
      cases hagain
      exact hmatches
  | cons spec rest ih =>
      obtain ⟨table, hloads, hrest⟩ := loadTables_cons_eq_ok_iff.mp h
      obtain ⟨other, hother, hotherRest⟩ := loadTables_cons_eq_ok_iff.mp hagain
      obtain ⟨hfirst, hlater⟩ := List.forall_mem_cons.mp hrelated
      exact ih hlater (hmatches.insert spec.name (hfirst table other hloads hother))
        hrest hotherRest

end Job

end EventScript
