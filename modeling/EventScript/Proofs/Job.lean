import EventScript.Job
import EventScript.Proofs.Ips
import EventScript.Proofs.Relocator

/-!
# What a job builds

`Loaded` says where the tables of a job come from. While events are placed, each one that is done
has a placement, at which its script was assembled (`Noted`), and each table shows the placements of
its events and is otherwise as it was loaded (`Shown`). Placing an event keeps both
(`placing_step`), hence placing all does (`placing_run`). With what composing patches does,
`delivers_of_run` says what stands in the image in the end.
-/

namespace EventScript

/-- The table and id of an event. -/
def Event.key (event : Event) : String × UInt32 :=
  (event.table, event.id)

namespace Placement

/-- The offset at which the event stands in an image that is loaded at the given address. -/
def offset (loadBase : UInt32) (placement : Placement) : Nat :=
  (placement.address - loadBase).toNat

/-- The event takes the byte with the index. -/
def Covers (loadBase : UInt32) (placement : Placement) (index : Nat) : Prop :=
  placement.offset loadBase ≤ index ∧ index < placement.offset loadBase + placement.size

end Placement

namespace Job

variable {job : Job} {loaded tables : Tables}

/-- A table as it is loaded for a description of it. -/
structure Loads (image : Image) (spec : TableSpec) (table : PointerTable) : Prop where
  name_eq : table.name = spec.name
  offset_eq : table.offset = spec.offset
  baseId_eq : table.baseId = spec.baseId
  entries_eq : image.pointers spec.offset spec.count.toUInt64 = .ok table.entries
  clean : table.dirty = false

/-- Every table of the dictionary was loaded for a description of this name. -/
structure Loaded (job : Job) (loaded : Tables) : Prop where
  ordered : loaded.Ordered
  found : ∀ name table, loaded.get? name = some table →
    ∃ spec ∈ job.tables, spec.name = name ∧ Loads job.image spec table

/-- A table is loaded for its description. -/
theorem loads_of_load {image : Image} {spec : TableSpec} {table : PointerTable}
    (h : PointerTable.load image spec.name spec.offset spec.count.toUInt64 spec.baseId =
      .ok table) :
    Loads image spec table := by
  obtain ⟨entries, hentries, rfl⟩ := PointerTable.load_eq_ok_iff.mp h
  exact ⟨rfl, rfl, rfl, hentries, rfl⟩

/-- Loading tables adds those of the descriptions to the ones loaded before. -/
theorem loadTables_eq_ok {image : Image} {specs : List TableSpec}
    (h : loadTables image tables specs = .ok loaded) (hordered : tables.Ordered) :
    loaded.Ordered ∧ ∀ name table, loaded.get? name = some table →
      tables.get? name = some table ∨
      ∃ spec ∈ specs, spec.name = name ∧ Loads image spec table := by
  induction specs generalizing tables with
  | nil =>
      cases h
      exact ⟨hordered, fun name table htable => .inl htable⟩
  | cons spec rest ih =>
      simp only [loadTables] at h
      split at h
      · cases h
      · rename_i first hfirst
        obtain ⟨hresult, hfound⟩ := ih h (hordered.insert spec.name first)
        refine ⟨hresult, fun name table htable => ?_⟩
        rcases hfound name table htable with hold | ⟨other, hother, hloads⟩
        · rw [Dictionary.get?_insert] at hold
          split at hold
          · rename_i hname
            cases hold
            exact .inr ⟨spec, List.mem_cons_self, hname.symm, loads_of_load hfirst⟩
          · exact .inl hold
        · exact .inr ⟨other, List.mem_cons_of_mem _ hother, hloads⟩

/-- The tables of a job are loaded for its descriptions. -/
theorem loaded_of_loadTables (h : loadTables job.image .empty job.tables = .ok loaded) :
    Loaded job loaded := by
  obtain ⟨hordered, hfound⟩ := loadTables_eq_ok h Dictionary.ordered_empty
  refine ⟨hordered, fun name table htable => ?_⟩
  rcases hfound name table htable with hold | hspec
  · cases hold
  · exact hspec

/-- The placement is that of an event with the given bytes: its script assembles to them at its
address. An event that was not relocated is where its table pointed to when it was loaded, and fits
there. -/
structure Places (job : Job) (loaded : Tables) (event : Event) (placement : Placement)
    (bytes : Bytes) : Prop where
  key_eq : placement.key = event.key
  loadBase_le : job.layout.loadBase ≤ placement.address
  size_eq : placement.size = bytes.length
  assembles : ∃ script assembly,
    (Source.expand job.defines (job.header ++ event.source)).2 = .ok script ∧
      assemble job.grammar placement.address job.constants script = .ok assembly ∧
      assembly.bytes = bytes
  first_place : ∃ table address, loaded.get? event.table = some table ∧
    table.get event.id = .ok address ∧
    (event.capacity = some placement.capacity ∨
      event.capacity = none ∧ job.layout.loadBase ≤ address ∧
        job.image.eventSize (address - job.layout.loadBase) = .ok placement.capacity) ∧
    (placement.relocated = false → placement.address = address ∧
      placement.size ≤ placement.capacity)

/-- What became of a loaded table: it shows the placements of its events, and all else as before. -/
structure Shows (placements : List Placement) (name : String) (before after : PointerTable) :
    Prop where
  rewrites : PointerTable.Rewrites before after
  placed : ∀ placement ∈ placements, placement.table = name →
    after.get placement.id = .ok placement.address
  others : ∀ id, (∀ placement ∈ placements, placement.key ≠ (name, id)) →
    after.get id = before.get id

/-- What a relocator has noted after some events were placed: one placement and one patch for each.
-/
structure Noted (job : Job) (loaded : Tables) (done : List Event) (relocator : Relocator) :
    Prop where
  grammar_eq : relocator.grammar = job.grammar
  layout_eq : relocator.layout = job.layout
  keys_eq : relocator.placements.map Placement.key = done.map Event.key
  nodup : (done.map Event.key).Nodup
  placed : ∀ key, key ∈ relocator.placed ↔ key ∈ done.map Event.key
  placements : ∀ placement ∈ relocator.placements, ∃ event ∈ done,
    ∃ patch ∈ relocator.patches.patches, Places job loaded event placement patch.bytes ∧
      patch.offset = placement.address - job.layout.loadBase
  patches : ∀ patch ∈ relocator.patches.patches, ∃ placement ∈ relocator.placements,
    patch.offset = placement.address - job.layout.loadBase ∧ patch.bytes.length = placement.size

/-- What the tables show after some events were placed. -/
structure Shown (loaded : Tables) (placements : List Placement) (tables : Tables) : Prop where
  ordered : tables.Ordered
  loaded_of : ∀ name after, tables.get? name = some after →
    ∃ before, loaded.get? name = some before
  shows : ∀ name before, loaded.get? name = some before →
    ∃ after, tables.get? name = some after ∧ Shows placements name before after

/-- Nothing is noted at the start. -/
theorem noted_start (job : Job) (loaded : Tables) :
    Noted job loaded [] (.start job.grammar job.layout) := by
  refine ⟨rfl, rfl, rfl, List.nodup_nil, by simp [Relocator.start], by simp [Relocator.start], ?_⟩
  simp [Relocator.start, PatchSet.empty]

/-- At the start the tables are as they were loaded. -/
theorem shown_start (hloaded : Loaded job loaded) : Shown loaded [] loaded := by
  refine ⟨hloaded.ordered, fun name after hafter => ⟨after, hafter⟩, fun name before hbefore => ?_⟩
  obtain ⟨spec, _, _, hloads⟩ := hloaded.found name before hbefore
  exact ⟨before, hbefore, PointerTable.rewrites_self hloads.clean, by simp, fun _ _ => rfl⟩

variable {relocator after : Relocator} {table changed : PointerTable} {event : Event}

/-- The capacity of an event is the one it is given or that of the event its table points to. -/
theorem capacity_eq_ok {capacity : Nat} {address : UInt32}
    (h : job.capacity table event = .ok capacity) (hget : table.get event.id = .ok address) :
    event.capacity = some capacity ∨
      event.capacity = none ∧ job.layout.loadBase ≤ address ∧
        job.image.eventSize (address - job.layout.loadBase) = .ok capacity := by
  unfold Job.capacity at h
  split at h
  · rename_i given hgiven
    cases h
    exact .inl hgiven
  · rename_i hnone
    rw [hget] at h
    simp only at h
    split at h
    · cases h
    · rename_i offset hoffset
      obtain ⟨hbase, rfl⟩ := Layout.toOffset_eq_ok_iff.mp hoffset
      cases hsize : job.image.eventSize (address - job.layout.loadBase) with
      | error fault =>
          rw [hsize] at h
          cases h
      | ok size =>
          rw [hsize] at h
          cases h
          exact .inr ⟨hnone, hbase, rfl⟩

/-- Placing an event expands its source and places the script. -/
theorem placeEvent_eq_ok (h : job.placeEvent relocator table event = .ok (after, changed)) :
    ∃ capacity script assembly, job.capacity table event = .ok capacity ∧
      (Source.expand job.defines (job.header ++ event.source)).2 = .ok script ∧
      relocator.place table event.id capacity script job.constants =
        (after, changed, .ok assembly) := by
  unfold placeEvent at h
  split at h
  · cases h
  · rename_i capacity hcapacity
    split at h
    · cases h
    · rename_i script hscript
      split at h
      · cases h
      · rename_i placed settled assembly hplace
        cases h
        exact ⟨capacity, script, assembly, hcapacity, hscript, hplace⟩

variable {placements : List Placement} {placement : Placement} {name : String}
  {before : PointerTable}

/-- A placement in another table leaves what a table shows. -/
theorem Shows.skip (h : Shows placements name before table) (hother : placement.table ≠ name) :
    Shows (placements ++ [placement]) name before table := by
  refine ⟨h.rewrites, fun one hone hname => ?_, fun id hfree => ?_⟩
  · rcases List.mem_append.mp hone with hold | hnew
    · exact h.placed one hold hname
    · rw [List.mem_singleton.mp hnew] at hname
      exact absurd hname hother
  · exact h.others id fun one hone => hfree one (List.mem_append_left _ hone)

/-- A new placement in a table is shown, and hides no other one. -/
theorem Shows.place (h : Shows placements name before table) (hname : placement.table = name)
    (hfresh : ∀ other ∈ placements, other.key ≠ placement.key)
    (hrewrites : PointerTable.Rewrites before changed)
    (hget : ∀ id, changed.get id =
      if id = placement.id then .ok placement.address else table.get id) :
    Shows (placements ++ [placement]) name before changed := by
  refine ⟨hrewrites, fun one hone honename => ?_, fun id hfree => ?_⟩
  · rw [hget]
    rcases List.mem_append.mp hone with hold | hnew
    · have hid : one.id ≠ placement.id := fun heq =>
        hfresh one hold (Prod.ext (honename.trans hname.symm) heq)
      rw [if_neg hid]
      exact h.placed one hold honename
    · rw [List.mem_singleton.mp hnew, if_pos rfl]
  · have hid : id ≠ placement.id := fun heq =>
      hfree placement (List.mem_append_right _ List.mem_cons_self) (Prod.ext hname heq.symm)
    rw [hget, if_neg hid]
    exact h.others id fun one hone => hfree one (List.mem_append_left _ hone)

/-- A table that shows a new placement is put in the place of the old one. -/
theorem Shown.insert (h : Shown loaded placements tables)
    (hbefore : loaded.get? placement.table = some before)
    (hshows : Shows (placements ++ [placement]) placement.table before changed) :
    Shown loaded (placements ++ [placement]) (tables.insert placement.table changed) := by
  refine ⟨h.ordered.insert _ _, fun name other hother => ?_, fun name other hother => ?_⟩
  · rw [Dictionary.get?_insert] at hother
    split at hother
    · rename_i hname
      exact ⟨before, hname ▸ hbefore⟩
    · exact h.loaded_of name other hother
  · rw [Dictionary.get?_insert]
    by_cases hname : name = placement.table
    · subst hname
      obtain rfl := Option.some.inj (hbefore.symm.trans hother)
      rw [if_pos rfl]
      exact ⟨changed, rfl, hshows⟩
    · rw [if_neg hname]
      obtain ⟨last, hlast, hshowsOther⟩ := h.shows name other hother
      exact ⟨last, hlast, hshowsOther.skip (Ne.symm hname)⟩

/-- A new event is noted with its placement and its patch. -/
theorem Noted.concat {done : List Event} {patch : Patch} (h : Noted job loaded done relocator)
    (hfresh : event.key ∉ done.map Event.key) (hgrammar : after.grammar = relocator.grammar)
    (hlayout : after.layout = relocator.layout)
    (hkeys : after.placed = event.key :: relocator.placed)
    (hplacements : after.placements = relocator.placements ++ [placement])
    (hpatches : after.patches.patches = relocator.patches.patches ++ [patch])
    (hplaces : Places job loaded event placement patch.bytes)
    (hoffset : patch.offset = placement.address - job.layout.loadBase) :
    Noted job loaded (done ++ [event]) after := by
  constructor
  · exact hgrammar.trans h.grammar_eq
  · exact hlayout.trans h.layout_eq
  · rw [hplacements, List.map_append, List.map_append, h.keys_eq, List.map_singleton,
      hplaces.key_eq, List.map_singleton]
  · rw [List.map_append, List.nodup_append]
    refine ⟨h.nodup, List.pairwise_singleton .., ?_⟩
    rintro key hkey _ hother rfl
    rw [List.map_singleton, List.mem_singleton] at hother
    exact hfresh (hother ▸ hkey)
  · intro key
    rw [hkeys, List.map_append, List.mem_append, List.mem_cons, h.placed, or_comm,
      List.map_singleton, List.mem_singleton]
  · rw [hplacements, hpatches]
    intro one hone
    rcases List.mem_append.mp hone with hold | hlast
    · obtain ⟨other, hother, old, hmem, hplacesOther⟩ := h.placements one hold
      exact ⟨other, List.mem_append_left _ hother, old, List.mem_append_left _ hmem, hplacesOther⟩
    · rw [List.mem_singleton.mp hlast]
      exact ⟨event, List.mem_append_right _ List.mem_cons_self, patch,
        List.mem_append_right _ List.mem_cons_self, hplaces, hoffset⟩
  · rw [hplacements, hpatches]
    intro one hone
    rcases List.mem_append.mp hone with hold | hlast
    · obtain ⟨other, hother, hpatchOther⟩ := h.patches one hold
      exact ⟨other, List.mem_append_left _ hother, hpatchOther⟩
    · rw [List.mem_singleton.mp hlast]
      exact ⟨placement, List.mem_append_right _ List.mem_cons_self, hoffset, hplaces.size_eq.symm⟩

/-- Placing an event notes it, and its table shows it. -/
theorem placing_step {done : List Event} (hloaded : Loaded job loaded)
    (hnoted : Noted job loaded done relocator) (hshown : Shown loaded relocator.placements tables)
    (htable : tables.get? event.table = some table)
    (hplace : job.placeEvent relocator table event = .ok (after, changed)) :
    Noted job loaded (done ++ [event]) after ∧
      Shown loaded after.placements (tables.insert event.table changed) := by
  obtain ⟨before, hbefore⟩ := hshown.loaded_of _ _ htable
  obtain ⟨_, hsame, hshows⟩ := hshown.shows _ _ hbefore
  obtain rfl := Option.some.inj (htable.symm.trans hsame)
  obtain ⟨spec, _, hspec, hloads⟩ := hloaded.found _ _ hbefore
  have hname : table.name = event.table :=
    hshows.rewrites.name_eq.trans (hloads.name_eq.trans hspec)
  obtain ⟨capacity, script, assembly, hcapacity, hscript, hplaced⟩ := placeEvent_eq_ok hplace
  obtain ⟨hfresh, hkeys, hgrammar, hlayout, hassemble, hbase, hpatches, relocated, current,
    hcurrent, hplacements, hsettled⟩ := Relocator.place_eq_ok hplaced
  rw [hname] at hfresh hkeys hpatches hplacements
  rw [hnoted.layout_eq] at hbase hpatches
  rw [hnoted.grammar_eq] at hassemble
  -- The event was not placed before, so its entry still is the loaded one.
  have hnew : event.key ∉ done.map Event.key := fun hmem => hfresh ((hnoted.placed _).mpr hmem)
  have hfreshKey : ∀ other ∈ relocator.placements, other.key ≠ event.key := by
    intro other hother heq
    apply hnew
    rw [← hnoted.keys_eq, ← heq]
    exact List.mem_map_of_mem hother
  have hfirst : table.get event.id = before.get event.id := hshows.others event.id hfreshKey
  have hplaces : Places job loaded event
      ⟨Relocator.unitName event.table event.id, event.table, event.id, assembly.base, assembly.size,
        capacity, relocated⟩ assembly.bytes := by
    refine ⟨rfl, hbase, rfl, ⟨script, assembly, hscript, hassemble, rfl⟩,
      before, current, hbefore, hfirst ▸ hcurrent, capacity_eq_ok hcapacity hcurrent, ?_⟩
    rintro rfl
    exact hsettled.2
  refine ⟨hnoted.concat hnew hgrammar hlayout hkeys hplacements hpatches hplaces rfl, ?_⟩
  rw [hplacements]
  refine hshown.insert hbefore ?_
  cases relocated with
  | true =>
      exact hshows.place rfl hfreshKey (hshows.rewrites.set hfirst hsettled)
        (PointerTable.get_of_set hsettled)
  | false =>
      obtain ⟨rfl, hstays, _⟩ := hsettled
      refine hshows.place rfl hfreshKey hshows.rewrites fun id => ?_
      by_cases hid : id = event.id
      · rw [if_pos hid, hid, hcurrent, hstays]
      · rw [if_neg hid]

/-- Placing events notes all of them, and the tables show them. -/
theorem placing_run {done events : List Event} {final : Relocator} {last : Tables}
    (hloaded : Loaded job loaded) (hnoted : Noted job loaded done relocator)
    (hshown : Shown loaded relocator.placements tables)
    (h : job.placeEvents relocator tables events = .ok (final, last)) :
    Noted job loaded (done ++ events) final ∧ Shown loaded final.placements last := by
  induction events generalizing done relocator tables with
  | nil =>
      cases h
      rw [List.append_nil]
      exact ⟨hnoted, hshown⟩
  | cons event rest ih =>
      simp only [placeEvents] at h
      split at h
      · cases h
      · rename_i table htable
        split at h
        · cases h
        · rename_i next changed hplace
          obtain ⟨hnext, hnextShown⟩ := placing_step hloaded hnoted hshown htable hplace
          have hrest := ih hnext hnextShown h
          rwa [List.append_assoc] at hrest

/-- The patches of changed tables are added, each of which writes all entries. -/
theorem mem_addTables {set result : PatchSet} {all : List PointerTable}
    (h : addTables set all = .ok result) (patch : Patch) :
    patch ∈ result.patches ↔ patch ∈ set.patches ∨
      ∃ table ∈ all, table.dirty = true ∧
        patch = ⟨table.offset, words table.entries, table.name⟩ := by
  induction all generalizing set with
  | nil =>
      cases h
      simp
  | cons table rest ih =>
      simp only [addTables] at h
      split at h
      · cases h
      · rename_i patches hpatches
        rw [ih h, PatchSet.append, PointerTable.patches_eq_ok hpatches]
        by_cases hdirty : table.dirty = true <;> simp [hdirty, or_assoc]

/-- The patches of IPS files are added. -/
theorem mem_appendFiles (set : PatchSet) (files : List IpsFile) (patch : Patch) :
    patch ∈ (files.foldl (fun set file => set.append file.patches) set).patches ↔
      patch ∈ set.patches ∨ ∃ file ∈ files, patch ∈ file.patches.patches := by
  rw [IpsFile.patches_appendFiles, List.mem_append, List.mem_flatMap]

/-- The byte with the index is one that a run of the job writes: it belongs to an event, to a table
that was changed or to a record of an IPS file. -/
inductive Touched (job : Job) (loaded final : Tables) (summary : Summary) (index : Nat) : Prop where
  | event {placement : Placement} (hplacement : placement ∈ summary.placements)
      (hcovers : placement.Covers job.layout.loadBase index)
  | table {name : String} {before after : PointerTable} (hbefore : loaded.get? name = some before)
      (hafter : final.get? name = some after) (hchanged : after.entries ≠ before.entries)
      (hcovers : before.offset.toNat ≤ index ∧
        index < before.offset.toNat + 4 * before.entries.length)
  | record {file : IpsFile} {record : UInt32 × Bytes} (hfile : file ∈ job.ips)
      (hrecord : record ∈ file.records.entries)
      (hcovers : record.1.toNat ≤ index ∧ index < record.1.toNat + record.2.length)

/-- What a job delivers whose tables are loaded as the first ones and end as the second ones. Each
event has one placement, and what its script assembles to stands there in the image; a table that
was changed can be read back from the image, and points to the placements of its events; and no
other byte is changed. -/
structure Delivers (job : Job) (loaded final : Tables) (image : Image) (summary : Summary) :
    Prop where
  size_eq : image.size = job.image.size
  every_event : (summary.placements.map Placement.key).Perm (job.events.map Event.key)
  once : (summary.placements.map Placement.key).Nodup
  placed : ∀ placement ∈ summary.placements, ∃ event ∈ job.events, ∃ bytes,
    Places job loaded event placement bytes ∧
      placement.offset job.layout.loadBase + placement.size ≤ image.size ∧
      (image.bytes.drop (placement.offset job.layout.loadBase)).take placement.size = bytes
  tables : ∀ name before, loaded.get? name = some before → ∃ spec ∈ job.tables, ∃ after,
    spec.name = name ∧ Loads job.image spec before ∧ final.get? name = some after ∧
      Shows summary.placements name before after ∧
      (after.entries ≠ before.entries → ∃ reloaded, Loads image spec reloaded ∧
        reloaded.entries = after.entries ∧
        ∀ placement ∈ summary.placements, placement.table = name →
          reloaded.get placement.id = .ok placement.address)
  kept : ∀ index, ¬ Touched job loaded final summary index →
    image.bytes[index]? = job.image.bytes[index]?

variable {final : Tables} {image : Image} {summary : Summary} {set : PatchSet}

/-- The patches that a run writes: those of events, of changed tables and of IPS files. -/
inductive Writes (job : Job) (relocator : Relocator) (final : Tables) (patch : Patch) : Prop where
  | event (h : patch ∈ relocator.patches.patches)
  | table {name : String} {table : PointerTable} (hget : final.get? name = some table)
      (hdirty : table.dirty = true)
      (hpatch : patch = ⟨table.offset, words table.entries, table.name⟩)
  | record {file : IpsFile} (hfile : file ∈ job.ips) (h : patch ∈ file.patches.patches)

/-- A run loads the tables, places the events in order and composes the patches. -/
theorem run_eq_ok (h : job.run = .ok (image, summary)) :
    ∃ loaded final relocator written, loadTables job.image .empty job.tables = .ok loaded ∧
      job.placeEvents (.start job.grammar job.layout) loaded (job.events.mergeSort placedBefore) =
        .ok (relocator, final) ∧
      addTables relocator.patches final.values = .ok written ∧
      (job.ips.foldl (fun set file => set.append file.patches) written).compose job.image =
        .ok image ∧
      summary.placements = relocator.placements := by
  unfold run at h
  split at h
  · cases h
  · rename_i loaded hloaded
    split at h
    · cases h
    · rename_i relocator final hplace
      split at h
      · cases h
      · rename_i written hwritten
        simp only at h
        split at h
        · cases h
        · rename_i result hcompose
          cases h
          exact ⟨loaded, final, relocator, written, hloaded, hplace, hwritten, hcompose, rfl⟩

/-- The patches that are composed are those that a run writes. -/
theorem mem_written (job : Job) {written : PatchSet} (hordered : final.Ordered)
    (h : addTables relocator.patches final.values = .ok written) (patch : Patch) :
    patch ∈ (job.ips.foldl (fun set file => set.append file.patches) written).patches ↔
      Writes job relocator final patch := by
  rw [mem_appendFiles, mem_addTables h]
  constructor
  · rintro ((hevent | ⟨table, htable, hdirty, hpatch⟩) | ⟨file, hfile, hrecord⟩)
    · exact .event hevent
    · obtain ⟨⟨name, _⟩, hentry, rfl⟩ := List.mem_map.mp htable
      exact .table (hordered.get?_eq_some_iff.mpr hentry) hdirty hpatch
    · exact .record hfile hrecord
  · intro hwrites
    cases hwrites with
    | event hevent => exact .inl (.inl hevent)
    | table hget hdirty hpatch =>
        have hentry := hordered.get?_eq_some_iff.mp hget
        exact .inl (.inr ⟨_, List.mem_map_of_mem hentry, hdirty, hpatch⟩)
    | record hfile hrecord => exact .inr ⟨_, hfile, hrecord⟩

/-- What was assembled for a placement stands in the composed image. -/
theorem Noted.stands {done : List Event} (h : Noted job loaded done relocator)
    (hwritten : ∀ patch, patch ∈ set.patches ↔ Writes job relocator final patch)
    (hcompose : set.compose job.image = .ok image) (hplacement : placement ∈ relocator.placements) :
    ∃ event ∈ done, ∃ bytes, Places job loaded event placement bytes ∧
      placement.offset job.layout.loadBase + placement.size ≤ image.size ∧
      (image.bytes.drop (placement.offset job.layout.loadBase)).take placement.size = bytes := by
  obtain ⟨event, hevent, patch, hpatch, hplaces, hoffset⟩ := h.placements placement hplacement
  have hmem : patch ∈ set.patches := (hwritten patch).mpr (.event hpatch)
  have hcomposed := PatchSet.composed_of_compose hcompose
  have hinside : patch.stop ≤ job.image.size := (PatchSet.inside_of_compose hcompose hmem).2
  have hstands : patch.StandsIn image.bytes := hcomposed.stands patch hmem
  rw [Patch.stop, hoffset, ← hplaces.size_eq, ← hcomposed.size] at hinside
  rw [Patch.StandsIn, hoffset, ← hplaces.size_eq] at hstands
  exact ⟨event, hevent, patch.bytes, hplaces, hinside, hstands⟩

/-- A table that was changed can be read back from the composed image. -/
theorem Shows.reloads {spec : TableSpec} (h : Shows placements name before table)
    (hloads : Loads job.image spec before) (htable : final.get? name = some table)
    (hwritten : ∀ patch, patch ∈ set.patches ↔ Writes job relocator final patch)
    (hcompose : set.compose job.image = .ok image) (hchanged : table.entries ≠ before.entries) :
    ∃ reloaded, Loads image spec reloaded ∧ reloaded.entries = table.entries ∧
      ∀ placement ∈ placements, placement.table = name →
        reloaded.get placement.id = .ok placement.address := by
  have hcomposed := PatchSet.composed_of_compose hcompose
  have hdirty : table.dirty = true := h.rewrites.changed.mpr hchanged
  have hstands := hcomposed.stands _ ((hwritten _).mpr (.table htable hdirty rfl))
  rw [h.rewrites.offset_eq.trans hloads.offset_eq] at hstands
  -- The table was inside the image when it was loaded, and it is written back as a whole.
  have hpointers := Image.pointers_of_standsIn hloads.entries_eq hcomposed.size
    h.rewrites.length_eq hstands
  refine ⟨{ table with dirty := false }, ?_, rfl, h.placed⟩
  exact ⟨h.rewrites.name_eq.trans hloads.name_eq, h.rewrites.offset_eq.trans hloads.offset_eq,
    h.rewrites.baseId_eq.trans hloads.baseId_eq, hpointers, rfl⟩

/-- A patch that covers a byte touches it. -/
theorem Writes.touched {done : List Event} {patch : Patch} {index : Nat}
    (h : Writes job relocator final patch) (hnoted : Noted job loaded done relocator)
    (hshown : Shown loaded relocator.placements final)
    (hplacements : summary.placements = relocator.placements) (hcovers : patch.Covers index) :
    Touched job loaded final summary index := by
  cases h with
  | event hpatch =>
      obtain ⟨placement, hplacement, hoffset, hlength⟩ := hnoted.patches patch hpatch
      rw [Patch.Covers, Patch.stop, hoffset, hlength] at hcovers
      exact .event (hplacements ▸ hplacement) hcovers
  | @table name table hget hdirty hpatch =>
      obtain ⟨before, hbefore⟩ := hshown.loaded_of name table hget
      obtain ⟨_, hsame, hshows⟩ := hshown.shows name before hbefore
      obtain rfl := Option.some.inj (hget.symm.trans hsame)
      rw [hpatch, Patch.Covers, Patch.stop, length_words, hshows.rewrites.offset_eq,
        hshows.rewrites.length_eq] at hcovers
      exact .table hbefore hget (hshows.rewrites.changed.mp hdirty) hcovers
  | record hfile hpatch =>
      obtain ⟨record, hrecord, rfl⟩ := List.mem_map.mp hpatch
      exact .record hfile hrecord hcovers

/-- A job whose run succeeds delivers its events: each stands in the image where its placement says
and is found there through its table, and the rest of the image is kept. -/
theorem delivers_of_run (h : job.run = .ok (image, summary)) :
    ∃ loaded final relocator, loadTables job.image .empty job.tables = .ok loaded ∧
      job.placeEvents (.start job.grammar job.layout) loaded (job.events.mergeSort placedBefore) =
        .ok (relocator, final) ∧
      Delivers job loaded final image summary := by
  obtain ⟨loaded, final, relocator, written, hload, hplace, hwritten, hcompose, hplacements⟩ :=
    run_eq_ok h
  have hloaded := loaded_of_loadTables hload
  obtain ⟨hnoted, hshown⟩ :=
    placing_run hloaded (noted_start job loaded) (shown_start hloaded) hplace
  have hwrites := mem_written job hshown.ordered hwritten
  have hcomposed := PatchSet.composed_of_compose hcompose
  have hsorted : (job.events.mergeSort placedBefore).Perm job.events := List.mergeSort_perm ..
  refine ⟨loaded, final, relocator, hload, hplace, hcomposed.size, ?_, ?_, ?_, ?_, ?_⟩
  · rw [hplacements, hnoted.keys_eq]
    exact hsorted.map Event.key
  · rw [hplacements, hnoted.keys_eq]
    exact hnoted.nodup
  · intro placement hplacement
    rw [hplacements] at hplacement
    obtain ⟨event, hevent, hstands⟩ := hnoted.stands hwrites hcompose hplacement
    exact ⟨event, hsorted.mem_iff.mp hevent, hstands⟩
  · intro name before hbefore
    obtain ⟨spec, hspec, hname, hloads⟩ := hloaded.found name before hbefore
    obtain ⟨after, hafter, hshows⟩ := hshown.shows name before hbefore
    rw [hplacements]
    exact ⟨spec, hspec, after, hname, hloads, hafter, hshows,
      hshows.reloads hloads hafter hwrites hcompose⟩
  · intro index huntouched
    refine hcomposed.kept index fun patch hpatch hcovers => huntouched ?_
    exact ((hwrites patch).mp hpatch).touched hnoted hshown hplacements hcovers

/-- A job with an event that fits in its place, an event that does not, and a record of an IPS file.
-/
def twoEvents : Job where
  image := ⟨[0, 4, 9, 9, 0, 4, 9, 9, 5, 5, 5, 5, 5, 5, 5, 5, 0, 0, 0, 8, 4, 0, 0, 8, 6, 6]⟩
  layout := ⟨0x8000000, 0x8000008, 8⟩
  grammar := .empty
  header := "#define last 7\n"
  defines := .empty
  constants := ⟨[("op", 0xfe)]⟩
  tables := [⟨"map", 16, 2, 3⟩]
  events := [⟨"map", 3, some 4, "db 0 4 1 last"⟩, ⟨"map", 4, none, "db %op 4 1 2\ndb 0 4 0 last"⟩]
  ips := [⟨"extra", ⟨[(24, [8])]⟩⟩]

/-- The larger event is moved to the free space and its table points there. -/
theorem delivers_of_run_twoEvents :
    ∃ image summary loaded final, twoEvents.run = .ok (image, summary) ∧
      image.bytes =
        [0, 4, 1, 7, 0, 4, 9, 9, 0xfe, 4, 1, 2, 0, 4, 0, 7, 0, 0, 0, 8, 8, 0, 0, 8, 8, 6] ∧
      summary.placements = [⟨"map[0x3]", "map", 3, 0x8000000, 4, 4, false⟩,
        ⟨"map[0x4]", "map", 4, 0x8000008, 8, 4, true⟩] ∧
      Delivers twoEvents loaded final image summary := by
  have hload : loadTables twoEvents.image .empty twoEvents.tables =
      .ok ⟨[("map", ⟨"map", 16, 3, [0x8000000, 0x8000004], false⟩)]⟩ := by
    decide +kernel
  have hsort : twoEvents.events.mergeSort placedBefore = twoEvents.events :=
    List.mergeSort_of_pairwise (by decide +kernel)
  have hplace : twoEvents.placeEvents (.start twoEvents.grammar twoEvents.layout)
      ⟨[("map", ⟨"map", 16, 3, [0x8000000, 0x8000004], false⟩)]⟩ twoEvents.events =
      .ok (⟨.empty, twoEvents.layout,
        ⟨0x8000008, 0x8000010, 0x8000010, [⟨"map[0x4]", 0x8000008, 8⟩]⟩,
        [("map", 4), ("map", 3)],
        ⟨[⟨0, [0, 4, 1, 7], "map[0x3]"⟩, ⟨8, [0xfe, 4, 1, 2, 0, 4, 0, 7], "map[0x4]"⟩]⟩,
        [⟨"map[0x3]", "map", 3, 0x8000000, 4, 4, false⟩,
          ⟨"map[0x4]", "map", 4, 0x8000008, 8, 4, true⟩]⟩,
        ⟨[("map", ⟨"map", 16, 3, [0x8000000, 0x8000008], true⟩)]⟩) := by
    decide +kernel
  have hadd : addTables
      ⟨[⟨0, [0, 4, 1, 7], "map[0x3]"⟩, ⟨8, [0xfe, 4, 1, 2, 0, 4, 0, 7], "map[0x4]"⟩]⟩
      (Dictionary.values ⟨[("map", ⟨"map", 16, 3, [0x8000000, 0x8000008], true⟩)]⟩) =
      .ok ⟨[⟨0, [0, 4, 1, 7], "map[0x3]"⟩, ⟨8, [0xfe, 4, 1, 2, 0, 4, 0, 7], "map[0x4]"⟩,
        ⟨16, [0, 0, 0, 8, 8, 0, 0, 8], "map"⟩]⟩ := by
    decide +kernel
  have hcompose : PatchSet.compose
      (twoEvents.ips.foldl (fun set file => set.append file.patches)
        ⟨[⟨0, [0, 4, 1, 7], "map[0x3]"⟩, ⟨8, [0xfe, 4, 1, 2, 0, 4, 0, 7], "map[0x4]"⟩,
          ⟨16, [0, 0, 0, 8, 8, 0, 0, 8], "map"⟩]⟩) twoEvents.image =
      .ok ⟨[0, 4, 1, 7, 0, 4, 9, 9, 0xfe, 4, 1, 2, 0, 4, 0, 7, 0, 0, 0, 8, 8, 0, 0, 8, 8, 6]⟩ := by
    rw [PatchSet.compose, PatchSet.sorted, List.mergeSort_of_pairwise (by decide +kernel)]
    decide +kernel
  have hrun : twoEvents.run = .ok
      (⟨[0, 4, 1, 7, 0, 4, 9, 9, 0xfe, 4, 1, 2, 0, 4, 0, 7, 0, 0, 0, 8, 8, 0, 0, 8, 8, 6]⟩,
        ⟨[⟨"map[0x3]", "map", 3, 0x8000000, 4, 4, false⟩,
          ⟨"map[0x4]", "map", 4, 0x8000008, 8, 4, true⟩],
          [⟨"map[0x4]", 0x8000008, 8⟩], 0, 4, 21⟩) := by
    simp only [run, hload, hsort, hplace, hadd, hcompose]
    decide +kernel
  obtain ⟨loaded, final, _, _, _, hdelivers⟩ := delivers_of_run hrun
  exact ⟨_, _, loaded, final, hrun, rfl, rfl, hdelivers⟩

end Job

end EventScript
