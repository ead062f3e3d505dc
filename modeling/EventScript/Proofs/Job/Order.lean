import Mathlib.Data.List.Nodup
import EventScript.Proofs.Job.Tables

/-!
# The order of a job's events and tables

A job does not depend on the order in which its events and tables are listed. Events are placed by
table and id, which leaves no choice if no two events share both (`mergeSort_placedBefore_perm`),
and a run that places two events of one table and id fails in any order. Tables are found by name,
so `run_perm` asks for different names: of two tables with one name the later counts.
-/

namespace EventScript.Job

/-- Events are placed in the order of their tables and, within a table, of their ids. -/
theorem placedBefore_iff {first second : Event} : placedBefore first second = true ↔
    first.table < second.table ∨ first.table = second.table ∧ first.id ≤ second.id := by
  simp [placedBefore]

/-- The order of events is transitive. -/
theorem placedBefore_trans (first second third : Event) (h : placedBefore first second = true)
    (hnext : placedBefore second third = true) : placedBefore first third = true := by
  rw [placedBefore_iff] at *
  rcases h with hlt | ⟨heq, hle⟩
  · rcases hnext with hnext | ⟨hnext, _⟩
    · exact .inl (Std.lt_trans hlt hnext)
    · exact .inl (hnext ▸ hlt)
  · rcases hnext with hnext | ⟨hnext, hlast⟩
    · exact .inl (heq ▸ hnext)
    · exact .inr ⟨heq.trans hnext, UInt32.le_trans hle hlast⟩

/-- Of two events one is placed before the other. -/
theorem placedBefore_total (first second : Event) :
    (placedBefore first second || placedBefore second first) = true := by
  rw [Bool.or_eq_true, placedBefore_iff, placedBefore_iff]
  by_cases hlt : first.table < second.table
  · exact .inl (.inl hlt)
  · by_cases hgt : second.table < first.table
    · exact .inr (.inl hgt)
    · have heq : first.table = second.table :=
        Std.le_antisymm (Std.not_lt.mp hgt) (Std.not_lt.mp hlt)
      rcases UInt32.le_total first.id second.id with hle | hle
      · exact .inl (.inr ⟨heq, hle⟩)
      · exact .inr (.inr ⟨heq.symm, hle⟩)

/-- Events that are placed before each other have one table and id. -/
theorem key_eq_of_placedBefore {first second : Event} (h : placedBefore first second = true)
    (hback : placedBefore second first = true) : first.key = second.key := by
  rw [placedBefore_iff] at h hback
  rcases h with hlt | ⟨heq, hle⟩
  · rcases hback with hgt | ⟨heq, _⟩
    · exact absurd hgt (Std.not_gt_of_lt hlt)
    · exact absurd hlt (heq ▸ Std.lt_irrefl)
  · rcases hback with hgt | ⟨_, hge⟩
    · exact absurd hgt (heq ▸ Std.lt_irrefl)
    · exact Prod.ext heq (UInt32.le_antisymm hle hge)

/-- Events of different tables or ids are placed in one order, however they are listed. -/
theorem mergeSort_placedBefore_perm {events others : List Event} (hperm : others.Perm events)
    (hkeys : (events.map Event.key).Nodup) :
    others.mergeSort placedBefore = events.mergeSort placedBefore := by
  have hsorted : ∀ list : List Event,
      (list.mergeSort placedBefore).Pairwise fun first second => placedBefore first second = true :=
    List.pairwise_mergeSort placedBefore_trans placedBefore_total
  have hsame : (others.mergeSort placedBefore).Perm (events.mergeSort placedBefore) :=
    ((List.mergeSort_perm ..).trans hperm).trans (List.mergeSort_perm ..).symm
  refine hsame.eq_of_pairwise (fun first second hfirst hsecond h hback => ?_) (hsorted _)
    (hsorted _)
  -- Two events of one table and id are one event of the list.
  rw [List.mem_mergeSort] at hfirst hsecond
  exact List.inj_on_of_nodup_map hkeys (hperm.mem_iff.mp hfirst) hsecond
    (key_eq_of_placedBefore h hback)

/-- Placing events does not look at the lists of events and tables. -/
theorem placeEvents_relisted (job : Job) (events : List Event) (specs : List TableSpec)
    (relocator : Relocator) (tables : Tables) (todo : List Event) :
    { job with events, tables := specs }.placeEvents relocator tables todo =
      job.placeEvents relocator tables todo := by
  induction todo generalizing relocator tables with
  | nil => rfl
  | cons event rest ih =>
      simp only [placeEvents, ih]
      rfl

variable {job : Job} {events : List Event} {specs : List TableSpec} {result : Image × Summary}

/-- The events of a job whose run succeeds have different tables or ids. -/
theorem nodup_of_run (h : job.run = .ok result) : (job.events.map Event.key).Nodup := by
  obtain ⟨loaded, final, relocator, _, hload, hplace, _⟩ := run_eq_ok h
  have hloaded := loaded_of_loadTables hload
  obtain ⟨hnoted, _⟩ := placing_run hloaded (noted_start job loaded) (shown_start hloaded) hplace
  have hsorted : (job.events.mergeSort placedBefore).Perm job.events := List.mergeSort_perm ..
  exact (hsorted.map Event.key).nodup_iff.mp hnoted.nodup

/-- A job whose run succeeds does the same with its events and tables in another order. -/
theorem run_relisted (hnames : (job.tables.map TableSpec.name).Nodup)
    (hevents : events.Perm job.events) (hspecs : specs.Perm job.tables) (h : job.run = .ok result) :
    { job with events, tables := specs }.run = .ok result := by
  obtain ⟨loaded, _, _, _, hload, _⟩ := run_eq_ok h
  have hrelisted := loadTables_perm hspecs hnames hload
  have hsort := mergeSort_placedBefore_perm hevents (nodup_of_run h)
  rw [← h]
  simp only [run, placeEvents_relisted, hload, hrelisted, hsort]

/-- Jobs that list the same events and the same tables, whose names are different, in any order,
fail together or build one image with one summary. -/
theorem run_perm (hnames : (job.tables.map TableSpec.name).Nodup) (hevents : events.Perm job.events)
    (hspecs : specs.Perm job.tables) (result : Image × Summary) :
    { job with events, tables := specs }.run = .ok result ↔ job.run = .ok result := by
  refine ⟨fun h => ?_, run_relisted hnames hevents hspecs⟩
  have hothers : (specs.map TableSpec.name).Nodup := (hspecs.map _).nodup_iff.mpr hnames
  exact @run_relisted { job with events, tables := specs } job.events job.tables result hothers
    hevents.symm hspecs.symm h

/-- A job with an event in each of two tables, both of which are too large for their places. -/
def twoTables : Job where
  image := ⟨[0, 4, 9, 9, 0, 4, 9, 9, 5, 5, 5, 5, 5, 5, 5, 5, 5, 5, 5, 5, 5, 5, 5, 5,
    0, 0, 0, 8, 4, 0, 0, 8]⟩
  layout := ⟨0x8000000, 0x8000008, 16⟩
  grammar := .empty
  header := ""
  defines := .empty
  constants := ⟨[]⟩
  tables := [⟨"map", 24, 1, 0⟩, ⟨"npc", 28, 1, 0⟩]
  events := [⟨"map", 0, none, "db 1 4 1 1\ndb 0 4 0 0"⟩, ⟨"npc", 0, none, "db 2 4 2 2\ndb 0 4 0 0"⟩]
  ips := []

/-- The events get the same places in free space if tables and events are listed the other way. -/
theorem run_perm_twoTables :
    (twoTables.tables.map TableSpec.name).Nodup ∧
      twoTables.events.reverse.Perm twoTables.events ∧
      twoTables.tables.reverse.Perm twoTables.tables ∧
      { twoTables with
        events := twoTables.events.reverse
        tables := twoTables.tables.reverse }.run =
        .ok (⟨[0, 4, 9, 9, 0, 4, 9, 9, 1, 4, 1, 1, 0, 4, 0, 0, 2, 4, 2, 2, 0, 4, 0, 0,
            8, 0, 0, 8, 16, 0, 0, 8]⟩,
          ⟨[⟨"map[0x0]", "map", 0, 0x8000008, 8, 4, true⟩,
            ⟨"npc[0x0]", "npc", 0, 0x8000010, 8, 4, true⟩],
            [⟨"map[0x0]", 0x8000008, 8⟩, ⟨"npc[0x0]", 0x8000010, 8⟩], 0, 4, 24⟩) := by
  have hnames : (twoTables.tables.map TableSpec.name).Nodup := by decide
  refine ⟨hnames, List.reverse_perm _, List.reverse_perm _, ?_⟩
  refine (run_perm hnames (List.reverse_perm _) (List.reverse_perm _) _).mpr ?_
  have hload : loadTables twoTables.image .empty twoTables.tables =
      .ok ⟨[("map", ⟨"map", 24, 0, [0x8000000], false⟩),
        ("npc", ⟨"npc", 28, 0, [0x8000004], false⟩)]⟩ := by
    decide +kernel
  have hsort : twoTables.events.mergeSort placedBefore = twoTables.events :=
    List.mergeSort_of_pairwise (by decide +kernel)
  have hplace : twoTables.placeEvents (.start twoTables.grammar twoTables.layout)
      ⟨[("map", ⟨"map", 24, 0, [0x8000000], false⟩), ("npc", ⟨"npc", 28, 0, [0x8000004], false⟩)]⟩
      twoTables.events =
      .ok (⟨.empty, twoTables.layout, ⟨0x8000008, 0x8000018, 0x8000018,
          [⟨"map[0x0]", 0x8000008, 8⟩, ⟨"npc[0x0]", 0x8000010, 8⟩]⟩, [("npc", 0), ("map", 0)],
          ⟨[⟨8, [1, 4, 1, 1, 0, 4, 0, 0], "map[0x0]"⟩, ⟨16, [2, 4, 2, 2, 0, 4, 0, 0], "npc[0x0]"⟩]⟩,
          [⟨"map[0x0]", "map", 0, 0x8000008, 8, 4, true⟩,
            ⟨"npc[0x0]", "npc", 0, 0x8000010, 8, 4, true⟩]⟩,
        ⟨[("map", ⟨"map", 24, 0, [0x8000008], true⟩),
          ("npc", ⟨"npc", 28, 0, [0x8000010], true⟩)]⟩) := by
    decide +kernel
  have hadd : addTables
      ⟨[⟨8, [1, 4, 1, 1, 0, 4, 0, 0], "map[0x0]"⟩, ⟨16, [2, 4, 2, 2, 0, 4, 0, 0], "npc[0x0]"⟩]⟩
      (Dictionary.values ⟨[("map", ⟨"map", 24, 0, [0x8000008], true⟩),
        ("npc", ⟨"npc", 28, 0, [0x8000010], true⟩)]⟩) =
      .ok ⟨[⟨8, [1, 4, 1, 1, 0, 4, 0, 0], "map[0x0]"⟩, ⟨16, [2, 4, 2, 2, 0, 4, 0, 0], "npc[0x0]"⟩,
        ⟨24, [8, 0, 0, 8], "map"⟩, ⟨28, [16, 0, 0, 8], "npc"⟩]⟩ := by
    decide +kernel
  have hcompose : PatchSet.compose
      (twoTables.ips.foldl (fun set file => set.append file.patches)
        ⟨[⟨8, [1, 4, 1, 1, 0, 4, 0, 0], "map[0x0]"⟩, ⟨16, [2, 4, 2, 2, 0, 4, 0, 0], "npc[0x0]"⟩,
          ⟨24, [8, 0, 0, 8], "map"⟩, ⟨28, [16, 0, 0, 8], "npc"⟩]⟩) twoTables.image =
      .ok ⟨[0, 4, 9, 9, 0, 4, 9, 9, 1, 4, 1, 1, 0, 4, 0, 0, 2, 4, 2, 2, 0, 4, 0, 0,
        8, 0, 0, 8, 16, 0, 0, 8]⟩ := by
    rw [PatchSet.compose, PatchSet.sorted, List.mergeSort_of_pairwise (by decide +kernel)]
    decide +kernel
  simp only [run, hload, hsort, hplace, hadd, hcompose]
  decide +kernel

end EventScript.Job
