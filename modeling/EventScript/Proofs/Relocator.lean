import EventScript.Relocator
import EventScript.Proofs.PointerTable

/-!
# Placed events

`Located` and `Placed` list all that placing an event can do, with what it leaves behind where it
fails half way (`located_of_locate`, `placed_of_place`). If it succeeds, the event is assembled at
the address it gets, in its first place if it fits and in free space otherwise, the table shows this
address, and one patch and one placement are added (`place_eq_ok`). An event that fits is never
moved (`place_of_fits`).
-/

namespace EventScript

/-- An assembly stands at the address it was made for. -/
theorem assemble_base {grammar : Grammar} {base : UInt32} {constants : Constants} {script : String}
    {assembly : Assembly} (h : assemble grammar base constants script = .ok assembly) :
    assembly.base = base := by
  unfold assemble at h
  split at h
  · cases h
  · split at h
    · cases h
    · cases h
      rfl

/-- An address that has an offset is not below the load address. -/
theorem Layout.toOffset_eq_ok_iff {layout : Layout} {address offset : UInt32} :
    layout.toOffset address = .ok offset ↔
      layout.loadBase ≤ address ∧ offset = address - layout.loadBase := by
  unfold toOffset
  by_cases hle : layout.loadBase ≤ address <;> simp [hle, eq_comm]

/-- The table and id of the event that was placed. -/
def Placement.key (placement : Placement) : String × UInt32 :=
  (placement.table, placement.id)

namespace Relocator

/-- Why an event is not located: it has no place, it cannot be assembled there, or it does not fit
and there is no free space for it. -/
inductive Refuses (relocator : Relocator) (table : PointerTable) (id : UInt32) (capacity : Nat)
    (script : String) (constants : Constants) : BuildError → Prop where
  | unlisted {fault} : table.get id = .error fault →
      Refuses relocator table id capacity script constants (.table fault)
  | unassembled {current fault} : table.get id = .ok current →
      assemble relocator.grammar current constants script = .error fault →
      Refuses relocator table id capacity script constants (.assembly fault)
  | full {current inPlace fault} : table.get id = .ok current →
      assemble relocator.grammar current constants script = .ok inPlace → capacity < inPlace.size →
      relocator.space.allocate (unitName table.name id) (UInt64.ofNat inPlace.size) =
        .error fault →
      Refuses relocator table id capacity script constants (.allocation fault)

/-- Why an event cannot use the free space that it gets: it cannot be assembled there, or its table
cannot point there. -/
inductive Wastes (relocator : Relocator) (table : PointerTable) (id : UInt32) (script : String)
    (constants : Constants) (address : UInt32) : BuildError → Prop where
  | unassembled {fault} : assemble relocator.grammar address constants script = .error fault →
      Wastes relocator table id script constants address (.assembly fault)
  | unlisted {fault} : table.set id address = .error fault →
      Wastes relocator table id script constants address (.table fault)

/-- All that can become of an event that is to be located. -/
inductive Located (relocator : Relocator) (table : PointerTable) (id : UInt32) (capacity : Nat)
    (script : String) (constants : Constants) :
    Relocator → PointerTable → Except BuildError (Bool × Assembly) → Prop where
  /-- It is refused before it gets anything. -/
  | refused {fault} : relocator.Refuses table id capacity script constants fault →
      Located relocator table id capacity script constants relocator table (.error fault)
  /-- It stays where it is. -/
  | stays {current inPlace} : table.get id = .ok current →
      assemble relocator.grammar current constants script = .ok inPlace → inPlace.size ≤ capacity →
      Located relocator table id capacity script constants relocator table (.ok (false, inPlace))
  /-- It gets free space, which it does not use. -/
  | wasted {current inPlace address space fault} : table.get id = .ok current →
      assemble relocator.grammar current constants script = .ok inPlace → capacity < inPlace.size →
      relocator.space.allocate (unitName table.name id) (UInt64.ofNat inPlace.size) =
        .ok (address, space) →
      relocator.Wastes table id script constants address fault →
      Located relocator table id capacity script constants { relocator with space } table
        (.error fault)
  /-- It moves to free space. -/
  | moves {current inPlace address space moved changed} : table.get id = .ok current →
      assemble relocator.grammar current constants script = .ok inPlace → capacity < inPlace.size →
      relocator.space.allocate (unitName table.name id) (UInt64.ofNat inPlace.size) =
        .ok (address, space) →
      assemble relocator.grammar address constants script = .ok moved →
      table.set id address = .ok changed →
      Located relocator table id capacity script constants { relocator with space } changed
        (.ok (true, moved))

/-- The layout stays whatever becomes of the event. -/
theorem Located.layout_eq {relocator after : Relocator} {table changed : PointerTable} {id : UInt32}
    {capacity : Nat} {script : String} {constants : Constants}
    {result : Except BuildError (Bool × Assembly)}
    (h : Located relocator table id capacity script constants after changed result) :
    after.layout = relocator.layout := by
  cases h <;> rfl

/-- The relocator that knows that an event was to be placed. -/
def mark (relocator : Relocator) (key : String × UInt32) : Relocator :=
  { relocator with placed := key :: relocator.placed }

/-- All that can become of an event that is to be placed. -/
inductive Placed (relocator : Relocator) (table : PointerTable) (id : UInt32) (capacity : Nat)
    (script : String) (constants : Constants) :
    Relocator → PointerTable → Except BuildError Assembly → Prop where
  /-- It was to be placed before. -/
  | again : (table.name, id) ∈ relocator.placed →
      Placed relocator table id capacity script constants relocator table
        (.error (.allocation (.alreadyPlaced (unitName table.name id))))
  /-- It is not located. -/
  | failed {after changed fault} : (table.name, id) ∉ relocator.placed →
      Located (relocator.mark (table.name, id)) table id capacity script constants after changed
        (.error fault) →
      Placed relocator table id capacity script constants after changed (.error fault)
  /-- It is located, but not where the image is. -/
  | outside {after changed relocated assembly fault} : (table.name, id) ∉ relocator.placed →
      Located (relocator.mark (table.name, id)) table id capacity script constants after changed
        (.ok (relocated, assembly)) →
      after.layout.toOffset assembly.base = .error fault →
      Placed relocator table id capacity script constants after changed (.error (.image fault))
  /-- It is noted where it was located. -/
  | noted {after changed relocated assembly} : (table.name, id) ∉ relocator.placed →
      Located (relocator.mark (table.name, id)) table id capacity script constants after changed
        (.ok (relocated, assembly)) →
      after.layout.loadBase ≤ assembly.base →
      Placed relocator table id capacity script constants
        (after.record table.name id capacity relocated
          (assembly.base - after.layout.loadBase) assembly)
        changed (.ok assembly)

variable {relocator after : Relocator} {table changed : PointerTable} {id : UInt32} {capacity : Nat}
  {script : String} {constants : Constants} {assembly : Assembly}

/-- Locating an event has one of the listed outcomes. -/
theorem located_of_locate {result : Except BuildError (Bool × Assembly)}
    (h : relocator.locate table id capacity script constants = (after, changed, result)) :
    Located relocator table id capacity script constants after changed result := by
  unfold locate at h
  split at h
  · rename_i hnone
    cases h
    exact .refused (.unlisted hnone)
  · rename_i current hcurrent
    split at h
    · rename_i hfault
      cases h
      exact .refused (.unassembled hcurrent hfault)
    · rename_i inPlace hinPlace
      split at h
      · rename_i hfits
        cases h
        exact .stays hcurrent hinPlace hfits
      · rename_i hlarge
        have hlarge := Nat.lt_of_not_le hlarge
        split at h
        · rename_i hfull
          cases h
          exact .refused (.full hcurrent hinPlace hlarge hfull)
        · rename_i address space hallocate
          simp only at h
          split at h
          · rename_i hfault
            cases h
            exact .wasted hcurrent hinPlace hlarge hallocate (.unassembled hfault)
          · rename_i moved hmoved
            split at h
            · rename_i hnone
              cases h
              exact .wasted hcurrent hinPlace hlarge hallocate (.unlisted hnone)
            · rename_i hset
              cases h
              exact .moves hcurrent hinPlace hlarge hallocate hmoved hset

/-- Placing an event has one of the listed outcomes. -/
theorem placed_of_place {result : Except BuildError Assembly}
    (h : relocator.place table id capacity script constants = (after, changed, result)) :
    Placed relocator table id capacity script constants after changed result := by
  unfold place at h
  split at h
  · rename_i hplaced
    cases h
    exact .again (by simpa using hplaced)
  · rename_i hfree
    have hfree : (table.name, id) ∉ relocator.placed := by simpa using hfree
    simp only at h
    split at h
    · rename_i hlocate
      cases h
      exact .failed hfree (located_of_locate hlocate)
    · rename_i hlocate
      split at h
      · rename_i hoffset
        cases h
        exact .outside hfree (located_of_locate hlocate) hoffset
      · rename_i offset hoffset
        cases h
        obtain ⟨hbase, rfl⟩ := Layout.toOffset_eq_ok_iff.mp hoffset
        exact .noted hfree (located_of_locate hlocate) hbase

/-- An event is placed once, and a patch and a placement are added for it. -/
theorem place_eq_ok
    (h : relocator.place table id capacity script constants = (after, changed, .ok assembly)) :
    (table.name, id) ∉ relocator.placed ∧ after.placed = (table.name, id) :: relocator.placed ∧
      after.grammar = relocator.grammar ∧ after.layout = relocator.layout ∧
      assemble relocator.grammar assembly.base constants script = .ok assembly ∧
      relocator.layout.loadBase ≤ assembly.base ∧
      after.patches.patches = relocator.patches.patches ++
        [⟨assembly.base - relocator.layout.loadBase, assembly.bytes, unitName table.name id⟩] ∧
      ∃ relocated current, table.get id = .ok current ∧
        after.placements = relocator.placements ++
          [⟨unitName table.name id, table.name, id, assembly.base, assembly.size, capacity,
            relocated⟩] ∧
        if relocated then table.set id assembly.base = .ok changed
        else changed = table ∧ assembly.base = current ∧ assembly.size ≤ capacity := by
  cases placed_of_place h with
  | noted hfree hlocated hbase =>
      cases hlocated with
      | stays hcurrent hassemble hfits =>
          have hstands := assemble_base hassemble
          refine ⟨hfree, rfl, rfl, rfl, hstands ▸ hassemble, hbase, rfl, false, _,
            hcurrent, rfl, ?_⟩
          exact ⟨rfl, hstands, hfits⟩
      | moves hcurrent _ _ _ hassemble hset =>
          have hstands := assemble_base hassemble
          exact ⟨hfree, rfl, rfl, rfl, hstands ▸ hassemble, hbase, rfl, true, _, hcurrent, rfl,
            hstands ▸ hset⟩

end Relocator

end EventScript
