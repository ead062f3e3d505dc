import Mathlib.Data.List.Nodup
import EventScript.Proofs.Assembly.Move
import EventScript.Proofs.FreeSpace
import EventScript.Proofs.Relocator

/-!
# Placing events one after the other

A relocator places events of several tables. Whatever events it is asked for, and however many of
them fail, `Sound` holds: placements and patches belong together, events stay where they fit and
otherwise have free space of their own, and the tables show where events are. `Kept` adds what
carries this from one request to the next: entries of events that were not asked for are as they
were, and all pieces of free space in use end before the cursor. Each change that a request makes
keeps it, hence so does a request (`Kept.place`), and so do all requests (`Kept.placeAll`).
-/

namespace EventScript

/-- An event that is to be placed. -/
structure Request where
  /-- Index of its table. -/
  table : Nat
  id : UInt32
  capacity : Nat
  script : String
  constants : Constants

/-- The script of the event is shorter than 2^32 bytes wherever it is assembled. -/
def Request.Short (grammar : Grammar) (request : Request) : Prop :=
  ∀ base assembly, assemble grammar base request.constants request.script = .ok assembly →
    assembly.size < 2 ^ 32

/-- A script that is short at one address is short at every one. -/
theorem Request.Short.of_assemble {grammar : Grammar} {request : Request} {base : UInt32}
    {assembly : Assembly}
    (h : assemble grammar base request.constants request.script = .ok assembly)
    (hsize : assembly.size < 2 ^ 32) : request.Short grammar := by
  intro there other hother
  rw [Assembly.size_eq_of_assemble h hother]
  exact hsize

/-- A relocator at work on tables. -/
structure Placing where
  relocator : Relocator
  tables : List PointerTable

namespace Placing

/-- Nothing is placed yet. -/
def start (grammar : Grammar) (layout : Layout) (tables : List PointerTable) : Placing :=
  ⟨.start grammar layout, tables⟩

/-- Place an event, or try to. -/
def place (placing : Placing) (request : Request) : Placing :=
  match placing.tables[request.table]? with
  | none => placing
  | some table =>
      let (after, changed, _) := placing.relocator.place table request.id request.capacity
        request.script request.constants
      ⟨after, placing.tables.set request.table changed⟩

/-- Place events in order, or try to. -/
def placeAll (placing : Placing) (requests : List Request) : Placing :=
  requests.foldl place placing

end Placing

namespace Placement

/-- The event has a table, which points to it. -/
structure ShownIn (tables : List PointerTable) (placement : Placement) : Prop where
  known : ∃ table ∈ tables, table.name = placement.table
  entry : ∀ table ∈ tables, table.name = placement.table →
    table.get placement.id = .ok placement.address

/-- An event that fits is where its table pointed to at the start. -/
structure Stays (before : List PointerTable) (placement : Placement) : Prop where
  fits : placement.size ≤ placement.capacity
  entry : placement.ShownIn before

/-- An event that does not fit has a piece of free space of its size. -/
structure Moves (layout : Layout) (allocations : List Allocation) (placement : Placement) :
    Prop where
  large : placement.capacity < placement.size
  aligned : placement.address.toNat % 4 = 0
  start_le : layout.freeBase.toNat ≤ placement.address.toNat
  le_stop : placement.address.toNat + placement.size ≤
    layout.freeBase.toNat + layout.freeSize.toNat
  allocated : ∃ allocation ∈ allocations, allocation.owner = placement.unit ∧
    allocation.address = placement.address ∧ allocation.size.toNat = placement.size

/-- The patch writes the event. -/
structure Written (layout : Layout) (placement : Placement) (patch : Patch) : Prop where
  offset_eq : patch.offset.toNat + layout.loadBase.toNat = placement.address.toNat
  length_eq : patch.bytes.length = placement.size

/-- The first event ends before the second one starts. -/
def Precedes (first second : Placement) : Prop :=
  first.address.toNat + first.size ≤ second.address.toNat

end Placement

namespace Placing

/-- What holds whatever was placed, where the tables were those given at the start. -/
structure Sound (layout : Layout) (before : List PointerTable) (placing : Placing) : Prop where
  /-- No event is placed twice. -/
  once : (placing.relocator.placements.map Placement.key).Nodup
  /-- Every placement has its patch, and there are no other ones. -/
  written : List.Forall₂ (Placement.Written layout) placing.relocator.placements
    placing.relocator.patches.patches
  stays : ∀ placement ∈ placing.relocator.placements, placement.relocated = false →
    placement.Stays before
  moves : ∀ placement ∈ placing.relocator.placements, placement.relocated = true →
    placement.Moves layout placing.relocator.space.allocations
  /-- Events in free space do not overlap. -/
  apart : placing.relocator.placements.Pairwise fun first second =>
    first.relocated = true → second.relocated = true →
      first.Precedes second ∨ second.Precedes first
  /-- The tables point to the events that were placed. -/
  shown : ∀ placement ∈ placing.relocator.placements, placement.ShownIn placing.tables

/-- What holds between two requests. -/
structure Kept (grammar : Grammar) (layout : Layout) (before : List PointerTable)
    (placing : Placing) : Prop extends Sound layout before placing where
  grammar_eq : placing.relocator.grammar = grammar
  layout_eq : placing.relocator.layout = layout
  space_bounded : placing.relocator.space.Bounded
  free_le : layout.freeBase.toNat ≤ placing.relocator.space.cursor.toNat
  stop_eq : placing.relocator.space.stop.toNat = layout.freeBase.toNat + layout.freeSize.toNat
  names_eq : placing.tables.map PointerTable.name = before.map PointerTable.name
  /-- Events that were placed are among those that were asked for. -/
  asked : ∀ placement ∈ placing.relocator.placements, placement.key ∈ placing.relocator.placed
  /-- Entries of other events are as they were. -/
  untouched : ∀ (index : Nat) table, placing.tables[index]? = some table →
    ∃ old, before[index]? = some old ∧
      ∀ id, (table.name, id) ∉ placing.relocator.placed → table.get id = old.get id
  /-- Events in free space end before the cursor. -/
  below : ∀ placement ∈ placing.relocator.placements, placement.relocated = true →
    placement.address.toNat + placement.size ≤ placing.relocator.space.cursor.toNat

variable {grammar : Grammar} {layout : Layout} {before tables : List PointerTable}
  {relocator : Relocator} {placing : Placing}

/-- At the start nothing is placed. -/
theorem kept_start (hfree : layout.freeBase.toNat + layout.freeSize.toNat ≤ 2 ^ 32)
    (before : List PointerTable) : Kept grammar layout before (start grammar layout before) := by
  have hnone : (start grammar layout before).relocator.placements = [] := rfl
  constructor
  · exact ⟨List.nodup_nil, .nil, by simp [hnone], by simp [hnone], .nil, by simp [hnone]⟩
  · rfl
  · rfl
  · exact FreeSpace.bounded_start hfree
  · exact Nat.le_of_eq (FreeSpace.toNat_cursor_start _ _).symm
  · exact FreeSpace.toNat_stop_start _ _
  · rfl
  · simp [hnone]
  · intro index table htable
    exact ⟨table, htable, fun _ _ => rfl⟩
  · simp [hnone]

/-- Noting that an event was asked for. -/
theorem Kept.mark (h : Kept grammar layout before ⟨relocator, tables⟩) (key : String × UInt32) :
    Kept grammar layout before ⟨relocator.mark key, tables⟩ := by
  refine { h with asked := ?_, untouched := ?_ }
  · exact fun placement hplacement => List.mem_cons_of_mem _ (h.asked placement hplacement)
  · intro index table htable
    obtain ⟨old, hold, hsame⟩ := h.untouched index table htable
    exact ⟨old, hold, fun id hid => hsame id fun hmem => hid (List.mem_cons_of_mem _ hmem)⟩

/-- Giving free space away. -/
theorem Kept.allocate {owner : String} {size : UInt64} {address : UInt32} {space : FreeSpace}
    (h : Kept grammar layout before ⟨relocator, tables⟩)
    (hgrants : relocator.space.Grants owner size address space) :
    Kept grammar layout before ⟨{ relocator with space }, tables⟩ := by
  have hcursor : relocator.space.cursor.toNat ≤ space.cursor.toNat := by
    have := hgrants.cursor_le
    have := hgrants.cursor_eq
    omega
  refine { h with moves := ?_, space_bounded := ?_, free_le := ?_, stop_eq := ?_, below := ?_ }
  · intro placement hplacement hrelocated
    have hmoves := h.moves placement hplacement hrelocated
    obtain ⟨allocation, hallocation, hallocated⟩ := hmoves.allocated
    refine { hmoves with allocated := ⟨allocation, ?_, hallocated⟩ }
    rw [hgrants.allocations_eq]
    exact List.mem_append_left _ hallocation
  · exact hgrants.bounded h.space_bounded
  · exact Nat.le_trans h.free_le hcursor
  · rw [hgrants.stop_eq]
    exact h.stop_eq
  · intro placement hplacement hrelocated
    exact Nat.le_trans (h.below placement hplacement hrelocated) hcursor

/-- Among tables of different names, the one that points to an event is the one that has to. -/
theorem shownIn_of_get {placement : Placement} {table : PointerTable}
    (hnames : (tables.map PointerTable.name).Nodup) (htable : table ∈ tables)
    (hname : table.name = placement.table) (hget : table.get placement.id = .ok placement.address) :
    placement.ShownIn tables := by
  refine ⟨⟨table, htable, hname⟩, fun other hother hothername => ?_⟩
  rw [List.inj_on_of_nodup_map hnames hother htable (hothername.trans hname.symm)]
  exact hget

variable {table changed : PointerTable} {index : Nat} {id address : UInt32}

/-- A table that is not changed is put back. -/
theorem set_self (h : tables[index]? = some table) : tables.set index table = tables := by
  obtain ⟨hlt, rfl⟩ := List.getElem?_eq_some_iff.mp h
  exact List.set_getElem_self hlt

/-- Giving the entry of an event that was asked for, but has no place yet, a value. -/
theorem Kept.set (h : Kept grammar layout before ⟨relocator, tables⟩)
    (htable : tables[index]? = some table) (hset : table.set id address = .ok changed)
    (hasked : (table.name, id) ∈ relocator.placed)
    (hfresh : (table.name, id) ∉ relocator.placements.map Placement.key) :
    Kept grammar layout before ⟨relocator, tables.set index changed⟩ := by
  obtain ⟨_, _, _, _, hname, _⟩ := PointerTable.set_eq_ok hset
  obtain ⟨hlt, _⟩ := List.getElem?_eq_some_iff.mp htable
  have hmem : table ∈ tables := List.mem_of_getElem? htable
  have hnames :
      (tables.set index changed).map PointerTable.name = tables.map PointerTable.name := by
    rw [List.map_set, hname, ← List.map_set, set_self htable]
  refine { h with shown := ?_, names_eq := hnames.trans h.names_eq, untouched := ?_ }
  · intro placement hplacement
    obtain ⟨⟨known, hknown, hknownname⟩, hentry⟩ := h.shown placement hplacement
    constructor
    · have : placement.table ∈ (tables.set index changed).map PointerTable.name := by
        rw [hnames, ← hknownname]
        exact List.mem_map_of_mem hknown
      exact List.mem_map.mp this
    · intro other hother hothername
      rcases List.mem_or_eq_of_mem_set hother with hold | rfl
      · exact hentry other hold hothername
      · have htablename : table.name = placement.table := hname.symm.trans hothername
        have hid : placement.id ≠ id := by
          rintro rfl
          exact hfresh (List.mem_map.mpr ⟨placement, hplacement, Prod.ext htablename.symm rfl⟩)
        rw [PointerTable.get_of_set hset, if_neg hid]
        exact hentry table hmem htablename
  · intro position other hother
    by_cases hposition : index = position
    · subst hposition
      rw [List.getElem?_set_self hlt] at hother
      cases hother
      obtain ⟨old, hold, hsame⟩ := h.untouched index table htable
      refine ⟨old, hold, fun one hone => ?_⟩
      rw [hname] at hone
      have hid : one ≠ id := by
        rintro rfl
        exact hone hasked
      rw [PointerTable.get_of_set hset, if_neg hid]
      exact hsame one hone
    · rw [List.getElem?_set_ne hposition] at hother
      exact h.untouched position other hother

/-- What it takes to note the placement of an event. -/
structure Settles (layout : Layout) (before : List PointerTable) (placing : Placing)
    (placement : Placement) : Prop where
  shown : placement.ShownIn placing.tables
  stays : placement.relocated = false → placement.Stays before
  moves : placement.relocated = true →
    placement.Moves layout placing.relocator.space.allocations
  behind : placement.relocated = true → ∀ other ∈ placing.relocator.placements,
    other.relocated = true → other.Precedes placement
  below : placement.relocated = true →
    placement.address.toNat + placement.size ≤ placing.relocator.space.cursor.toNat

/-- Noting an event that was asked for where it has its place. -/
theorem Kept.record {placement : Placement} {patch : Patch}
    (h : Kept grammar layout before ⟨relocator, tables⟩)
    (hasked : placement.key ∈ relocator.placed)
    (hfresh : placement.key ∉ relocator.placements.map Placement.key)
    (hwritten : placement.Written layout patch)
    (hsettles : Settles layout before ⟨relocator, tables⟩ placement) :
    Kept grammar layout before
      ⟨{ relocator with
          patches := ⟨relocator.patches.patches ++ [patch]⟩
          placements := relocator.placements ++ [placement] }, tables⟩ := by
  -- What holds of the old placements and of the new one holds of all.
  have hall : ∀ {property : Placement → Prop}, (∀ other ∈ relocator.placements, property other) →
      property placement → ∀ other ∈ relocator.placements ++ [placement], property other := by
    intro property hold hnew other hother
    rcases List.mem_append.mp hother with hmem | hmem
    · exact hold other hmem
    · rw [List.mem_singleton.mp hmem]
      exact hnew
  refine { h with
    once := ?_, written := ?_, stays := hall h.stays hsettles.stays
    moves := hall h.moves hsettles.moves, apart := ?_, shown := hall h.shown hsettles.shown
    asked := hall h.asked hasked, below := hall h.below hsettles.below }
  · show ((relocator.placements ++ [placement]).map Placement.key).Nodup
    rw [List.map_append, List.nodup_append]
    refine ⟨h.once, List.pairwise_singleton .., ?_⟩
    rintro key hkey _ hother rfl
    rw [List.map_singleton, List.mem_singleton] at hother
    exact hfresh (hother ▸ hkey)
  · exact List.rel_append h.written (.cons hwritten .nil)
  · refine List.pairwise_append.mpr ⟨h.apart, List.pairwise_singleton .., ?_⟩
    intro other hother last hlast hrelocated hmoved
    rw [List.mem_singleton.mp hlast] at hmoved ⊢
    exact .inl (hsettles.behind hmoved other hother hrelocated)

variable {request : Request} {after : Relocator}

/-- The tables keep different names. -/
theorem Kept.nodup_names (h : Kept grammar layout before ⟨relocator, tables⟩)
    (hnames : (before.map PointerTable.name).Nodup) : (tables.map PointerTable.name).Nodup := by
  rw [h.names_eq]
  exact hnames

/-- A table has the name it had at the start. -/
theorem Kept.name_eq {old : PointerTable} (h : Kept grammar layout before ⟨relocator, tables⟩)
    (htable : tables[index]? = some table) (hold : before[index]? = some old) :
    old.name = table.name := by
  have hnames := congrArg (·[index]?) h.names_eq
  simp only [List.getElem?_map, htable, hold, Option.map_some, Option.some.injEq] at hnames
  exact hnames.symm

/-- Free space for an event that is too large for its place. -/
theorem Kept.grants {base : UInt32} {inPlace : Assembly} {owner : String} {space : FreeSpace}
    (h : Kept grammar layout before ⟨relocator, tables⟩) (hshort : request.Short grammar)
    (hassemble : assemble relocator.grammar base request.constants request.script = .ok inPlace)
    (hlarge : request.capacity < inPlace.size)
    (hallocate : relocator.space.allocate owner (UInt64.ofNat inPlace.size) =
      .ok (address, space)) :
    relocator.space.Grants owner (UInt64.ofNat inPlace.size) address space ∧
      (UInt64.ofNat inPlace.size).toNat = inPlace.size := by
  have hgrammar : relocator.grammar = grammar := h.grammar_eq
  have hsize := hshort base inPlace (hgrammar ▸ hassemble)
  have htoNat : (UInt64.ofNat inPlace.size).toNat = inPlace.size := by
    rw [UInt64.toNat_ofNat', Nat.mod_eq_of_lt]
    omega
  have hbounded : relocator.space.Bounded := h.space_bounded
  exact ⟨hbounded.grants_of_allocate (by omega) hallocate, htoNat⟩

/-- An event that was given free space may be noted there. -/
theorem Kept.settles_of_grants {placement : Placement} {size : UInt64} {space : FreeSpace}
    {others : List PointerTable} (h : Kept grammar layout before ⟨relocator, tables⟩)
    (hgrants : relocator.space.Grants placement.unit size placement.address space)
    (hsize : size.toNat = placement.size) (hlarge : placement.capacity < placement.size)
    (hrelocated : placement.relocated = true) (hshown : placement.ShownIn others) :
    Settles layout before ⟨{ relocator with space }, others⟩ placement := by
  have hcursor := hgrants.cursor_le
  have hstop := hgrants.le_stop
  rw [hsize] at hstop
  refine ⟨hshown, ?_, fun _ => ⟨hlarge, hgrants.aligned, ?_, ?_, ?_⟩, ?_, fun _ => ?_⟩
  · rw [hrelocated]
    intro hfalse
    cases hfalse
  · exact Nat.le_trans h.free_le hcursor
  · have hend : relocator.space.stop.toNat = _ := h.stop_eq
    omega
  · refine ⟨⟨placement.unit, placement.address, size⟩, ?_, rfl, rfl, hsize⟩
    show _ ∈ space.allocations
    rw [hgrants.allocations_eq]
    exact List.mem_append_right _ List.mem_cons_self
  · intro _ other hother hmoved
    exact Nat.le_trans (h.below other hother hmoved) hcursor
  · show _ ≤ space.cursor.toNat
    rw [hgrants.cursor_eq, hsize]

/-- The placement that is noted for an event. -/
def placementOf (table : PointerTable) (request : Request) (relocated : Bool)
    (assembly : Assembly) :
    Placement :=
  ⟨Relocator.unitName table.name request.id, table.name, request.id, assembly.base, assembly.size,
    request.capacity, relocated⟩

/-- Locating an event that was just asked for. -/
theorem Kept.located {old : PointerTable} (h : Kept grammar layout before ⟨relocator, tables⟩)
    (hnames : (before.map PointerTable.name).Nodup) (hshort : request.Short grammar)
    (htable : tables[index]? = some table)
    (hasked : (table.name, request.id) ∈ relocator.placed)
    (hfresh : (table.name, request.id) ∉ relocator.placements.map Placement.key)
    (hold : before[index]? = some old) (hentry : table.get request.id = old.get request.id)
    {result : Except BuildError (Bool × Assembly)}
    (hlocated : Relocator.Located relocator table request.id request.capacity request.script
      request.constants after changed result) :
    Kept grammar layout before ⟨after, tables.set index changed⟩ ∧
      after.placed = relocator.placed ∧ after.placements = relocator.placements ∧
      ∀ relocated assembly, result = .ok (relocated, assembly) →
        Settles layout before ⟨after, tables.set index changed⟩
          (placementOf table request relocated assembly) := by
  have hsame := set_self htable
  cases hlocated with
  | refused =>
      rw [hsame]
      exact ⟨h, rfl, rfl, fun _ _ hresult => by cases hresult⟩
  | @stays current inPlace hcurrent hassemble hfits =>
      rw [hsame]
      refine ⟨h, rfl, rfl, fun relocated assembly hresult => ?_⟩
      cases hresult
      rw [← assemble_base hassemble] at hcurrent
      have hshown : (placementOf table request false inPlace).ShownIn tables :=
        shownIn_of_get (h.nodup_names hnames) (List.mem_of_getElem? htable) rfl hcurrent
      have hstays : (placementOf table request false inPlace).ShownIn before :=
        shownIn_of_get hnames (List.mem_of_getElem? hold) (h.name_eq htable hold)
          (hentry.symm.trans hcurrent)
      refine ⟨hshown, fun _ => ⟨hfits, hstays⟩, ?_, ?_, ?_⟩ <;> intro hmoved <;> cases hmoved
  | wasted _ hassemble hlarge hallocate =>
      rw [hsame]
      obtain ⟨hgrants, _⟩ := h.grants hshort hassemble hlarge hallocate
      exact ⟨h.allocate hgrants, rfl, rfl, fun _ _ hresult => by cases hresult⟩
  | @moves _ _ _ _ moved _ _ hassemble hlarge hallocate hmoved hset =>
      obtain ⟨hgrants, hsize⟩ := h.grants hshort hassemble hlarge hallocate
      have hkept := (h.allocate hgrants).set htable hset hasked hfresh
      refine ⟨hkept, rfl, rfl, fun relocated assembly hresult => ?_⟩
      cases hresult
      have hsizes := Assembly.size_eq_of_assemble hassemble hmoved
      obtain rfl := assemble_base hmoved
      have hshown : (placementOf table request true moved).ShownIn (tables.set index changed) := by
        obtain ⟨_, _, _, _, hname, _⟩ := PointerTable.set_eq_ok hset
        refine shownIn_of_get (hkept.nodup_names hnames) ?_ hname ?_
        · exact List.mem_of_getElem?
            (List.getElem?_set_self (List.getElem?_eq_some_iff.mp htable).1)
        · exact (PointerTable.get_of_set hset _).trans (if_pos rfl)
      rw [← hsizes] at hgrants hlarge hsize
      exact h.settles_of_grants hgrants hsize hlarge rfl hshown

/-- Placing an event, or trying to. -/
theorem Kept.place {result : Except BuildError Assembly}
    (h : Kept grammar layout before ⟨relocator, tables⟩)
    (hnames : (before.map PointerTable.name).Nodup) (hshort : request.Short grammar)
    (htable : tables[index]? = some table)
    (hplaced : Relocator.Placed relocator table request.id request.capacity request.script
      request.constants after changed result) :
    Kept grammar layout before ⟨after, tables.set index changed⟩ := by
  have hasked : (table.name, request.id) ∈ (relocator.mark (table.name, request.id)).placed :=
    List.mem_cons_self
  have hfresh : (table.name, request.id) ∉ relocator.placed →
      (table.name, request.id) ∉ relocator.placements.map Placement.key := by
    intro hfree hmem
    obtain ⟨placement, hplacement, hkey⟩ := List.mem_map.mp hmem
    exact hfree (hkey ▸ h.asked placement hplacement)
  -- The event was not asked for before, so its entry is still the first one.
  obtain ⟨old, hold, huntouched⟩ := h.untouched index table htable
  cases hplaced with
  | again _ =>
      rw [set_self htable]
      exact h
  | failed hfree hlocated | outside hfree hlocated _ =>
      exact ((h.mark _).located hnames hshort htable hasked (hfresh hfree) hold
        (huntouched request.id hfree) hlocated).1
  | @noted located _ relocated assembly hfree hlocated hbase =>
      obtain ⟨hkept, hplaced, hplacements, hsettles⟩ :=
        (h.mark _).located hnames hshort htable hasked
        (hfresh hfree) hold (huntouched request.id hfree) hlocated
      have hlayout : located.layout = layout := hkept.layout_eq
      have hwritten : (placementOf table request relocated assembly).Written layout
          ⟨assembly.base - located.layout.loadBase, assembly.bytes,
            Relocator.unitName table.name request.id⟩ := by
        refine ⟨?_, rfl⟩
        show (assembly.base - located.layout.loadBase).toNat + layout.loadBase.toNat =
          assembly.base.toNat
        rw [UInt32.le_iff_toNat_le] at hbase
        rw [UInt32.toNat_sub_of_le _ _ (UInt32.le_iff_toNat_le.mpr hbase), ← hlayout]
        omega
      exact hkept.record (hplaced ▸ hasked) (hplacements ▸ hfresh hfree) hwritten
        (hsettles relocated assembly rfl)

/-- Placing events, or trying to. -/
theorem Kept.placeAll {requests : List Request} (h : Kept grammar layout before placing)
    (hnames : (before.map PointerTable.name).Nodup)
    (hshort : ∀ request ∈ requests, request.Short grammar) :
    Kept grammar layout before (placing.placeAll requests) := by
  induction requests generalizing placing with
  | nil => exact h
  | cons request rest ih =>
      refine ih ?_ fun other hother => hshort other (List.mem_cons_of_mem _ hother)
      obtain ⟨relocator, tables⟩ := placing
      unfold Placing.place
      split
      · exact h
      · rename_i table htable
        exact h.place hnames (hshort request List.mem_cons_self) htable
          (Relocator.placed_of_place rfl)

/-- Whatever events are placed, in whatever order and with whatever faults, placements, patches,
free space and tables fit together. -/
theorem sound_placeAll {grammar : Grammar} {layout : Layout} {tables : List PointerTable}
    {requests : List Request}
    (hfree : layout.freeBase.toNat + layout.freeSize.toNat ≤ 2 ^ 32)
    (hnames : (tables.map PointerTable.name).Nodup)
    (hshort : ∀ request ∈ requests, request.Short grammar) :
    Sound layout tables ((start grammar layout tables).placeAll requests) :=
  ((kept_start hfree tables).placeAll hnames hshort).toSound

/-- Of two tables, one event stays, two move to free space, and an event that is asked for again and
one that no table has fail. -/
theorem sound_placeAll_fiveRequests :
    ∃ layout tables requests,
      layout = { freeBase := 0x8000101, freeSize := 0x10 : Layout } ∧
      tables = [(⟨"a", 0x40, 0, [0x8000010, 0x8000020], false⟩ : PointerTable),
        ⟨"b", 0x80, 5, [0x8000030], false⟩] ∧
      requests = [(⟨0, 0, 4, "db 1 2", .empty⟩ : Request), ⟨0, 1, 2, "db 1 3 5", .empty⟩,
        ⟨0, 1, 9, "db 1 2", .empty⟩, ⟨1, 5, 0, "db 1 2", .empty⟩, ⟨1, 9, 4, "db 1 2", .empty⟩] ∧
      (((start .empty layout tables).placeAll requests).relocator.placements.map
        fun placement => (placement.key, placement.address, placement.relocated)) =
        [(("a", 0), 0x8000010, false), (("a", 1), 0x8000104, true), (("b", 5), 0x8000108, true)] ∧
      Sound layout tables ((start .empty layout tables).placeAll requests) := by
  have hshort : ∀ request ∈ [(⟨0, 0, 4, "db 1 2", .empty⟩ : Request),
      ⟨0, 1, 2, "db 1 3 5", .empty⟩, ⟨0, 1, 9, "db 1 2", .empty⟩, ⟨1, 5, 0, "db 1 2", .empty⟩,
      ⟨1, 9, 4, "db 1 2", .empty⟩], request.Short .empty := by
    have htwo : assemble .empty 0 .empty "db 1 2" = .ok ⟨0, [⟨0, 1, "db", [1, 2]⟩], ⟨[]⟩⟩ := by
      decide +kernel
    have hthree : assemble .empty 0 .empty "db 1 3 5" =
        .ok ⟨0, [⟨0, 1, "db", [1, 3, 5]⟩], ⟨[]⟩⟩ := by
      decide +kernel
    simp only [List.forall_mem_cons, List.not_mem_nil, false_implies, implies_true, and_true]
    exact ⟨.of_assemble htwo (by decide), .of_assemble hthree (by decide),
      .of_assemble htwo (by decide), .of_assemble htwo (by decide), .of_assemble htwo (by decide)⟩
  exact ⟨_, _, _, rfl, rfl, rfl, by decide +kernel, sound_placeAll (by decide) (by decide) hshort⟩

end Placing

end EventScript
