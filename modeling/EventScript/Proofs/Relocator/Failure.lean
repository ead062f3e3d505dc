import EventScript.Proofs.Assembly.Move
import EventScript.Proofs.FreeSpace
import EventScript.Proofs.Relocator

/-!
# What a failed placement leaves behind

A placement that fails adds no patch and no placement. It also leaves the table as it was, with one
exception: an event that is moved to free space below the load address of the image has its entry
changed before it turns out that the address has no offset (`Strays`, `place_eq_error`). Free space
that stands at or behind the load address, and ends within 32 bits, is given away at addresses of
the image only, whatever was placed before (`Reached.roomy`), so there nothing strays
(`Roomy.not_strays`). `place_failed` puts both together, and `place_strays` shows the exception.
-/

namespace EventScript

/-- An address that has no offset is below the load address. -/
theorem Layout.toOffset_eq_error_iff {layout : Layout} {address : UInt32} {fault : ImageError} :
    layout.toOffset address = .error fault ↔
      address < layout.loadBase ∧ fault = .notAPointer address := by
  unfold toOffset
  by_cases hle : layout.loadBase ≤ address
  · simp [hle, UInt32.not_lt.mpr hle]
  · simp [hle, UInt32.not_le.mp hle, eq_comm]

namespace Relocator

variable {relocator after : Relocator} {table changed : PointerTable} {id address : UInt32}
  {capacity : Nat}
  {script : String} {constants : Constants} {fault : BuildError} {grammar : Grammar}
  {layout : Layout}

/-- The event does not fit in its place, and the free space that it gets is below the load address.
Its table points there now, but it is not placed. -/
structure Strays (relocator : Relocator) (table : PointerTable) (id : UInt32) (capacity : Nat)
    (script : String) (constants : Constants) (changed : PointerTable) (fault : BuildError)
    (address : UInt32) : Prop where
  allocated : ∃ current inPlace space, table.get id = .ok current ∧
    assemble relocator.grammar current constants script = .ok inPlace ∧ capacity < inPlace.size ∧
    relocator.space.allocate (unitName table.name id) (UInt64.ofNat inPlace.size) =
      .ok (address, space)
  below : address < relocator.layout.loadBase
  repointed : table.set id address = .ok changed
  fault_eq : fault = .image (.notAPointer address)

/-- A failed placement adds no patch and no placement, and changes the table only if the event
strays. -/
theorem place_eq_error
    (h : relocator.place table id capacity script constants = (after, changed, .error fault)) :
    after.patches = relocator.patches ∧ after.placements = relocator.placements ∧
      (changed = table ∨
        ∃ address, Strays relocator table id capacity script constants changed fault address) := by
  cases placed_of_place h with
  | again => exact ⟨rfl, rfl, .inl rfl⟩
  | failed _ hlocated =>
      cases hlocated with
      | refused => exact ⟨rfl, rfl, .inl rfl⟩
      | wasted => exact ⟨rfl, rfl, .inl rfl⟩
  | outside _ hlocated hoffset =>
      obtain ⟨hbelow, rfl⟩ := Layout.toOffset_eq_error_iff.mp hoffset
      cases hlocated with
      | stays => exact ⟨rfl, rfl, .inl rfl⟩
      | moves hcurrent hinPlace hlarge hallocate hmoved hset =>
          rw [assemble_base hmoved] at hbelow ⊢
          exact ⟨rfl, rfl, .inr
            ⟨_, ⟨_, _, _, hcurrent, hinPlace, hlarge, hallocate⟩, hbelow, hset, rfl⟩⟩

/-- The script has less than 2^63 bytes wherever it is assembled. -/
def Countable (grammar : Grammar) (constants : Constants) (script : String) : Prop :=
  ∀ base assembly, assemble grammar base constants script = .ok assembly → assembly.size < 2 ^ 63

/-- A script that has less than 2^63 bytes at one address has less at every one. -/
theorem Countable.of_assemble {base : UInt32} {assembly : Assembly}
    (h : assemble grammar base constants script = .ok assembly) (hsize : assembly.size < 2 ^ 63) :
    Countable grammar constants script := by
  intro there other hother
  rw [Assembly.size_eq_of_assemble h hother]
  exact hsize

/-- The relocator that placing events leads to, whether or not they could be placed. -/
inductive Reached (grammar : Grammar) (layout : Layout) : Relocator → Prop where
  | start : Reached grammar layout (.start grammar layout)
  | place {relocator after table changed id capacity script constants result} :
      Reached grammar layout relocator → Countable grammar constants script →
      relocator.place table id capacity script constants = (after, changed, result) →
      Reached grammar layout after

/-- The free space of the relocator is that of the layout, and its pieces stand one behind the
other. -/
structure Roomy (grammar : Grammar) (layout : Layout) (relocator : Relocator) : Prop where
  grammar_eq : relocator.grammar = grammar
  layout_eq : relocator.layout = layout
  packed : relocator.space.Packed layout.freeBase layout.freeSize

/-- The piece of free space that a script is given. -/
theorem Roomy.extends {base : UInt32} {owner : String} {inPlace : Assembly} {space : FreeSpace}
    (h : Roomy grammar layout relocator) (hcountable : Countable grammar constants script)
    (hassemble : assemble relocator.grammar base constants script = .ok inPlace)
    (hallocate : relocator.space.allocate owner (UInt64.ofNat inPlace.size) =
      .ok (address, space)) :
    (UInt64.ofNat inPlace.size).toNat = inPlace.size ∧
      relocator.space.Extends layout.freeBase owner (UInt64.ofNat inPlace.size) address space := by
  rw [h.grammar_eq] at hassemble
  have hsize := hcountable base inPlace hassemble
  have htoNat : (UInt64.ofNat inPlace.size).toNat = inPlace.size := by
    rw [UInt64.toNat_ofNat', Nat.mod_eq_of_lt]
    omega
  exact ⟨htoNat, h.packed.extends_of_allocate hallocate⟩

/-- Locating an event keeps the pieces of free space one behind the other. -/
theorem Roomy.located {result : Except BuildError (Bool × Assembly)}
    (h : Roomy grammar layout relocator) (hcountable : Countable grammar constants script)
    (hlocated : Located relocator table id capacity script constants after changed result) :
    Roomy grammar layout after := by
  cases hlocated with
  | refused => exact h
  | stays => exact h
  | wasted _ hassemble _ hallocate =>
      obtain ⟨_, hextends⟩ := h.extends hcountable hassemble hallocate
      exact ⟨h.grammar_eq, h.layout_eq, h.packed.of_extends hextends⟩
  | moves _ hassemble _ hallocate =>
      obtain ⟨_, hextends⟩ := h.extends hcountable hassemble hallocate
      exact ⟨h.grammar_eq, h.layout_eq, h.packed.of_extends hextends⟩

/-- So does placing an event, or trying to. -/
theorem Roomy.place {result : Except BuildError Assembly} (h : Roomy grammar layout relocator)
    (hcountable : Countable grammar constants script)
    (hplace : relocator.place table id capacity script constants = (after, changed, result)) :
    Roomy grammar layout after := by
  have hmarked : Roomy grammar layout (relocator.mark (table.name, id)) :=
    ⟨h.grammar_eq, h.layout_eq, h.packed⟩
  cases placed_of_place hplace with
  | again => exact h
  | failed _ hlocated | outside _ hlocated _ => exact hmarked.located hcountable hlocated
  | noted _ hlocated _ =>
      have hroomy := hmarked.located hcountable hlocated
      exact ⟨hroomy.grammar_eq, hroomy.layout_eq, hroomy.packed⟩

/-- Whatever was placed, the pieces of free space stand one behind the other. -/
theorem Reached.roomy (h : Reached grammar layout relocator) : Roomy grammar layout relocator := by
  induction h with
  | start => exact ⟨rfl, rfl, FreeSpace.packed_start _ _⟩
  | place _ hcountable hplace ih => exact ih.place hcountable hplace

/-- No event strays if free space is not below the load address and ends within 32 bits. -/
theorem Roomy.not_strays (h : Roomy grammar layout relocator)
    (hcountable : Countable grammar constants script) (hbase : layout.loadBase ≤ layout.freeBase)
    (hfree : layout.freeBase.toNat + layout.freeSize.toNat ≤ 2 ^ 32) :
    ¬ Strays relocator table id capacity script constants changed fault address := by
  rintro ⟨⟨current, inPlace, space, _, hassemble, hlarge, hallocate⟩, hbelow, _, _⟩
  obtain ⟨hsize, hextends⟩ := h.extends hcountable hassemble hallocate
  have hstart := hextends.start_eq
  have hcursor := hextends.cursor_eq
  have hstop := hextends.cursor_le
  rw [h.packed.stop_eq] at hstop
  rw [h.layout_eq, UInt32.lt_iff_toNat_lt] at hbelow
  rw [UInt32.le_iff_toNat_le] at hbase
  -- The piece is not empty and ends within 32 bits, so its address is where it starts.
  simp only [Allocation.start, UInt32.le_iff_toNat_le] at hstart
  split at hstart
  · omega
  · omega

/-- A failed placement leaves patches and placements as they were. It leaves the table as it was
too, unless the event strays; if free space is not below the load address and ends within 32 bits,
no event does. -/
theorem place_failed
    (h : relocator.place table id capacity script constants = (after, changed, .error fault)) :
    after.patches = relocator.patches ∧ after.placements = relocator.placements ∧
      (changed = table ∨
        ∃ address, Strays relocator table id capacity script constants changed fault address) ∧
      ∀ grammar layout, Reached grammar layout relocator → Countable grammar constants script →
        layout.loadBase ≤ layout.freeBase → layout.freeBase.toNat + layout.freeSize.toNat ≤ 2 ^ 32 →
        changed = table := by
  obtain ⟨hpatches, hplacements, htable⟩ := place_eq_error h
  refine ⟨hpatches, hplacements, htable, fun grammar layout hreached hcountable hbase hfree => ?_⟩
  rcases htable with hsame | ⟨address, hstrays⟩
  · exact hsame
  · exact absurd hstrays (hreached.roomy.not_strays hcountable hbase hfree)

/-- An event for which there is not enough free space. -/
theorem place_failed_outOfSpace :
    ∃ after changed,
      (start .empty { freeBase := 0x8000101, freeSize := 5 }).place
        ⟨"a", 0x40, 0, [0x8000010], false⟩ 0 2
        "db 1 3 5" .empty = (after, changed, .error (.allocation (.outOfSpace "a[0x0]" 3 5))) ∧
      after.patches = .empty ∧ after.placements = [] ∧
      changed = ⟨"a", 0x40, 0, [0x8000010], false⟩ := by
  have hcountable : Countable .empty .empty "db 1 3 5" := by
    have hassemble : assemble .empty 0 .empty "db 1 3 5" =
        .ok ⟨0, [⟨0, 1, "db", [1, 3, 5]⟩], ⟨[]⟩⟩ := by
      decide +kernel
    exact .of_assemble hassemble (by decide)
  have hresult : ((start .empty { freeBase := 0x8000101, freeSize := 5 }).place
      ⟨"a", 0x40, 0, [0x8000010], false⟩ 0 2 "db 1 3 5" .empty).2.2 =
        .error (.allocation (.outOfSpace "a[0x0]" 3 5)) := by
    decide +kernel
  rcases hplace : (start .empty { freeBase := 0x8000101, freeSize := 5 }).place
      ⟨"a", 0x40, 0, [0x8000010], false⟩ 0 2 "db 1 3 5" .empty with ⟨after, changed, result⟩
  rw [hplace] at hresult
  subst hresult
  obtain ⟨hpatches, hplacements, _, hkept⟩ := place_failed hplace
  exact ⟨after, changed, rfl, hpatches, hplacements,
    hkept .empty { freeBase := 0x8000101, freeSize := 5 } .start hcountable (by decide) (by decide)⟩

/-- Free space below the load address is given to an event. Placing it fails, but its table points
there now. -/
theorem place_strays :
    ((start .empty { freeBase := 0x1000, freeSize := 0x100 }).place
      ⟨"t", 0, 0, [0x8000010], false⟩ 0 0
      "db 1 2" .empty).2 =
      (⟨"t", 0, 0, [0x1000], true⟩, .error (.image (.notAPointer 0x1000))) := by
  decide +kernel

end Relocator

end EventScript
