import Mathlib.Algebra.Ring.Nat
import EventScript.FreeSpace

/-!
# Giving free space away

`allocate_eq_ok_iff` says when free space is given away and what is left. In free space that ends
within 32 bits `Grants` says it in numbers: the piece is aligned, starts behind all that was given
away before, and ends within the space (`Bounded.grants_of_allocate`).

In general a piece may start at 2^32 or behind; then its address has lost the upper bits, but
`Allocation.start` recovers where it starts. `Packed` says that all pieces stand one behind the
other in front of the cursor. A request keeps it (`Packed.ask`), hence so do many (`Packed.askAll`),
and `askAll_outcome` says what follows for the pieces and for the next request. An address can be
outside of the space, and a request whose end cannot be written in 64 bits stops the run instead of
being refused (`allocate_overflows`).
-/

namespace EventScript

/-- Where a piece starts in a space that begins at `base` and has less than 2^32 bytes. Addresses
have 32 bits, so that of a piece behind them is too small by 2^32. -/
def Allocation.start (base : UInt32) (allocation : Allocation) : Nat :=
  if base ≤ allocation.address then allocation.address.toNat else allocation.address.toNat + 2 ^ 32

namespace FreeSpace

variable {space after : FreeSpace} {owner : String} {size : UInt64} {address : UInt32}

/-- How a request is answered, with the end of the piece as a number. -/
theorem allocate_eq (space : FreeSpace) (owner : String) (size : UInt64) :
    space.allocate owner size =
      if 2 ^ 64 ≤ space.next.toNat + size.toNat then .error .overflow
      else if space.stop.toNat < space.next.toNat + size.toNat then
        .error (.outOfSpace owner size space.remaining)
      else .ok (space.next.toUInt32,
        { space with
          cursor := space.next + size
          allocations := space.allocations ++ [⟨owner, space.next.toUInt32, size⟩] }) := by
  have hsize : UInt64.size = 2 ^ 64 := rfl
  rw [allocate, hsize]
  by_cases hover : 2 ^ 64 ≤ space.next.toNat + size.toNat
  · rw [if_pos hover, if_pos hover]
  · have hsum : (space.next + size).toNat = space.next.toNat + size.toNat := by
      rw [UInt64.toNat_add, Nat.mod_eq_of_lt (Nat.lt_of_not_le hover)]
    rw [if_neg hover, if_neg hover]
    simp only [UInt64.lt_iff_toNat_lt, hsum]

/-- Free space is given away at the next multiple of four if it ends within the space. -/
theorem allocate_eq_ok_iff :
    space.allocate owner size = .ok (address, after) ↔
      space.next.toNat + size.toNat ≤ space.stop.toNat ∧ address = space.next.toUInt32 ∧
        after = { space with
          cursor := space.next + size
          allocations := space.allocations ++ [⟨owner, address, size⟩] } := by
  have hstop := space.stop.toNat_lt
  rw [allocate_eq]
  constructor
  · intro h
    split at h
    · cases h
    · split at h
      · cases h
      · rename_i hroom
        cases h
        exact ⟨Nat.le_of_not_lt hroom, rfl, rfl⟩
  · rintro ⟨hroom, rfl, rfl⟩
    rw [if_neg (by omega), if_neg (by omega)]

/-- The end of a piece within the space. -/
theorem toNat_next_add (h : space.next.toNat + size.toNat ≤ space.stop.toNat) :
    (space.next + size).toNat = space.next.toNat + size.toNat := by
  have hstop := space.stop.toNat_lt
  rw [UInt64.toNat_add, Nat.mod_eq_of_lt (by omega)]

/-- The first multiple of four that is not below a number. -/
def roundUp (number : Nat) : Nat :=
  (number + 3) / 4 * 4

theorem le_roundUp (number : Nat) : number ≤ roundUp number := by
  rw [roundUp]
  omega

theorem roundUp_le (number : Nat) : roundUp number ≤ number + 3 := by
  rw [roundUp]
  omega

/-- The next multiple of four, as long as there is one. -/
theorem toNat_next (h : space.cursor.toNat + 3 < 2 ^ 64) :
    space.next.toNat = roundUp space.cursor.toNat := by
  have hthree : (3 : UInt64).toNat = 3 := rfl
  have hfour : (4 : UInt64).toNat = 4 := rfl
  rw [next, UInt64.toNat_mul, UInt64.toNat_div, UInt64.toNat_add, hthree, hfour, roundUp]
  omega

/-- The cursor is within the space, which ends within 32 bits. -/
structure Bounded (space : FreeSpace) : Prop where
  cursor_le : space.cursor.toNat ≤ space.stop.toNat
  stop_le : space.stop.toNat ≤ 2 ^ 32

@[simp] theorem toNat_cursor_start (base size : UInt32) :
    (start base size).cursor.toNat = base.toNat :=
  UInt32.toNat_toUInt64 base

@[simp] theorem toNat_stop_start (base size : UInt32) :
    (start base size).stop.toNat = base.toNat + size.toNat := by
  have hbase := base.toNat_lt
  have hsize := size.toNat_lt
  rw [start, UInt64.toNat_add, UInt32.toNat_toUInt64, UInt32.toNat_toUInt64, Nat.mod_eq_of_lt]
  omega

/-- A space that ends within 32 bits. -/
theorem bounded_start {base size : UInt32} (h : base.toNat + size.toNat ≤ 2 ^ 32) :
    (start base size).Bounded := by
  refine ⟨?_, ?_⟩
  · rw [toNat_cursor_start, toNat_stop_start]
    omega
  · rw [toNat_stop_start]
    exact h

/-- What it means that a piece of free space is given away. -/
structure Grants (space : FreeSpace) (owner : String) (size : UInt64) (address : UInt32)
    (after : FreeSpace) : Prop where
  aligned : address.toNat % 4 = 0
  /-- The piece starts behind all that was given away before. -/
  cursor_le : space.cursor.toNat ≤ address.toNat
  /-- The piece ends within the space. -/
  le_stop : address.toNat + size.toNat ≤ space.stop.toNat
  cursor_eq : after.cursor.toNat = address.toNat + size.toNat
  stop_eq : after.stop = space.stop
  allocations_eq : after.allocations = space.allocations ++ [⟨owner, address, size⟩]

/-- A piece that is not empty is given away where nothing was given away before. -/
theorem Bounded.grants_of_allocate (h : space.Bounded) (hpositive : 0 < size.toNat)
    (hallocate : space.allocate owner size = .ok (address, after)) :
    space.Grants owner size address after := by
  obtain ⟨hroom, haddress, rfl⟩ := allocate_eq_ok_iff.mp hallocate
  obtain ⟨hcursor, hstop⟩ := h
  have hnext := toNat_next (by omega : space.cursor.toNat + 3 < 2 ^ 64)
  have hsum := toNat_next_add hroom
  rw [roundUp] at hnext
  -- The piece is not empty, so it starts below 2^32 and its address has no more than 32 bits.
  have hstart : address.toNat = space.next.toNat := by
    rw [haddress, UInt64.toNat_toUInt32, Nat.mod_eq_of_lt]
    omega
  rw [← hstart] at hsum
  exact ⟨by omega, by omega, by omega, hsum, rfl, rfl⟩

/-- What is left of a space is one. -/
theorem Grants.bounded (h : space.Grants owner size address after) (hspace : space.Bounded) :
    after.Bounded := by
  refine ⟨?_, ?_⟩
  · rw [h.cursor_eq, h.stop_eq]
    exact h.le_stop
  · rw [h.stop_eq]
    exact hspace.stop_le

/-- What is left after a request, whether or not it is served. -/
def ask (space : FreeSpace) (request : String × UInt64) : FreeSpace :=
  match space.allocate request.1 request.2 with
  | .error _ => space
  | .ok (_, after) => after

/-- What is left after requests, whether or not they are served. -/
def askAll (space : FreeSpace) (requests : List (String × UInt64)) : FreeSpace :=
  requests.foldl ask space

/-- The pieces that were given away stand one behind the other in the space, in front of the cursor.
-/
structure Packed (base extent : UInt32) (space : FreeSpace) : Prop where
  stop_eq : space.stop.toNat = base.toNat + extent.toNat
  base_le : base.toNat ≤ space.cursor.toNat
  cursor_le : space.cursor.toNat ≤ space.stop.toNat
  aligned : ∀ allocation ∈ space.allocations, allocation.address.toNat % 4 = 0
  behind : ∀ allocation ∈ space.allocations, base.toNat ≤ allocation.start base
  below : ∀ allocation ∈ space.allocations,
    allocation.start base + allocation.size.toNat ≤ space.cursor.toNat
  ordered : space.allocations.Pairwise fun first second =>
    first.start base + first.size.toNat ≤ second.start base

variable {base extent : UInt32}

/-- A space of which nothing was given away. -/
theorem packed_start (base extent : UInt32) : Packed base extent (start base extent) := by
  refine ⟨toNat_stop_start base extent, ?_, ?_, ?_, ?_, ?_, .nil⟩
  · rw [toNat_cursor_start]
  · rw [toNat_cursor_start, toNat_stop_start]
    omega
  all_goals
    intro allocation hallocation
    cases hallocation

/-- The cursor has no more than 33 bits. -/
theorem Packed.cursor_lt (h : Packed base extent space) : space.cursor.toNat < 2 ^ 33 := by
  have hbase := base.toNat_lt
  have hextent := extent.toNat_lt
  have := h.cursor_le
  have := h.stop_eq
  omega

/-- The next piece starts at the next multiple of four. -/
theorem Packed.toNat_next (h : Packed base extent space) :
    space.next.toNat = roundUp space.cursor.toNat := by
  have hcursor := h.cursor_lt
  exact FreeSpace.toNat_next (by omega)

/-- In a space of less than 2^32 bytes, a piece is known to start at a number from the lower bits of
that number. -/
theorem start_eq {start : Nat} (haddress : address.toNat = start % 2 ^ 32)
    (hstart : base.toNat ≤ start) (hstop : start < base.toNat + 2 ^ 32) :
    Allocation.start base ⟨owner, address, size⟩ = start := by
  have hbase := base.toNat_lt
  simp only [Allocation.start, UInt32.le_iff_toNat_le]
  split
  · omega
  · omega

/-- What it means that a request is served in a space whose pieces stand one behind the other. -/
structure Extends (base : UInt32) (space : FreeSpace) (owner : String) (size : UInt64)
    (address : UInt32) (after : FreeSpace) : Prop where
  aligned : address.toNat % 4 = 0
  start_eq : Allocation.start base ⟨owner, address, size⟩ = roundUp space.cursor.toNat
  cursor_eq : after.cursor.toNat = roundUp space.cursor.toNat + size.toNat
  cursor_le : after.cursor.toNat ≤ space.stop.toNat
  stop_eq : after.stop = space.stop
  allocations_eq : after.allocations = space.allocations ++ [⟨owner, address, size⟩]

/-- A request that is served gets the next piece. -/
theorem Packed.extends_of_allocate (h : Packed base extent space)
    (hallocate : space.allocate owner size = .ok (address, after)) :
    Extends base space owner size address after := by
  obtain ⟨hroom, haddress, rfl⟩ := allocate_eq_ok_iff.mp hallocate
  have hbase := h.base_le
  have hstop := h.stop_eq
  have hsum := toNat_next_add hroom
  rw [h.toNat_next] at hsum hroom
  have hlow : address.toNat = roundUp space.cursor.toNat % 2 ^ 32 := by
    rw [haddress, UInt64.toNat_toUInt32, h.toNat_next]
  refine ⟨?_, ?_, hsum, ?_, rfl, rfl⟩
  · rw [hlow, roundUp]
    omega
  · have hextent := extent.toNat_lt
    have hnext := le_roundUp space.cursor.toNat
    exact start_eq hlow (by omega) (by omega)
  · show (space.next + size).toNat ≤ _
    rw [hsum]
    exact hroom

/-- A request that is served keeps the pieces one behind the other. -/
theorem Packed.of_extends (h : Packed base extent space)
    (hextends : Extends base space owner size address after) : Packed base extent after := by
  have hcursor := hextends.cursor_eq
  have hround := le_roundUp space.cursor.toNat
  have hstart := hextends.start_eq
  have hbase := h.base_le
  -- What holds of the old pieces and of the new one holds of all.
  have hall : ∀ {property : Allocation → Prop},
      (∀ allocation ∈ space.allocations, property allocation) →
      property ⟨owner, address, size⟩ → ∀ allocation ∈ after.allocations, property allocation := by
    intro property hold hnew
    rw [hextends.allocations_eq]
    simpa [or_imp, forall_and] using ⟨hold, hnew⟩
  constructor
  · rw [hextends.stop_eq]
    exact h.stop_eq
  · omega
  · rw [hextends.stop_eq]
    exact hextends.cursor_le
  · exact hall h.aligned hextends.aligned
  · exact hall h.behind (by omega)
  · refine hall (fun allocation hallocation => ?_) ?_
    · have := h.below allocation hallocation
      omega
    · rw [hstart, hcursor]
  · rw [hextends.allocations_eq, List.pairwise_append]
    refine ⟨h.ordered, List.pairwise_singleton .., fun first hfirst second hsecond => ?_⟩
    have := h.below first hfirst
    rw [List.mem_singleton.mp hsecond, hstart]
    omega

/-- A request that is refused changes nothing. -/
theorem ask_of_error {request : String × UInt64}
    (h : ∃ fault, space.allocate request.1 request.2 = .error fault) :
    space.ask request = space := by
  obtain ⟨fault, hfault⟩ := h
  rw [ask, hfault]

/-- A request keeps the pieces one behind the other, whether or not it is served. -/
theorem Packed.ask {request : String × UInt64} (h : Packed base extent space) :
    Packed base extent (space.ask request) := by
  unfold FreeSpace.ask
  split
  · exact h
  · rename_i hallocate
    exact h.of_extends (h.extends_of_allocate hallocate)

/-- So do requests one after the other. -/
theorem Packed.askAll {requests : List (String × UInt64)} (h : Packed base extent space) :
    Packed base extent (space.askAll requests) := by
  induction requests generalizing space with
  | nil => exact h
  | cons request rest ih => exact ih h.ask

/-- What is left is the space behind the cursor. -/
theorem Packed.toNat_remaining (h : Packed base extent space) :
    space.remaining.toNat + space.cursor.toNat = base.toNat + extent.toNat := by
  have hextent := extent.toNat_lt
  have hbase := h.base_le
  have hcursor := h.cursor_le
  have hstop := h.stop_eq
  have hmin : min space.cursor space.stop = space.cursor :=
    if_pos (UInt64.le_iff_toNat_le.mpr hcursor)
  rw [remaining, hmin, UInt64.toNat_toUInt32,
    UInt64.toNat_sub_of_le _ _ (UInt64.le_iff_toNat_le.mpr hcursor)]
  omega

/-- Pieces of a space that begins at `base` and has `extent` bytes. -/
structure Dealt (base extent : UInt32) (allocations : List Allocation) : Prop where
  aligned : ∀ allocation ∈ allocations, allocation.address.toNat % 4 = 0
  /-- Each piece is inside the space. -/
  inside : ∀ allocation ∈ allocations, base.toNat ≤ allocation.start base ∧
    allocation.start base + allocation.size.toNat ≤ base.toNat + extent.toNat
  /-- Each piece ends before the next ones start. -/
  ordered : allocations.Pairwise fun first second =>
    first.start base + first.size.toNat ≤ second.start base
  /-- If the space ends within 32 bits, pieces that are not empty start at their addresses. -/
  start_eq : base.toNat + extent.toNat ≤ 2 ^ 32 → ∀ allocation ∈ allocations,
    0 < allocation.size.toNat → allocation.start base = allocation.address.toNat

/-- How a request is answered in such a space. -/
structure Answers (base extent : UInt32) (space : FreeSpace) (request : String × UInt64) :
    Prop where
  /-- It is not served if the next multiple of four and its size exceed the space. -/
  refused_iff : (∃ fault, space.allocate request.1 request.2 = .error fault) ↔
    base.toNat + extent.toNat < roundUp space.cursor.toNat + request.2.toNat
  /-- Then nothing changes. -/
  refused : (∃ fault, space.allocate request.1 request.2 = .error fault) → space.ask request = space
  /-- The fault says how much is left, unless the end of the piece cannot be written in 64 bits. -/
  fault_eq : ∀ fault, space.allocate request.1 request.2 = .error fault →
    fault = if roundUp space.cursor.toNat + request.2.toNat < 2 ^ 64 then
        .outOfSpace request.1 request.2 space.remaining
      else .overflow
  /-- Otherwise the piece with the address that is returned is noted, and what is left is less by
  its size and by what is skipped in front of it. -/
  served : ∀ address after, space.allocate request.1 request.2 = .ok (address, after) →
    space.ask request = after ∧
      after.allocations = space.allocations ++ [⟨request.1, address, request.2⟩] ∧
      ∃ skipped ≤ 3, roundUp space.cursor.toNat = space.cursor.toNat + skipped ∧
        after.remaining.toNat + (request.2.toNat + skipped) = space.remaining.toNat

/-- The pieces are inside the space, one behind the other. -/
theorem Packed.dealt (h : Packed base extent space) : Dealt base extent space.allocations := by
  have hcursor := h.cursor_le
  have hstop := h.stop_eq
  have hinside : ∀ allocation ∈ space.allocations,
      allocation.start base + allocation.size.toNat ≤ base.toNat + extent.toNat := by
    intro allocation hallocation
    have := h.below allocation hallocation
    omega
  refine ⟨h.aligned,
    fun allocation hallocation => ⟨h.behind allocation hallocation, hinside allocation hallocation⟩,
    h.ordered, fun hwithin allocation hallocation hpositive => ?_⟩
  have := hinside allocation hallocation
  rw [Allocation.start] at this ⊢
  split at this
  · rename_i hle
    rw [if_pos hle]
  · omega

/-- In a space whose pieces stand one behind the other, every request is answered so. -/
theorem Packed.answers (h : Packed base extent space) (request : String × UInt64) :
    Answers base extent space request := by
  have hlt := h.cursor_lt
  have hstop := h.stop_eq
  have hbound := space.stop.toNat_lt
  have heq := allocate_eq space request.1 request.2
  rw [h.toNat_next] at heq
  refine ⟨⟨?_, ?_⟩, ask_of_error, ?_, fun address after hallocate => ?_⟩
  · rintro ⟨fault, hfault⟩
    rw [hfault] at heq
    split at heq
    · omega
    · split at heq
      · omega
      · cases heq
  · intro hexceeds
    rw [heq]
    split
    · exact ⟨_, rfl⟩
    · rw [if_pos (by omega)]
      exact ⟨_, rfl⟩
  · intro fault hfault
    rw [hfault] at heq
    split at heq
    · rw [if_neg (by omega)]
      cases heq
      rfl
    · rw [if_pos (by omega)]
      split at heq
      · cases heq
        rfl
      · cases heq
  · have hextends := h.extends_of_allocate hallocate
    have hbefore := h.toNat_remaining
    have hafter := (h.of_extends hextends).toNat_remaining
    have hcursor := hextends.cursor_eq
    obtain ⟨skipped, hskipped⟩ := Nat.exists_eq_add_of_le (le_roundUp space.cursor.toNat)
    have hround := roundUp_le space.cursor.toNat
    exact ⟨by rw [FreeSpace.ask, hallocate], hextends.allocations_eq, skipped, by omega, hskipped,
      by omega⟩

/-- Whatever was asked for, the pieces that were given away are aligned, inside the space and one
behind the other, and the next request is refused just if it does not fit behind them. -/
theorem askAll_outcome (base extent : UInt32) (requests : List (String × UInt64)) :
    Dealt base extent ((start base extent).askAll requests).allocations ∧
      ∀ request : String × UInt64,
        Answers base extent ((start base extent).askAll requests) request := by
  have hpacked : Packed base extent ((start base extent).askAll requests) :=
    (packed_start base extent).askAll
  exact ⟨hpacked.dealt, hpacked.answers⟩

/-- In a space that ends behind 2^32 two requests are served and two are refused, one of them
because its end cannot be written; the last piece starts at 2^32 and has address 0. -/
theorem askAll_outcome_behind :
    ((start 0xfffffff1 0x20).askAll
        [("a", 9), ("b", 100), ("big", 0xfffffffffffffffc), ("c", 4)]).allocations =
        [⟨"a", 0xfffffff4, 9⟩, ⟨"c", 0, 4⟩] ∧
      Allocation.start 0xfffffff1 ⟨"c", 0, 4⟩ = 2 ^ 32 ∧
      Dealt 0xfffffff1 0x20 [⟨"a", 0xfffffff4, 9⟩, ⟨"c", 0, 4⟩] ∧
      Answers 0xfffffff1 0x20 ((start 0xfffffff1 0x20).askAll [("a", 9), ("b", 100)]) ("c", 4) := by
  have hallocations : ((start 0xfffffff1 0x20).askAll
      [("a", 9), ("b", 100), ("big", 0xfffffffffffffffc), ("c", 4)]).allocations =
      [⟨"a", 0xfffffff4, 9⟩, ⟨"c", 0, 4⟩] := by
    decide +kernel
  obtain ⟨hdealt, _⟩ := askAll_outcome 0xfffffff1 0x20
    [("a", 9), ("b", 100), ("big", 0xfffffffffffffffc), ("c", 4)]
  exact ⟨hallocations, by decide +kernel, hallocations ▸ hdealt, (askAll_outcome _ _ _).2 _⟩

/-- A piece that starts at 2^32 has an address outside of the space, and a request whose end cannot
be written in 64 bits is not refused as too large. -/
theorem allocate_overflows :
    (((start 0xfffffff0 0x20).ask ("a", 16)).allocate "b" 4).map (fun served => served.1) = .ok 0 ∧
      (0 : UInt32).toNat < (0xfffffff0 : UInt32).toNat ∧
      (start 0x1000 8).allocate "big" 0xfffffffffffffffc = .error .overflow ∧
      (start 0x1000 8).remaining = 8 := by
  decide +kernel

end FreeSpace

end EventScript
