import Mathlib.Data.List.Chain
import EventScript.Patch

/-!
# Composing patches

`Composes` describes the image from a cursor on with patches written to it, without faults, and
`composeFrom_eq_ok_iff` says that composing gives just this. What it gives is described byte by byte
in `Composed`. If patches cannot be composed, `composeFrom_eq_error` finds the first patch that is
not inside the image or starts before its predecessor ends. All this is about patches in the order
of `PatchSet.sorted`, which is by offset and otherwise the order they came in (`Sorted`).
-/

namespace EventScript

namespace Patch

/-- The patch starts inside an image of the given size and does not reach behind it. -/
def Inside (size : Nat) (patch : Patch) : Prop :=
  patch.offset.toNat < size ∧ patch.stop ≤ size

/-- The first patch ends at or before the start of the second. -/
def Before (first second : Patch) : Prop :=
  first.stop ≤ second.offset.toNat

/-- The patch writes the byte with the index. -/
def Covers (patch : Patch) (index : Nat) : Prop :=
  patch.offset.toNat ≤ index ∧ index < patch.stop

/-- The bytes of the patch stand at its offset. -/
def StandsIn (bytes : Bytes) (patch : Patch) : Prop :=
  (bytes.drop patch.offset.toNat).take patch.bytes.length = patch.bytes

theorem offset_le_stop (patch : Patch) : patch.offset.toNat ≤ patch.stop :=
  Nat.le_add_right ..

end Patch

namespace PatchSet

/-- The image from the cursor on with patches written to it, none of which starts before the one in
front of it ends. -/
inductive Composes (base : Bytes) : Nat → List Patch → Bytes → Prop where
  | nil {cursor} : Composes base cursor [] (base.drop cursor)
  | cons {cursor patch rest tail} : patch.Inside base.length → cursor ≤ patch.offset.toNat →
      Composes base patch.stop rest tail →
      Composes base cursor (patch :: rest)
        ((base.drop cursor).take (patch.offset.toNat - cursor) ++ patch.bytes ++ tail)

variable {base tail : Bytes} {cursor : Nat} {previous : String} {patches : List Patch}

/-- A patch that is not refused as out of bounds is inside. -/
theorem inside_iff {patch : Patch} {size : Nat} :
    ¬ (size ≤ patch.offset.toNat ∨ size < patch.stop) ↔ patch.Inside size := by
  unfold Patch.Inside
  omega

/-- Composing succeeds with what the patches and the image between them give. -/
theorem composeFrom_eq_ok_iff :
    composeFrom base cursor previous patches = .ok tail ↔ Composes base cursor patches tail := by
  constructor
  · intro h
    induction patches generalizing cursor previous tail with
    | nil =>
        cases h
        exact .nil
    | cons patch rest ih =>
        simp only [composeFrom] at h
        split at h
        · cases h
        · rename_i hinside
          split at h
          · cases h
          · rename_i hcursor
            split at h
            · cases h
            · rename_i more hmore
              cases h
              exact .cons (inside_iff.mp hinside) (Nat.le_of_not_lt hcursor) (ih hmore)
  · intro h
    induction h generalizing previous with
    | nil => rfl
    | cons hinside hcursor _ ih =>
        simp only [composeFrom, inside_iff.mpr hinside, Nat.not_lt_of_le hcursor, if_false, ih]

/-- No patch starts before the cursor. -/
theorem Composes.cursor_le (h : Composes base cursor patches tail) :
    ∀ patch ∈ patches, cursor ≤ patch.offset.toNat := by
  induction h with
  | nil => simp
  | @cons cursor patch rest tail _ hcursor _ ih =>
      intro other hother
      rcases List.mem_cons.mp hother with rfl | hother
      · exact hcursor
      · have := ih other hother
        have := patch.offset_le_stop
        omega

/-- Patches can be composed if they are inside and each ends before the next one starts. -/
theorem exists_composes_iff :
    (∃ tail, Composes base cursor patches tail) ↔
      (∀ patch ∈ patches, patch.Inside base.length) ∧ patches.IsChain Patch.Before ∧
        ∀ patch ∈ patches.head?, cursor ≤ patch.offset.toNat := by
  induction patches generalizing cursor with
  | nil => exact ⟨fun _ => by simp, fun _ => ⟨_, .nil⟩⟩
  | cons patch rest ih =>
      constructor
      · rintro ⟨_, hcomposes⟩
        cases hcomposes with
        | cons hinside hcursor hrest =>
            obtain ⟨hinsides, hchain, hhead⟩ := ih.mp ⟨_, hrest⟩
            refine ⟨by simpa using ⟨hinside, hinsides⟩, ?_, by simpa using hcursor⟩
            rw [List.isChain_cons]
            exact ⟨hhead, hchain⟩
      · rintro ⟨hinsides, hchain, hhead⟩
        rw [List.isChain_cons] at hchain
        obtain ⟨more, hmore⟩ :=
          ih.mpr ⟨fun other hother => hinsides other (List.mem_cons_of_mem _ hother),
          hchain.2, hchain.1⟩
        exact ⟨_, .cons (hinsides patch List.mem_cons_self) (hhead patch rfl) hmore⟩

/-- The size of what is left behind the cursor stays. -/
theorem Composes.length_eq (h : Composes base cursor patches tail)
    (hcursor : cursor ≤ base.length) :
    cursor + tail.length = base.length := by
  induction h with
  | nil =>
      rw [List.length_drop]
      omega
  | @cons cursor patch rest tail hinside hle _ ih =>
      have hrest := ih hinside.2
      have hstop : patch.stop = patch.offset.toNat + patch.bytes.length := rfl
      have hoffset := hinside.1
      simp only [List.length_append, List.length_take, List.length_drop]
      omega

/-- What is written in front of a patch and by it takes up the bytes from the cursor to its end. -/
theorem length_front {patch : Patch} (hinside : patch.Inside base.length)
    (hcursor : cursor ≤ patch.offset.toNat) :
    ((base.drop cursor).take (patch.offset.toNat - cursor)).length =
      patch.offset.toNat - cursor := by
  have := hinside.1
  rw [List.length_take, List.length_drop]
  omega

/-- Every patch is written at its offset. -/
theorem Composes.stands (h : Composes base cursor patches tail) {patch : Patch}
    (hpatch : patch ∈ patches) :
    (tail.drop (patch.offset.toNat - cursor)).take patch.bytes.length = patch.bytes := by
  induction h with
  | nil => simp at hpatch
  | @cons cursor first rest tail hinside hcursor hrest ih =>
      have hfront := length_front hinside hcursor
      rcases List.mem_cons.mp hpatch with rfl | hlater
      · rw [List.append_assoc, List.drop_left' hfront, List.take_left' rfl]
      · -- A later patch stands behind this one, so its bytes are all in the tail.
        have hstop := hrest.cursor_le patch hlater
        have hlength :
            ((base.drop cursor).take (first.offset.toNat - cursor) ++ first.bytes).length =
            first.stop - cursor := by
          rw [List.length_append, hfront, Patch.stop]
          omega
        have hsplit : patch.offset.toNat - cursor =
            (first.stop - cursor) + (patch.offset.toNat - first.stop) := by
          have := first.offset_le_stop
          omega
        rw [hsplit, ← List.drop_drop, List.drop_left' hlength]
        exact ih hlater

/-- A byte that no patch covers is kept. -/
theorem Composes.kept (h : Composes base cursor patches tail) {index : Nat}
    (hindex : cursor ≤ index)
    (hfree : ∀ patch ∈ patches, ¬ patch.Covers index) : tail[index - cursor]? = base[index]? := by
  induction h with
  | @nil cursor =>
      rw [List.getElem?_drop]
      congr 1
      omega
  | @cons cursor patch rest tail hinside hcursor _ ih =>
      have hfront := length_front hinside hcursor
      have hrest :=
        fun hstop => ih hstop fun other hother => hfree other (List.mem_cons_of_mem _ hother)
      have hpatch := hfree patch List.mem_cons_self
      have hstop : patch.stop = patch.offset.toNat + patch.bytes.length := rfl
      -- The index is in the stretch that is copied in front of the patch, or behind the patch.
      by_cases hbefore : index < patch.offset.toNat
      · rw [List.append_assoc, List.getElem?_append_left (by omega),
          List.getElem?_take_of_lt (by omega), List.getElem?_drop]
        congr 1
        omega
      · have hbehind : patch.stop ≤ index := by
          unfold Patch.Covers at hpatch
          omega
        rw [← hrest hbehind, List.append_assoc, List.getElem?_append_right (by omega),
          List.getElem?_append_right (by omega), hfront]
        congr 1
        omega

/-- If composing fails, some patch is the first that is not inside, or that starts before the one in
front of it ends; in front of the first patch the cursor stands for that end. -/
theorem composeFrom_eq_error {fault : PatchError}
    (h : composeFrom base cursor previous patches = .error fault) :
    ∃ front patch rest, patches = front ++ patch :: rest ∧
      (∃ tail, Composes base cursor front tail) ∧
      ((¬ patch.Inside base.length ∧ fault = .outOfBounds patch base.length) ∨
        (patch.Inside base.length ∧
          patch.offset.toNat < (front.getLast?.map Patch.stop).getD cursor ∧
          fault = .overlap patch ((front.getLast?.map Patch.stop).getD cursor)
            ((front.getLast?.map Patch.producer).getD previous))) := by
  induction patches generalizing cursor previous with
  | nil => cases h
  | cons patch rest ih =>
      simp only [composeFrom] at h
      split at h
      · rename_i houtside
        cases h
        refine ⟨[], patch, rest, rfl, ⟨_, .nil⟩, .inl ⟨fun hinside => ?_, rfl⟩⟩
        exact inside_iff.mpr hinside houtside
      · rename_i hinside
        split at h
        · rename_i hcursor
          cases h
          exact ⟨[], patch, rest, rfl, ⟨_, .nil⟩, .inr ⟨inside_iff.mp hinside, hcursor, rfl⟩⟩
        · rename_i hcursor
          split at h
          · rename_i hrest
            cases h
            obtain ⟨front, other, more, rfl, ⟨tail, hcomposes⟩, hfault⟩ := ih hrest
            refine ⟨patch :: front, other, more, rfl,
              ⟨_, .cons (inside_iff.mp hinside) (Nat.le_of_not_lt hcursor) hcomposes⟩, ?_⟩
            have hlast : ∀ {α : Type} (view : Patch → α) (first : α),
                (((patch :: front).getLast?).map view).getD first =
                  (front.getLast?.map view).getD (view patch) := by
              intro α view first
              cases hlast : front.getLast? <;> simp [List.getLast?_cons, hlast]
            rw [hlast, hlast]
            exact hfault
          · cases h

/-- The second list has the patches of the first in the order of their offsets; patches with one
offset stay in order. -/
structure Sorted (patches sorted : List Patch) : Prop where
  perm : sorted.Perm patches
  ordered : sorted.Pairwise fun first second => first.offset ≤ second.offset
  stable : ∀ offset, sorted.filter (fun patch => patch.offset = offset) =
    patches.filter fun patch => patch.offset = offset

/-- Sorting is stable. -/
theorem sorted_sorted (set : PatchSet) : Sorted set.patches set.sorted := by
  have htrans : ∀ first second third : Patch, decide (first.offset ≤ second.offset) = true →
      decide (second.offset ≤ third.offset) = true →
      decide (first.offset ≤ third.offset) = true := by
    intro first second third hfirst hsecond
    simp only [decide_eq_true_eq, UInt32.le_iff_toNat_le] at *
    omega
  have htotal : ∀ first second : Patch,
      (decide (first.offset ≤ second.offset) || decide (second.offset ≤ first.offset)) = true := by
    intro first second
    simp only [Bool.or_eq_true, decide_eq_true_eq, UInt32.le_iff_toNat_le]
    omega
  have hperm : set.sorted.Perm set.patches := List.mergeSort_perm ..
  refine ⟨hperm, ?_, fun offset => ?_⟩
  · exact (List.pairwise_mergeSort htrans htotal set.patches).imp fun h => by simpa using h
  · -- The patches with one offset are in order already, so sorting keeps them as a sublist.
    have hequal : (set.patches.filter fun patch => patch.offset = offset).Pairwise
        fun first second => decide (first.offset ≤ second.offset) = true := by
      apply List.pairwise_of_forall_mem_list
      intro first hfirst second hsecond
      rw [of_decide_eq_true (List.mem_filter.mp hfirst).2,
        of_decide_eq_true (List.mem_filter.mp hsecond).2]
      simp
    have hsublist := (List.sublist_mergeSort htrans htotal hequal List.filter_sublist).filter
      fun patch => decide (patch.offset = offset)
    rw [List.filter_filter] at hsublist
    simp only [Bool.and_self] at hsublist
    exact (hsublist.eq_of_length (hperm.filter _).length_eq.symm).symm

/-- An image that has the bytes of patches at their offsets and those of another image elsewhere. -/
structure Composed (image : Image) (patches : List Patch) (result : Image) : Prop where
  size : result.size = image.size
  stands : ∀ patch ∈ patches, patch.StandsIn result.bytes
  kept : ∀ index, (∀ patch ∈ patches, ¬ patch.Covers index) →
    result.bytes[index]? = image.bytes[index]?

variable {set : PatchSet} {image result : Image}

/-- Composing an image is composing its bytes from the start. -/
theorem compose_eq_ok_iff :
    set.compose image = .ok result ↔ Composes image.bytes 0 set.sorted result.bytes := by
  have hfrom : composeFrom image.bytes 0 "" set.sorted = .ok result.bytes ↔
      Composes image.bytes 0 set.sorted result.bytes := composeFrom_eq_ok_iff
  rw [← hfrom, compose]
  cases composeFrom image.bytes 0 "" set.sorted with
  | error fault => simp
  | ok bytes =>
      cases result
      simp

/-- Composing an image writes the patches and nothing else. -/
theorem composed_of_compose (h : set.compose image = .ok result) :
    Composed image set.patches result := by
  have hcomposes := compose_eq_ok_iff.mp h
  have hmem : ∀ {patch}, patch ∈ set.patches ↔ patch ∈ set.sorted :=
    (sorted_sorted set).perm.mem_iff.symm
  refine ⟨?_, fun patch hpatch => ?_, fun index hfree => ?_⟩
  · have := hcomposes.length_eq (Nat.zero_le _)
    simp only [Image.size]
    omega
  · exact hcomposes.stands (hmem.mp hpatch)
  · exact hcomposes.kept (Nat.zero_le index) fun patch hpatch => hfree patch (hmem.mpr hpatch)

/-- Patches that are composed are inside the image. -/
theorem inside_of_compose (h : set.compose image = .ok result) {patch : Patch}
    (hpatch : patch ∈ set.patches) : patch.Inside image.size := by
  have hcomposes := exists_composes_iff.mp ⟨_, compose_eq_ok_iff.mp h⟩
  exact hcomposes.1 patch ((sorted_sorted set).perm.mem_iff.mpr hpatch)

/-- When composing succeeds, what it gives and why it fails. In the order of their offsets the
patches have to be inside the image and to end at or before the start of the next one; then the
result has their bytes and otherwise those of the image. If it fails, the fault is that of the first
patch which is not inside or starts before its predecessor ends. -/
theorem compose_outcome (set : PatchSet) (image : Image) :
    Sorted set.patches set.sorted ∧
    ((∃ result, set.compose image = .ok result) ↔
      (∀ patch ∈ set.patches, patch.Inside image.size) ∧ set.sorted.IsChain Patch.Before) ∧
    (∀ result, set.compose image = .ok result → Composed image set.patches result) ∧
    ∀ fault, set.compose image = .error fault →
      ∃ front patch rest, set.sorted = front ++ patch :: rest ∧
        (∀ other ∈ front, other.Inside image.size) ∧ front.IsChain Patch.Before ∧
        ((¬ patch.Inside image.size ∧ fault = .outOfBounds patch image.size) ∨
          (patch.Inside image.size ∧ ∃ last, front.getLast? = some last ∧ ¬ last.Before patch ∧
            fault = .overlap patch last.stop last.producer)) := by
  have hsorted := sorted_sorted set
  refine ⟨hsorted, ?_, fun result => composed_of_compose, fun fault hfault => ?_⟩
  · have hinside : (∀ patch ∈ set.patches, patch.Inside image.size) ↔
        ∀ patch ∈ set.sorted, patch.Inside image.size :=
      forall_congr' fun patch => by rw [hsorted.perm.mem_iff]
    have hstart : ∀ patch ∈ set.sorted.head?, 0 ≤ patch.offset.toNat := fun _ _ => Nat.zero_le _
    rw [hinside]
    constructor
    · rintro ⟨result, hresult⟩
      obtain ⟨hinsides, hchain, _⟩ := exists_composes_iff.mp ⟨_, compose_eq_ok_iff.mp hresult⟩
      exact ⟨hinsides, hchain⟩
    · rintro ⟨hinsides, hchain⟩
      obtain ⟨bytes, hcomposes⟩ := exists_composes_iff.mpr ⟨hinsides, hchain, hstart⟩
      exact ⟨⟨bytes⟩, compose_eq_ok_iff.mpr hcomposes⟩
  · have hfrom : composeFrom image.bytes 0 "" set.sorted = .error fault := by
      unfold compose at hfault
      split at hfault
      · cases hfault
        assumption
      · cases hfault
    obtain ⟨front, patch, rest, hsplit, hcomposes, hcase⟩ := composeFrom_eq_error hfrom
    obtain ⟨hinsides, hchain, _⟩ := exists_composes_iff.mp hcomposes
    refine ⟨front, patch, rest, hsplit, hinsides, hchain, hcase.imp_right ?_⟩
    rintro ⟨hinside, hbefore, rfl⟩
    -- Nothing starts before the start of the image, so there is a patch in front.
    cases hlast : front.getLast? with
    | none => simp [hlast] at hbefore
    | some last =>
        simp only [hlast, Option.map_some, Option.getD_some] at hbefore
        exact ⟨hinside, last, rfl, Nat.not_le_of_lt hbefore, rfl⟩

/-- Adjacent patches, an empty one among them, are composed, and a patch that starts inside another
one is refused. -/
theorem compose_outcome_adjacent :
    Composed ⟨[0, 1, 2, 3, 4]⟩ [⟨3, [9], "b"⟩, ⟨1, [], "empty"⟩, ⟨1, [7, 8], "a"⟩]
      ⟨[0, 7, 8, 9, 4]⟩ ∧
      ∃ front patch rest,
        sorted ⟨[⟨2, [9], "b"⟩, ⟨1, [7, 8], "a"⟩]⟩ = front ++ patch :: rest ∧
        ∃ last, front.getLast? = some last ∧ ¬ last.Before patch ∧
          PatchError.overlap ⟨2, [9], "b"⟩ 3 "a" = .overlap patch last.stop last.producer := by
  have hsorted : sorted ⟨[⟨3, [9], "b"⟩, ⟨1, [], "empty"⟩, ⟨1, [7, 8], "a"⟩]⟩ =
      [⟨1, [], "empty"⟩, ⟨1, [7, 8], "a"⟩, ⟨3, [9], "b"⟩] := by
    simp [sorted, List.mergeSort]
  have hgood : compose ⟨[⟨3, [9], "b"⟩, ⟨1, [], "empty"⟩, ⟨1, [7, 8], "a"⟩]⟩ ⟨[0, 1, 2, 3, 4]⟩ =
      .ok ⟨[0, 7, 8, 9, 4]⟩ := by
    rw [compose, hsorted]
    decide +kernel
  have hother : sorted ⟨[⟨2, [9], "b"⟩, ⟨1, [7, 8], "a"⟩]⟩ = [⟨1, [7, 8], "a"⟩, ⟨2, [9], "b"⟩] := by
    simp [sorted, List.mergeSort]
  have hbad : compose ⟨[⟨2, [9], "b"⟩, ⟨1, [7, 8], "a"⟩]⟩ ⟨[0, 1, 2, 3, 4]⟩ =
      .error (.overlap ⟨2, [9], "b"⟩ 3 "a") := by
    rw [compose, hother]
    decide +kernel
  refine ⟨(compose_outcome _ _).2.2.1 _ hgood, ?_⟩
  obtain ⟨front, patch, rest, hsplit, _, _, ⟨_, hfault⟩ | ⟨_, hlast⟩⟩ :=
    (compose_outcome _ _).2.2.2 _ hbad
  · cases hfault
  · exact ⟨front, patch, rest, hsplit, hlast⟩

end PatchSet

end EventScript
