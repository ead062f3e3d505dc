import Mathlib.Algebra.Ring.Nat
import Mathlib.Data.List.Induction
import EventScript.Proofs.PointerTable

/-!
# Tables that are written back

A table that was loaded is changed one entry at a time (`update`); changes that name no entry are
passed over. What stays of it and when it is marked is said of one change (`Follows.update`) and
hence of a list of them (`follows_updateAll`). The table then still lies where it was loaded from,
so its words can be written there (`exists_patches`) and read again.
-/

namespace EventScript

namespace PointerTable

variable {table before after : PointerTable} {change : UInt32 × UInt32}

/-- Let the entry for the id of a change point to its address; without such an entry nothing
changes. -/
def update (table : PointerTable) (change : UInt32 × UInt32) : PointerTable :=
  match table.set change.1 change.2 with
  | .error _ => table
  | .ok after => after

/-- Make changes in order. -/
def updateAll (table : PointerTable) (changes : List (UInt32 × UInt32)) : PointerTable :=
  changes.foldl update table

/-- The change gives an entry another value. -/
def Alters (table : PointerTable) (change : UInt32 × UInt32) : Prop :=
  (table.update change).entries ≠ table.entries

/-- Some of the changes, in its turn, gives an entry another value. -/
def AltersIn (table : PointerTable) (changes : List (UInt32 × UInt32)) : Prop :=
  ∃ earlier change later, changes = earlier ++ change :: later ∧
    (table.updateAll earlier).Alters change

@[simp] theorem updateAll_concat (table : PointerTable) (changes : List (UInt32 × UInt32))
    (change : UInt32 × UInt32) :
    table.updateAll (changes ++ [change]) = (table.updateAll changes).update change := by
  simp [updateAll]

/-- The last change is one more that may give an entry another value. -/
theorem altersIn_concat {changes : List (UInt32 × UInt32)} :
    table.AltersIn (changes ++ [change]) ↔
      table.AltersIn changes ∨ (table.updateAll changes).Alters change := by
  constructor
  · rintro ⟨earlier, other, later, hsplit, halters⟩
    rcases later.eq_nil_or_concat' with rfl | ⟨front, last, rfl⟩
    · obtain ⟨rfl, hother⟩ := List.append_inj' hsplit rfl
      cases hother
      exact .inr halters
    · rw [← List.cons_append, ← List.append_assoc] at hsplit
      exact .inl ⟨earlier, other, front, (List.append_inj' hsplit rfl).1, halters⟩
  · rintro (⟨earlier, other, later, rfl, halters⟩ | halters)
    · exact ⟨earlier, other, later ++ [change], by simp, halters⟩
    · exact ⟨changes, change, [], rfl, halters⟩

/-- Setting an entry changes the entries if it had another value. -/
theorem entries_set_ne_iff {entries : List UInt32} {index : Nat} {address : UInt32}
    (h : index < entries.length) :
    entries.set index address ≠ entries ↔ entries[index]? ≠ some address := by
  rw [List.getElem?_eq_getElem h]
  refine not_congr ⟨fun heq => ?_, fun heq => ?_⟩
  · rw [← List.getElem?_eq_getElem h, ← heq, List.getElem?_set_self h]
  · rw [← Option.some.inj heq, List.set_getElem_self]

/-- The table lies where the other one did and has as many entries. -/
structure Follows (before after : PointerTable) : Prop where
  name_eq : after.name = before.name
  offset_eq : after.offset = before.offset
  baseId_eq : after.baseId = before.baseId
  length_eq : after.entries.length = before.entries.length

/-- A change leaves the table in its place. -/
theorem Follows.update (h : Follows before table) (change : UInt32 × UInt32) :
    Follows before (table.update change) := by
  unfold PointerTable.update
  cases hset : table.set change.1 change.2 with
  | error fault => exact h
  | ok after =>
      obtain ⟨index, _, hentries, _, hname, hoffset, hbase⟩ := set_eq_ok hset
      exact ⟨hname.trans h.name_eq, hoffset.trans h.offset_eq, hbase.trans h.baseId_eq,
        by rw [hentries, List.length_set, h.length_eq]⟩

/-- A change marks the table just if it gives an entry another value. -/
theorem dirty_update (table : PointerTable) (change : UInt32 × UInt32) :
    (table.update change).dirty = true ↔ table.dirty = true ∨ table.Alters change := by
  unfold Alters update
  cases hset : table.set change.1 change.2 with
  | error fault => simp
  | ok after =>
      obtain ⟨index, hindex, hentries, hdirty, _⟩ := set_eq_ok hset
      rw [hdirty, hentries, entries_set_ne_iff (index?_eq_some_iff.mp hindex).2.2]

/-- Changes leave the table in its place. -/
theorem follows_updateAll (table : PointerTable) (changes : List (UInt32 × UInt32)) :
    Follows table (table.updateAll changes) := by
  induction changes using List.reverseRecOn with
  | nil => exact ⟨rfl, rfl, rfl, rfl⟩
  | append_singleton changes change ih =>
      rw [updateAll_concat]
      exact ih.update change

/-- Changes mark the table just if one of them gives an entry another value. -/
theorem dirty_updateAll (table : PointerTable) (changes : List (UInt32 × UInt32)) :
    (table.updateAll changes).dirty = true ↔ table.dirty = true ∨ table.AltersIn changes := by
  induction changes using List.reverseRecOn with
  | nil => simp [updateAll, AltersIn]
  | append_singleton changes change ih =>
      rw [updateAll_concat, dirty_update, ih, altersIn_concat, or_assoc]

/-- As long as no change gives an entry another value, the entries stay. -/
theorem entries_updateAll {changes : List (UInt32 × UInt32)} (h : ¬ table.AltersIn changes) :
    (table.updateAll changes).entries = table.entries := by
  induction changes using List.reverseRecOn with
  | nil => rfl
  | append_singleton changes change ih =>
      obtain ⟨hearlier, hlast⟩ := not_or.mp (mt altersIn_concat.mpr h)
      rw [updateAll_concat, ← ih hearlier]
      exact not_not.mp hlast

/-- Words can be written from an address on that four divides. -/
theorem exists_putWords {writer : Writer} (h : Width.word.aligned writer.address = true)
    (values : List UInt32) :
    ∃ final, putWords writer values = .ok final := by
  induction values generalizing writer with
  | nil => exact ⟨writer, rfl⟩
  | cons value rest ih =>
      have hnext :
          Width.word.aligned (writer.putBytes (LittleEndian.encode 4 value.toNat)).address =
            true := by
        simp only [Width.aligned, Width.size, Writer.address, Writer.size, Writer.putBytes,
          UInt32.toNat_add, UInt32.toNat_ofNat', List.length_append, LittleEndian.length_encode,
          beq_iff_eq] at h ⊢
        omega
      obtain ⟨final, hfinal⟩ := ih hnext
      refine ⟨final, ?_⟩
      simp only [putWords, Writer.put, h, if_true]
      exact hfinal

/-- A table at an offset that four divides can be written back. -/
theorem exists_patches (h : Width.word.aligned table.offset = true) :
    ∃ set, table.patches = .ok set := by
  have hstart : Width.word.aligned (Writer.start table.offset).address = true := by
    simpa [Writer.address, Writer.start, Writer.size] using h
  obtain ⟨writer, hwriter⟩ := exists_putWords hstart table.entries
  unfold patches
  split
  · exact ⟨_, by rw [hwriter]⟩
  · exact ⟨_, rfl⟩

variable {image : Image} {name : String} {offset baseId : UInt32} {count : UInt64}

/-- The patch of a table that follows one of the image is inside, so that it can be written. -/
theorem exists_compose (h : load image name offset count baseId = .ok before)
    (hfollows : Follows before table)
    {set : PatchSet} (hset : table.patches = .ok set) :
    ∃ result, set.compose image = .ok result := by
  obtain ⟨entries, hpointers, rfl⟩ := load_eq_ok_iff.mp h
  obtain ⟨_, _, hinside, hroom, hcount, _⟩ := Image.pointers_eq_ok_iff.mp hpointers
  have hpatches := patches_eq_ok hset
  have hsorted : set.sorted = set.patches := by
    rw [PatchSet.sorted, hpatches]
    split <;> simp
  have hfits : ∀ patch ∈ set.patches, patch.Inside image.bytes.length := by
    intro patch hpatch
    rw [hpatches] at hpatch
    split at hpatch
    · obtain rfl := List.mem_singleton.mp hpatch
      rw [Patch.Inside, Patch.stop, length_words, hfollows.offset_eq, hfollows.length_eq, hcount]
      exact ⟨hinside, hroom⟩
    · cases hpatch
  have hchain : set.patches.IsChain Patch.Before := by
    rw [hpatches]
    split <;> simp
  obtain ⟨bytes, hbytes⟩ :=
    PatchSet.exists_composes_iff.mpr ⟨hfits, hchain, fun _ _ => Nat.zero_le _⟩
  exact ⟨⟨bytes⟩, PatchSet.compose_eq_ok_iff.mpr (hsorted ▸ hbytes)⟩

/-- What composing the patch of a table leaves: all but the bytes of the table, which then has the
entries that were written. -/
theorem load_of_compose (h : load image name offset count baseId = .ok before)
    (hfollows : Follows before table)
    (hclean : table.dirty = false → table.entries = before.entries) {set : PatchSet}
    {result : Image} (hset : table.patches = .ok set) (hresult : set.compose image = .ok result) :
    (∀ index, index < offset.toNat ∨ offset.toNat + 4 * count.toNat ≤ index →
        result.bytes[index]? = image.bytes[index]?) ∧
      load result name offset count baseId = .ok { table with dirty := false } := by
  obtain ⟨entries, hpointers, rfl⟩ := load_eq_ok_iff.mp h
  obtain ⟨_, _, _, _, hcount, _⟩ := Image.pointers_eq_ok_iff.mp hpointers
  have hcomposed := PatchSet.composed_of_compose hresult
  rw [patches_eq_ok hset, hfollows.offset_eq] at hcomposed
  have hlength : table.entries.length = entries.length := hfollows.length_eq
  have hagain : result.pointers offset count = .ok table.entries := by
    cases hdirty : table.dirty with
    | true =>
        rw [hdirty, if_pos rfl] at hcomposed
        exact Image.pointers_of_standsIn hpointers hcomposed.size hlength
          (hcomposed.stands _ List.mem_cons_self)
    | false =>
        rw [hdirty, if_neg Bool.false_ne_true] at hcomposed
        rw [hclean hdirty]
        exact Image.pointers_of_kept hpointers hcomposed.size fun index _ _ =>
          hcomposed.kept index (by simp)
  refine ⟨fun index houtside => hcomposed.kept index fun patch hpatch => ?_, load_eq_ok_iff.mpr
    ⟨_, hagain, by rw [hfollows.name_eq, hfollows.offset_eq, hfollows.baseId_eq]⟩⟩
  split at hpatch
  · obtain rfl := List.mem_singleton.mp hpatch
    rw [Patch.Covers, Patch.stop, length_words, hlength, hcount]
    dsimp only
    omega
  · cases hpatch

/-- A table that was loaded, changed in any way and written back is loaded again as it was left: its
patch can always be composed, only bytes of the table change, and there is a patch just if some
change gave an entry another value. -/
theorem load_of_updateAll (h : load image name offset count baseId = .ok table)
    (changes : List (UInt32 × UInt32)) :
    ∃ set result, (table.updateAll changes).patches = .ok set ∧ set.compose image = .ok result ∧
      result.size = image.size ∧
      (∀ index, index < offset.toNat ∨ offset.toNat + 4 * count.toNat ≤ index →
        result.bytes[index]? = image.bytes[index]?) ∧
      load result name offset count baseId = .ok { table.updateAll changes with dirty := false } ∧
      (set = .empty ↔ ¬ table.AltersIn changes) := by
  have hfollows := follows_updateAll table changes
  have hstart : table.dirty = false ∧ Width.word.aligned table.offset = true := by
    obtain ⟨entries, hpointers, rfl⟩ := load_eq_ok_iff.mp h
    exact ⟨rfl, (Image.pointers_eq_ok_iff.mp hpointers).1⟩
  have hdirty : (table.updateAll changes).dirty = true ↔ table.AltersIn changes := by
    rw [dirty_updateAll, hstart.1]
    simp
  obtain ⟨set, hset⟩ : ∃ set, (table.updateAll changes).patches = .ok set :=
    exists_patches (hfollows.offset_eq ▸ hstart.2)
  obtain ⟨result, hresult⟩ := exists_compose h hfollows hset
  have hclean : (table.updateAll changes).dirty = false →
      (table.updateAll changes).entries = table.entries :=
    fun hfalse => entries_updateAll (mt hdirty.mpr (by simp [hfalse]))
  obtain ⟨hkept, hagain⟩ := load_of_compose h hfollows hclean hset hresult
  refine ⟨set, result, hset, hresult, (PatchSet.composed_of_compose hresult).size, hkept,
    hagain, ?_⟩
  have hempty : set = .empty ↔ set.patches = [] :=
    ⟨fun heq => heq ▸ rfl, fun heq => by cases set; cases heq; rfl⟩
  rw [hempty, patches_eq_ok hset, ← hdirty]
  cases (table.updateAll changes).dirty <;> simp

/-- An entry that is given another value and then its first one again, with a change between them
that names no entry: the table is written back, and the image is what it was. -/
theorem load_of_updateAll_restored :
    ∃ table set result,
      load ⟨[9, 9, 9, 9, 0x10, 0, 0, 8, 0x20, 0, 0, 8, 9]⟩ "map" 4 2 0xfffffffe = .ok table ∧
      (table.updateAll [(0xffffffff, 7), (0, 1), (0xffffffff, 0x8000020)]).patches = .ok set ∧
      set.compose ⟨[9, 9, 9, 9, 0x10, 0, 0, 8, 0x20, 0, 0, 8, 9]⟩ = .ok result ∧
      load result "map" 4 2 0xfffffffe = .ok ⟨"map", 4, 0xfffffffe, [0x8000010, 0x8000020], false⟩ ∧
      set ≠ .empty := by
  have hload : load ⟨[9, 9, 9, 9, 0x10, 0, 0, 8, 0x20, 0, 0, 8, 9]⟩ "map" 4 2 0xfffffffe =
      .ok ⟨"map", 4, 0xfffffffe, [0x8000010, 0x8000020], false⟩ := by
    decide +kernel
  have halters : AltersIn ⟨"map", 4, 0xfffffffe, [0x8000010, 0x8000020], false⟩
      [(0xffffffff, 7), (0, 1), (0xffffffff, 0x8000020)] := by
    refine ⟨[], _, _, rfl, ?_⟩
    unfold Alters
    decide +kernel
  obtain ⟨set, result, hset, hresult, _, _, hagain, hempty⟩ :=
    load_of_updateAll hload [(0xffffffff, 7), (0, 1), (0xffffffff, 0x8000020)]
  exact ⟨_, set, result, hload, hset, hresult, hagain, fun heq => hempty.mp heq halters⟩

end PointerTable

end EventScript
