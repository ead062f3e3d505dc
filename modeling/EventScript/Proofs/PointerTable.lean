import Mathlib.Algebra.Ring.Nat
import EventScript.PointerTable
import EventScript.Proofs.Compose

/-!
# Pointer tables in an image

`pointers_eq_ok_iff` says what it takes to read a table from an image: it has to be aligned and
inside, and the words of its entries have to stand there. A table that is written back as a patch is
therefore read back with its new entries (`pointers_of_standsIn`), and one whose bytes are kept with
its old ones (`pointers_of_kept`). `Rewrites` relates a table to what it was when it was loaded;
giving an entry another value keeps it, if that entry still had its first value (`Rewrites.set`).
-/

namespace EventScript

/-- The bytes of words, in order. -/
def words (values : List UInt32) : Bytes :=
  values.flatMap fun value => LittleEndian.encode 4 value.toNat

@[simp] theorem length_words (values : List UInt32) :
    (words values).length = 4 * values.length := by
  induction values with
  | nil => rfl
  | cons value rest ih =>
      simp only [words, List.flatMap_cons, List.length_append, LittleEndian.length_encode,
        List.length_cons]
      rw [words] at ih
      omega

namespace Image

/-- The word that the bytes of a word stand for. -/
theorem decode_encode_word (value : UInt32) :
    UInt32.ofNat (LittleEndian.decode (LittleEndian.encode 4 value.toNat)) = value := by
  rw [LittleEndian.decode_encode 4 value.toNat value.toNat_lt, UInt32.ofNat_toNat]

/-- A position that four divides is one for a word. -/
theorem aligned_ofNat {position : Nat} (h : position % 4 = 0) :
    Width.word.aligned (UInt32.ofNat position) = true := by
  simp only [Width.aligned, Width.size, UInt32.toNat_ofNat', beq_iff_eq]
  omega

/-- A word is read at a position that four divides if there are four bytes. -/
theorem read_word {data : Bytes} {position : Nat} (h : position % 4 = 0) :
    (⟨data, position, true⟩ : Reader).read .word =
      if data.length < position + 4 then .error (.endOfStream position data.length)
      else .ok (UInt32.ofNat (LittleEndian.decode ((data.drop position).take 4)),
        ⟨data, position + 4, true⟩) := by
  simp only [Reader.read, aligned_ofNat h, Reader.take, Reader.size, Width.size]
  by_cases hshort : data.length < position + 4 <;> simp [hshort]

/-- Words are read if their bytes stand at the position. -/
theorem readWords_eq_ok_iff {data : Bytes} {position count : Nat} {values : List UInt32}
    (h : position % 4 = 0) :
    readWords ⟨data, position, true⟩ count = .ok values ↔
      values.length = count ∧ (data.drop position).take (4 * count) = words values := by
  induction count generalizing position values with
  | zero =>
      cases values <;> simp [readWords, words]
  | succ count ih =>
      have hnext : (position + 4) % 4 = 0 := by omega
      have hsplit : (data.drop position).take (4 * (count + 1)) =
          (data.drop position).take 4 ++ (data.drop (position + 4)).take (4 * count) := by
        rw [show 4 * (count + 1) = 4 + 4 * count by omega, List.take_add, List.drop_drop]
      simp only [readWords, read_word h]
      by_cases hshort : data.length < position + 4
      · -- Too few bytes are left for the words, so they cannot stand there either.
        rw [if_pos hshort]
        simp only [reduceCtorEq, false_iff, not_and]
        intro hlength hwords
        have := congrArg List.length hwords
        rw [length_words, List.length_take, List.length_drop] at this
        omega
      · have hfour : ((data.drop position).take 4).length = 4 := by
          rw [List.length_take, List.length_drop]
          omega
        rw [if_neg hshort, hsplit]
        constructor
        · intro hread
          simp only at hread
          split at hread
          · cases hread
          · rename_i rest hrest
            cases hread
            obtain ⟨hlength, hwords⟩ := (ih hnext).mp hrest
            refine ⟨by rw [List.length_cons, hlength], ?_⟩
            have hword := LittleEndian.encode_ofNat_decode (Nat.le_of_eq hfour)
            rw [hfour] at hword
            rw [hwords, words, words, List.flatMap_cons, hword]
        · rintro ⟨hlength, hwords⟩
          cases values with
          | nil => simp at hlength
          | cons value rest =>
              rw [words, List.flatMap_cons] at hwords
              obtain ⟨hvalue, hrest⟩ :=
                List.append_inj hwords (by rw [hfour, LittleEndian.length_encode])
              have hread := (ih hnext).mpr ⟨Nat.succ.inj hlength, hrest⟩
              simp only [hread, hvalue, decode_encode_word]

variable {image result : Image} {offset : UInt32} {count : UInt64} {entries : List UInt32}

/-- A stretch is opened if it is inside. -/
theorem openAt_eq_ok_iff {size : Nat} {reader : Reader} :
    image.openAt offset (some size) = .ok reader ↔
      offset.toNat < image.size ∧ offset.toNat + size ≤ image.size ∧
        reader = .ofBytes ((image.bytes.drop offset.toNat).take size) := by
  unfold openAt stop?
  by_cases hinside : image.size ≤ offset.toNat
  · simp [hinside, Nat.not_lt_of_le hinside]
  · by_cases hroom : offset.toNat + size ≤ image.size
    · simp [hinside, Nat.lt_of_not_le hinside, hroom, eq_comm]
    · simp [hinside, hroom]

/-- A table is read if it is aligned, of a size that can be written and inside, and the words of its
entries stand at its offset. -/
theorem pointers_eq_ok_iff :
    image.pointers offset count = .ok entries ↔
      Width.word.aligned offset = true ∧ 4 * count.toNat < 2 ^ 64 ∧ offset.toNat < image.size ∧
        offset.toNat + 4 * count.toNat ≤ image.size ∧ entries.length = count.toNat ∧
        (image.bytes.drop offset.toNat).take (4 * count.toNat) = words entries := by
  have hread : ∀ data : Bytes, readWords (.ofBytes data) count.toNat = .ok entries ↔
      entries.length = count.toNat ∧ (data.drop 0).take (4 * count.toNat) = words entries :=
    fun data => readWords_eq_ok_iff rfl
  unfold pointers
  constructor
  · intro h
    split at h
    · cases h
    · rename_i haligned
      split at h
      · cases h
      · rename_i hsize
        split at h
        · cases h
        · rename_i reader hreader
          obtain ⟨hinside, hroom, rfl⟩ := openAt_eq_ok_iff.mp hreader
          cases hvalues : readWords (.ofBytes ((image.bytes.drop offset.toNat).take
              (4 * count.toNat))) count.toNat with
          | error fault =>
              rw [hvalues] at h
              cases h
          | ok values =>
              rw [hvalues] at h
              cases h
              obtain ⟨hlength, hwords⟩ := (hread _).mp hvalues
              rw [List.drop_zero, List.take_take, Nat.min_self] at hwords
              rw [Bool.not_eq_true', Bool.not_eq_false] at haligned
              exact ⟨haligned, Nat.lt_of_not_le hsize, hinside, hroom, hlength, hwords⟩
  · rintro ⟨haligned, hsize, hinside, hroom, hlength, hwords⟩
    have hvalues := (hread ((image.bytes.drop offset.toNat).take (4 * count.toNat))).mpr
      ⟨hlength, by rw [List.drop_zero, List.take_take, Nat.min_self, hwords]⟩
    have hoverflow : ¬ UInt64.size ≤ 4 * count.toNat := Nat.not_le.mpr hsize
    rw [haligned, Bool.not_true, if_neg Bool.false_ne_true, if_neg hoverflow,
      openAt_eq_ok_iff.mpr ⟨hinside, hroom, rfl⟩]
    simp only [hvalues]
    rfl

/-- A table is read back after the words of its new entries were written in its place. -/
theorem pointers_of_standsIn {before : List UInt32} {producer : String}
    (hbefore : image.pointers offset count = .ok before)
    (hsize : result.size = image.size) (hlength : entries.length = before.length)
    (hstands : Patch.StandsIn result.bytes ⟨offset, words entries, producer⟩) :
    result.pointers offset count = .ok entries := by
  obtain ⟨haligned, hcount, hinside, hroom, hold, _⟩ := pointers_eq_ok_iff.mp hbefore
  rw [Patch.StandsIn, length_words, hlength, hold] at hstands
  rw [← hsize] at hinside hroom
  exact pointers_eq_ok_iff.mpr
    ⟨haligned, hcount, hinside, hroom, hlength.trans hold, hstands⟩

/-- A table is read as before from an image that has the same bytes in its place. -/
theorem pointers_of_kept (h : image.pointers offset count = .ok entries)
    (hsize : result.size = image.size)
    (hkept : ∀ index, offset.toNat ≤ index → index < offset.toNat + 4 * count.toNat →
      result.bytes[index]? = image.bytes[index]?) :
    result.pointers offset count = .ok entries := by
  obtain ⟨haligned, hcount, hinside, hroom, hlength, hwords⟩ := pointers_eq_ok_iff.mp h
  have hsame : (result.bytes.drop offset.toNat).take (4 * count.toNat) =
      (image.bytes.drop offset.toNat).take (4 * count.toNat) := by
    apply List.ext_getElem?
    intro index
    rw [List.getElem?_take, List.getElem?_take]
    split
    · rename_i hindex
      rw [List.getElem?_drop, List.getElem?_drop, hkept _ (Nat.le_add_right ..)]
      omega
    · rfl
  rw [← hsize] at hinside hroom
  exact pointers_eq_ok_iff.mpr
    ⟨haligned, hcount, hinside, hroom, hlength, hsame.trans hwords⟩

end Image

namespace PointerTable

/-- Words are written one after the other. -/
theorem putWords_eq_ok {writer final : Writer} {values : List UInt32}
    (h : putWords writer values = .ok final) : final = writer.putBytes (words values) := by
  induction values generalizing writer with
  | nil =>
      cases h
      simp [words, Writer.putBytes]
  | cons value rest ih =>
      simp only [putWords] at h
      split at h
      · cases h
      · rename_i next hnext
        unfold Writer.put at hnext
        split at hnext
        · cases hnext
          rw [ih h]
          simp [Writer.putBytes, words, Width.size]
        · cases hnext

/-- A table is loaded if its entries can be read. -/
theorem load_eq_ok_iff {image : Image} {name : String} {offset baseId : UInt32} {count : UInt64}
    {table : PointerTable} :
    load image name offset count baseId = .ok table ↔
      ∃ entries, image.pointers offset count = .ok entries ∧
        table = ⟨name, offset, baseId, entries, false⟩ := by
  unfold load
  cases image.pointers offset count <;> simp [eq_comm]

/-- A changed table is written as one patch, and others are not written. -/
theorem patches_eq_ok {table : PointerTable} {set : PatchSet} (h : table.patches = .ok set) :
    set.patches =
      if table.dirty then [⟨table.offset, words table.entries, table.name⟩] else [] := by
  unfold patches at h
  split at h
  · rename_i hdirty
    split at h
    · cases h
    · rename_i writer hwriter
      cases h
      rw [if_pos hdirty, putWords_eq_ok hwriter]
      rfl
  · rename_i hclean
    cases h
    rw [if_neg hclean]
    rfl

variable {table before after : PointerTable} {id address : UInt32}

/-- The ids of a table count its entries. -/
theorem index?_eq_some_iff {index : Nat} :
    table.index? id = some index ↔
      table.baseId ≤ id ∧ (id - table.baseId).toNat = index ∧ index < table.entries.length := by
  unfold index?
  by_cases hbase : table.baseId ≤ id
  · by_cases hlt : (id - table.baseId).toNat < table.entries.length
    · simp only [hbase, hlt, and_self, if_true, Option.some.injEq, true_and]
      exact ⟨fun h => ⟨h, h ▸ hlt⟩, fun h => h.1⟩
    · simp only [hbase, hlt, and_false, if_false, reduceCtorEq, true_and, false_iff, not_and]
      rintro rfl
      exact hlt
  · simp [hbase]

/-- Different ids have different entries. -/
theorem index?_injective {other : UInt32} {index : Nat} (h : table.index? id = some index)
    (hother : table.index? other = some index) : id = other := by
  obtain ⟨hbase, hindex, _⟩ := index?_eq_some_iff.mp h
  obtain ⟨hotherBase, hotherIndex, _⟩ := index?_eq_some_iff.mp hother
  rw [UInt32.toNat_sub_of_le _ _ hbase] at hindex
  rw [UInt32.toNat_sub_of_le _ _ hotherBase] at hotherIndex
  rw [UInt32.le_iff_toNat_le] at hbase hotherBase
  apply UInt32.toNat_inj.mp
  omega

/-- The entry of an id. -/
theorem get_eq_ok_iff :
    table.get id = .ok address ↔
      ∃ index, table.index? id = some index ∧ table.entries[index]? = some address := by
  unfold get
  cases hindex : table.index? id with
  | none => simp
  | some index =>
      have hlt := (index?_eq_some_iff.mp hindex).2.2
      simp [List.getElem?_eq_getElem hlt, List.getD_eq_getElem?_getD]

/-- Giving an entry a value changes this entry only, and marks the table if the value is another
one. -/
theorem set_eq_ok (h : table.set id address = .ok after) :
    ∃ index, table.index? id = some index ∧ after.entries = table.entries.set index address ∧
      (after.dirty = true ↔ table.dirty = true ∨ table.entries[index]? ≠ some address) ∧
      after.name = table.name ∧ after.offset = table.offset ∧ after.baseId = table.baseId := by
  unfold set at h
  split at h
  · cases h
  · rename_i index hindex
    have hlt := (index?_eq_some_iff.mp hindex).2.2
    have hget : table.entries.getD index 0 = table.entries[index] := by
      simp [List.getD_eq_getElem?_getD, List.getElem?_eq_getElem hlt]
    rw [hget] at h
    refine ⟨index, hindex, ?_⟩
    rw [List.getElem?_eq_getElem hlt]
    split at h
    · rename_i hsame
      cases h
      refine ⟨?_, by simp [hsame], rfl, rfl, rfl⟩
      rw [← hsame, List.set_getElem_self]
    · rename_i hother
      cases h
      exact ⟨rfl, by simp [hother], rfl, rfl, rfl⟩

/-- What a table shows after an entry was given a value. -/
theorem get_of_set (h : table.set id address = .ok after) (other : UInt32) :
    after.get other = if other = id then .ok address else table.get other := by
  obtain ⟨index, hindex, hentries, _, hname, _, hbase⟩ := set_eq_ok h
  have hlength : after.entries.length = table.entries.length := by rw [hentries, List.length_set]
  have hindices : ∀ other, after.index? other = table.index? other := by
    intro other
    simp only [index?, hlength, hbase]
  by_cases hother : other = id
  · subst hother
    have hlt := (index?_eq_some_iff.mp hindex).2.2
    rw [if_pos rfl, get_eq_ok_iff]
    refine ⟨index, by rw [hindices, hindex], ?_⟩
    rw [hentries, List.getElem?_set_self hlt]
  · rw [if_neg hother]
    simp only [get, hindices]
    cases hotherIndex : table.index? other with
    | none => simp only [unknownId, stopId, hname, hbase, hlength]
    | some otherIndex =>
        have hne : index ≠ otherIndex := by
          rintro rfl
          exact hother (index?_injective hotherIndex hindex)
        simp only [hentries, List.getD_eq_getElem?_getD, List.getElem?_set_ne hne]

/-- What becomes of a table: it stays where it is, and is marked if an entry has another value. -/
structure Rewrites (before after : PointerTable) : Prop where
  name_eq : after.name = before.name
  offset_eq : after.offset = before.offset
  baseId_eq : after.baseId = before.baseId
  length_eq : after.entries.length = before.entries.length
  changed : after.dirty = true ↔ after.entries ≠ before.entries

/-- A table that is not marked is not rewritten. -/
theorem rewrites_self (h : table.dirty = false) : Rewrites table table :=
  ⟨rfl, rfl, rfl, rfl, by simp [h]⟩

/-- Giving an entry that still has its first value another one rewrites the table. -/
theorem Rewrites.set (h : Rewrites before table) (hkept : table.get id = before.get id)
    (hset : table.set id address = .ok after) : Rewrites before after := by
  obtain ⟨index, hindex, hentries, hdirty, hname, hoffset, hbase⟩ := set_eq_ok hset
  refine ⟨hname.trans h.name_eq, hoffset.trans h.offset_eq, hbase.trans h.baseId_eq,
    by rw [hentries, List.length_set, h.length_eq], ?_⟩
  have hlt := (index?_eq_some_iff.mp hindex).2.2
  have hfirst : before.entries[index]? = table.entries[index]? := by
    obtain ⟨value, hvalue⟩ : ∃ value, table.entries[index]? = some value :=
      ⟨_, List.getElem?_eq_getElem hlt⟩
    have hget := get_eq_ok_iff.mpr ⟨index, hindex, hvalue⟩
    rw [hkept] at hget
    obtain ⟨other, hother, hotherValue⟩ := get_eq_ok_iff.mp hget
    have hsame : before.index? id = table.index? id := by
      simp only [index?, h.length_eq, h.baseId_eq]
    rw [hsame, hindex] at hother
    cases hother
    rw [hotherValue, hvalue]
  have hsame : table.entries[index]? = some address →
      table.entries.set index address = table.entries := by
    intro hvalue
    rw [List.getElem?_eq_getElem hlt, Option.some.injEq] at hvalue
    rw [← hvalue, List.set_getElem_self]
  rw [hdirty, h.changed, hentries]
  constructor
  · -- If the new entries are the first ones, then so was the one that was set, and nothing changed.
    intro hchanged heq
    have hvalue : table.entries[index]? = some address := by
      rw [← hfirst, ← heq, List.getElem?_set_self hlt]
    rcases hchanged with hother | hother
    · exact hother ((hsame hvalue).symm.trans heq)
    · exact hother hvalue
  · intro hchanged
    by_cases hvalue : table.entries[index]? = some address
    · rw [hsame hvalue] at hchanged
      exact .inl hchanged
    · exact .inr hvalue

end PointerTable

end EventScript
