import EventScript.Proofs.Ips
import EventScript.Proofs.PatchOrder

/-!
# Applying IPS files

A simple way to apply an IPS file is to go through its records and to write the bytes of each over
the image (`writeRecords`). Composing patches sorts them and copies the image once. Both give the
same: whatever patches give when they are composed, writing them one after the other gives it too,
in every order (`Composed.foldl_writeTo`). Reading a file only changes the order of its records, so
`compose_eq_writeRecords` follows.
-/

namespace EventScript

namespace Bytes

/-- Write bytes over others from an offset on. The length stays; what does not fit is lost. -/
def overwrite (image : Bytes) (offset : Nat) : Bytes → Bytes
  | [] => image
  | byte :: rest => overwrite (image.set offset byte) (offset + 1) rest

variable {image bytes : Bytes} {offset index : Nat}

@[simp] theorem length_overwrite (image : Bytes) (offset : Nat) (bytes : Bytes) :
    (overwrite image offset bytes).length = image.length := by
  induction bytes generalizing image offset with
  | nil => rfl
  | cons byte rest ih => rw [overwrite, ih, List.length_set]

/-- A byte outside of what is written is kept. -/
theorem getElem?_overwrite_outside (h : index < offset ∨ offset + bytes.length ≤ index) :
    (overwrite image offset bytes)[index]? = image[index]? := by
  induction bytes generalizing image offset with
  | nil => rfl
  | cons byte rest ih =>
      rw [List.length_cons] at h
      rw [overwrite, ih (by omega), List.getElem?_set_ne (by omega)]

/-- A byte is written if the image is large enough. -/
theorem getElem?_overwrite_inside (hstart : offset ≤ index) (hstop : index < offset + bytes.length)
    (hsize : index < image.length) :
    (overwrite image offset bytes)[index]? = bytes[index - offset]? := by
  induction bytes generalizing image offset with
  | nil =>
      rw [List.length_nil] at hstop
      omega
  | cons byte rest ih =>
      rw [List.length_cons] at hstop
      rw [overwrite]
      by_cases hfirst : index = offset
      · subst hfirst
        rw [getElem?_overwrite_outside (by omega), List.getElem?_set_self hsize, Nat.sub_self,
          List.getElem?_cons_zero]
      · obtain ⟨later, hlater⟩ : ∃ later, index - offset = later + 1 :=
          ⟨index - offset - 1, by omega⟩
        rw [ih (by omega) (by omega) (by rwa [List.length_set]), hlater, List.getElem?_cons_succ]
        congr 1
        omega

end Bytes

/-- Write a patch over an image. -/
def Patch.writeTo (image : Bytes) (patch : Patch) : Bytes :=
  image.overwrite patch.offset.toNat patch.bytes

/-- If patches give an image, all but the first give it from the image that the first was written
to. -/
theorem PatchSet.Composed.tail {image result : Image} {patch : Patch} {rest : List Patch}
    (h : Composed image (patch :: rest) result) :
    Composed ⟨patch.writeTo image.bytes⟩ rest result := by
  refine ⟨?_, fun other hother => h.stands other (List.mem_cons_of_mem _ hother),
    fun index hfree => ?_⟩
  · rw [h.size, Image.size, Image.size, Patch.writeTo, Bytes.length_overwrite]
  · show result.bytes[index]? = (image.bytes.overwrite patch.offset.toNat patch.bytes)[index]?
    by_cases hcovers : patch.Covers index
    · -- The byte of the patch is in the result, so it is inside the image.
      have hbyte := (h.stands patch List.mem_cons_self).getElem?_eq hcovers
      have hlength : result.bytes.length = image.bytes.length := h.size
      obtain ⟨hstart, hstop⟩ := hcovers
      have hwritten : index - patch.offset.toNat < patch.bytes.length := by
        rw [Patch.stop] at hstop
        omega
      have hsize : index < result.bytes.length := by
        rw [List.getElem?_eq_getElem hwritten] at hbyte
        exact (List.getElem?_eq_some_iff.mp hbyte).1
      rw [hbyte, Bytes.getElem?_overwrite_inside hstart hstop (by omega)]
    · have hkept : result.bytes[index]? = image.bytes[index]? := by
        apply h.kept
        rw [List.forall_mem_cons]
        exact ⟨hcovers, hfree⟩
      have houtside : index < patch.offset.toNat ∨ patch.stop ≤ index := by
        unfold Patch.Covers at hcovers
        omega
      rw [hkept, Bytes.getElem?_overwrite_outside houtside]

/-- Writing patches one after the other gives what composing them gives, in whatever order they are.
-/
theorem PatchSet.Composed.foldl_writeTo {image result : Image} {patches : List Patch}
    (h : Composed image patches result) :
    patches.foldl Patch.writeTo image.bytes = result.bytes := by
  induction patches generalizing image with
  | nil => exact List.ext_getElem? fun index => (h.kept index (by simp)).symm
  | cons patch rest ih => exact ih h.tail

namespace IpsFile

/-- Write a record over an image. -/
def Record.writeTo (image : Bytes) (record : Record) : Bytes :=
  image.overwrite record.offset.toNat record.body.written

/-- Write records over an image, one after the other. -/
def writeRecords (image : Bytes) (records : List Record) : Bytes :=
  records.foldl Record.writeTo image

/-- The patch of a record. -/
def Record.patch (name : String) (record : Record) : Patch :=
  ⟨record.offset, record.body.written, name⟩

variable {sources : List (String × Bytes)} {files : List IpsFile}

/-- The patches of a file are those of its records, in some order. -/
theorem Lists.patches_perm {file : IpsFile} {records : List Record} (h : file.Lists records) :
    file.patches.patches.Perm (records.map (Record.patch file.name)) := by
  have hperm := h.perm.map fun entry : UInt32 × Bytes => (⟨entry.1, entry.2, file.name⟩ : Patch)
  rw [List.map_map] at hperm
  exact hperm

/-- The patches of files can be put in an order in which writing them is writing the records of the
files. -/
theorem exists_perm_patches {records : List (List Record)} (h : List.Forall₂ Lists files records) :
    ∃ patches : List Patch, (files.flatMap fun file => file.patches.patches).Perm patches ∧
      ∀ image, patches.foldl Patch.writeTo image = records.foldl writeRecords image := by
  induction h with
  | nil => exact ⟨[], .nil, fun _ => rfl⟩
  | @cons file list _ _ hlists _ ih =>
      obtain ⟨patches, hperm, hwrites⟩ := ih
      refine ⟨list.map (Record.patch file.name) ++ patches, hlists.patches_perm.append hperm,
        fun image => ?_⟩
      rw [List.foldl_append, List.foldl_map, hwrites]
      rfl

/-- Files that are read hold records, which are listed in what is read. -/
theorem exists_records_of_parse
    (h : List.Forall₂ (fun source file => parse source.1 source.2 = .ok file) sources files) :
    ∃ records, List.Forall₂ (fun source list => Holds source.2 list) sources records ∧
      List.Forall₂ Lists files records := by
  induction h with
  | nil => exact ⟨[], .nil, .nil⟩
  | cons hparse _ ih =>
      obtain ⟨records, hholds, hlists⟩ := ih
      obtain ⟨list, hheld, _, hlisted⟩ := lists_of_parse hparse
      exact ⟨list :: records, .cons hheld hholds, .cons hlisted hlists⟩

/-- Files hold one list of records each. -/
theorem records_unique {one other : List (List Record)}
    (hone : List.Forall₂ (fun source list => Holds source.2 list) sources one)
    (hother : List.Forall₂ (fun source list => Holds source.2 list) sources other) :
    one = other := by
  induction hone generalizing other with
  | nil =>
      cases hother
      rfl
  | cons hholds _ ih =>
      cases hother with
      | cons hsecond hrest => rw [encode_unique hholds.stands hsecond.stands, ih hrest]

/-- Applying IPS files by composing their patches is going through the files and the records that
each of them holds, in order, and writing the bytes of each record over the image. -/
theorem compose_eq_writeRecords {image result : Image}
    (hparse : List.Forall₂ (fun source file => parse source.1 source.2 = .ok file) sources files)
    (hcompose :
      (files.foldl (fun set file => set.append file.patches) PatchSet.empty).compose image =
      .ok result) :
    ∃ records : List (List Record),
      (∀ others, List.Forall₂ (fun source list => Holds source.2 list) sources others ↔
        others = records) ∧
      result.bytes = records.foldl writeRecords image.bytes := by
  obtain ⟨records, hholds, hlists⟩ := exists_records_of_parse hparse
  refine ⟨records, fun others => ⟨fun hothers => records_unique hothers hholds, ?_⟩, ?_⟩
  · rintro rfl
    exact hholds
  · obtain ⟨patches, hperm, hwrites⟩ := exists_perm_patches hlists
    have hcomposed := PatchSet.composed_of_compose hcompose
    rw [patches_appendFiles] at hcomposed
    rw [← hwrites, (hcomposed.perm hperm).foldl_writeTo]

/-- Two files, in the first of which a run stands in front of a record with a smaller offset. -/
theorem compose_eq_writeRecords_twoFiles :
    ∃ records : List (List Record),
      List.Forall₂ (fun (source : String × Bytes) list => Holds source.2 list)
        [("a", [0x50, 0x41, 0x54, 0x43, 0x48, 0, 0, 2, 0, 0, 0, 2, 9, 0, 0, 0, 0, 1, 7, 0x45,
          0x4f, 0x46, 1]),
          ("b", [0x50, 0x41, 0x54, 0x43, 0x48, 0, 0, 4, 0, 1, 5, 0x45, 0x4f, 0x46])] records ∧
      records.foldl writeRecords [0, 1, 2, 3, 4, 5] = [7, 1, 9, 9, 5, 5] := by
  have hparse :
      List.Forall₂ (fun (source : String × Bytes) file => parse source.1 source.2 = .ok file)
      [("a", [0x50, 0x41, 0x54, 0x43, 0x48, 0, 0, 2, 0, 0, 0, 2, 9, 0, 0, 0, 0, 1, 7, 0x45,
        0x4f, 0x46, 1]),
        ("b", [0x50, 0x41, 0x54, 0x43, 0x48, 0, 0, 4, 0, 1, 5, 0x45, 0x4f, 0x46])]
      [⟨"a", ⟨[(0, [7]), (2, [9, 9])]⟩⟩, ⟨"b", ⟨[(4, [5])]⟩⟩] :=
    .cons (by decide +kernel) (.cons (by decide +kernel) .nil)
  have hsorted : PatchSet.sorted ⟨[⟨0, [7], "a"⟩, ⟨2, [9, 9], "a"⟩, ⟨4, [5], "b"⟩]⟩ =
      [⟨0, [7], "a"⟩, ⟨2, [9, 9], "a"⟩, ⟨4, [5], "b"⟩] := by
    simp [PatchSet.sorted, List.mergeSort]
  have hcompose :
      PatchSet.compose ⟨[⟨0, [7], "a"⟩, ⟨2, [9, 9], "a"⟩, ⟨4, [5], "b"⟩]⟩ ⟨[0, 1, 2, 3, 4, 5]⟩ =
      .ok ⟨[7, 1, 9, 9, 5, 5]⟩ := by
    rw [PatchSet.compose, hsorted]
    decide +kernel
  obtain ⟨records, hrecords, hbytes⟩ := compose_eq_writeRecords hparse hcompose
  exact ⟨records, (hrecords records).mpr rfl, hbytes.symm⟩

end IpsFile

end EventScript
