import EventScript.Ips
import EventScript.Proofs.Dictionary

/-!
# The format of IPS files

A `Record` is a record of an IPS file as it is written: an offset and a `Body`, which is bytes or a
run of one byte. Only what the format can hold is a record. `encode` writes records as a file, and
`parse_outcome` says that reading is the other direction: exactly the files that records were
written to, whose offsets are different, can be read, the records are determined by the file, and
what is read has their bytes by offset.

Each part of the reader is described by what it takes off the front (`part_eq_ok_iff`,
`contents_encode`, `exists_body_of_contents`). One step of the loop reads the end mark or a record
(`readRecords_eq_ok_iff_step`), hence the loop reads records up to the end mark
(`readRecords_eq_ok_iff`). No record is the beginning of another one (`Record.encode_append_inj`),
so there is only one way to cut a file (`encodeRecords_append_inj`).
-/

namespace EventScript

namespace BigEndian

/-- The `count` lowest bytes of a number, most significant first. -/
def encode (count value : Nat) : Bytes :=
  (LittleEndian.encode count value).reverse

@[simp] theorem length_encode (count value : Nat) : (encode count value).length = count := by
  simp [encode]

/-- Reading with the most significant byte first is reading backwards. -/
theorem decode_eq_decode_reverse (bytes : Bytes) :
    decode bytes = LittleEndian.decode bytes.reverse := by
  have hreverse : ∀ backwards : Bytes,
      decode backwards.reverse = LittleEndian.decode backwards := by
    intro backwards
    rw [decode, List.foldl_reverse]
    induction backwards with
    | nil => rfl
    | cons last front ih => rw [List.foldr_cons, ih, LittleEndian.decode, Nat.add_comm]
  rw [← hreverse, List.reverse_reverse]

/-- Bytes of a number that fits into them read back as that number. -/
theorem decode_encode {count value : Nat} (h : value < LittleEndian.limit count) :
    decode (encode count value) = value := by
  rw [decode_eq_decode_reverse, encode, List.reverse_reverse,
    LittleEndian.decode_encode count value h]

/-- A byte string is the encoding of the number it stands for. -/
theorem eq_encode_decode {bytes : Bytes} {count : Nat} (h : bytes.length = count) :
    bytes = encode count (decode bytes) := by
  have hreverse := LittleEndian.encode_decode bytes.reverse
  rw [List.length_reverse, h] at hreverse
  rw [encode, decode_eq_decode_reverse, hreverse, List.reverse_reverse]

/-- Bytes stand for one of the numbers that can be written as so many. -/
theorem decode_lt {bytes : Bytes} {count : Nat} (h : bytes.length = count) :
    decode bytes < LittleEndian.limit count := by
  have hlt := LittleEndian.decode_lt bytes.reverse
  rwa [List.length_reverse, h, ← decode_eq_decode_reverse] at hlt

/-- Numbers that fit are known by their bytes, whatever follows. -/
theorem encode_append_inj {count one other : Nat} {rest more : Bytes}
    (hone : one < LittleEndian.limit count) (hother : other < LittleEndian.limit count)
    (h : encode count one ++ rest = encode count other ++ more) : one = other ∧ rest = more := by
  obtain ⟨hencode, hrest⟩ := List.append_inj h (by rw [length_encode, length_encode])
  refine ⟨?_, hrest⟩
  rw [← decode_encode hone, hencode, decode_encode hother]

end BigEndian

namespace IpsFile

/-- What follows the offset of a record. -/
inductive Body where
  /-- Bytes to be written, at least one and no more than two bytes can count. -/
  | plain (bytes : Bytes) (nonempty : bytes ≠ []) (short : bytes.length < 0x10000)
  /-- A byte to be written `count` times. -/
  | run (count : UInt16) (fill : UInt8)

/-- The body as it stands in a file. -/
def Body.encode : Body → Bytes
  | .plain bytes _ _ => BigEndian.encode 2 bytes.length ++ bytes
  | .run count fill => BigEndian.encode 2 0 ++ (BigEndian.encode 2 count.toNat ++ [fill])

/-- The bytes that the body asks to be written. -/
def Body.written : Body → Bytes
  | .plain bytes _ _ => bytes
  | .run count fill => List.replicate count.toNat fill

/-- A record of a file. -/
structure Record where
  offset : UInt32
  body : Body
  /-- The offset has three bytes. -/
  offset_lt : offset.toNat < 0x1000000
  /-- The bytes of the offset are not the end mark. -/
  offset_ne : offset.toNat ≠ 0x454f46

namespace Record

/-- The record as it stands in a file. -/
def encode (record : Record) : Bytes :=
  BigEndian.encode 3 record.offset.toNat ++ record.body.encode

/-- The offset with the bytes to be written there. -/
def entry (record : Record) : UInt32 × Bytes :=
  (record.offset, record.body.written)

end Record

/-- Records as they stand in a file, with the end mark. -/
def encodeRecords : List Record → Bytes
  | [] => endMark
  | record :: rest => record.encode ++ encodeRecords rest

/-- A file of records. -/
def encode (records : List Record) : Bytes :=
  magic ++ encodeRecords records

/-- The records stand in the bytes from the start on up to an end mark, and no two have the same
offset. -/
structure Holds (bytes : Bytes) (records : List Record) : Prop where
  stands : encode records <+: bytes
  distinct : (records.map Record.offset).Nodup

/-- The file has the bytes of each record at its offset, nothing else, and in the order of the
offsets. -/
structure Lists (file : IpsFile) (records : List Record) : Prop where
  maps : ∀ offset bytes, file.records.get? offset = some bytes ↔
    ∃ record ∈ records, record.offset = offset ∧ record.body.written = bytes
  perm : file.records.entries.Perm (records.map Record.entry)
  ordered : file.records.Ordered

variable {name : String} {bytes rest taken written : Bytes} {count total : Nat}

/-- The end mark is the offset that no record has. -/
theorem endMark_eq : endMark = BigEndian.encode 3 0x454f46 := by
  decide

/-- A part is taken off the front. -/
theorem part_eq_ok_iff :
    part count bytes = .ok (taken, rest) ↔ bytes = taken ++ rest ∧ taken.length = count := by
  simp only [part]
  constructor
  · intro h
    split at h
    · cases h
    · rename_i henough
      cases h
      refine ⟨(List.take_append_drop count bytes).symm, ?_⟩
      rw [List.length_take] at henough ⊢
      omega
  · rintro ⟨rfl, rfl⟩
    simp

/-- A part that is there is taken off the front. -/
theorem part_append (h : taken.length = count) (rest : Bytes) :
    part count (taken ++ rest) = .ok (taken, rest) :=
  part_eq_ok_iff.mpr ⟨rfl, h⟩

/-- The body of a record is taken off the front. -/
theorem contents_encode (body : Body) (rest : Bytes) :
    contents (body.encode ++ rest) = .ok (body.written, rest) := by
  cases body with
  | plain bytes hnonempty hshort =>
      have hdecode : BigEndian.decode (BigEndian.encode 2 bytes.length) = bytes.length :=
        BigEndian.decode_encode hshort
      have hpositive : bytes.length ≠ 0 := by
        rwa [Ne, List.length_eq_zero_iff]
      simp only [contents, Body.encode, Body.written, List.append_assoc]
      rw [part_append (BigEndian.length_encode ..)]
      simp only [hdecode, hpositive, if_false, part_append rfl]
  | run count fill =>
      have hzero : BigEndian.decode (BigEndian.encode 2 0) = 0 :=
        BigEndian.decode_encode (by decide)
      have hdecode : BigEndian.decode (BigEndian.encode 2 count.toNat) = count.toNat :=
        BigEndian.decode_encode count.toNat_lt
      simp only [contents, Body.encode, Body.written, List.append_assoc]
      rw [part_append (BigEndian.length_encode ..)]
      simp only [hzero, if_true, part_append (BigEndian.length_encode 2 count.toNat), hdecode,
        List.singleton_append]

/-- Two bytes of zero, two bytes that count and a byte are a run. -/
theorem exists_run {length times : Bytes} (hlength : length.length = 2)
    (hzero : BigEndian.decode length = 0) (htimes : times.length = 2) (fill : UInt8) :
    ∃ body : Body, body.encode = length ++ (times ++ [fill]) ∧
      body.written = List.replicate (BigEndian.decode times) fill := by
  have hlt : BigEndian.decode times < 0x10000 := BigEndian.decode_lt htimes
  have hcount : (UInt16.ofNat (BigEndian.decode times)).toNat = BigEndian.decode times :=
    UInt16.toNat_ofNat_of_lt' hlt
  refine ⟨.run (UInt16.ofNat (BigEndian.decode times)) fill, ?_, ?_⟩
  · rw [Body.encode, hcount, ← BigEndian.eq_encode_decode htimes, ← hzero,
      ← BigEndian.eq_encode_decode hlength]
  · rw [Body.written, hcount]

/-- Two bytes that count and as many bytes are a plain body. -/
theorem exists_plain {length : Bytes} (hlength : length.length = 2)
    (hpositive : BigEndian.decode length ≠ 0) (hsize : written.length = BigEndian.decode length) :
    ∃ body : Body, body.encode = length ++ written ∧ body.written = written := by
  have hshort : written.length < 0x10000 := hsize ▸ BigEndian.decode_lt hlength
  have hnonempty : written ≠ [] := by
    rintro rfl
    exact hpositive hsize.symm
  refine ⟨.plain written hnonempty hshort, ?_, rfl⟩
  rw [Body.encode, hsize, ← BigEndian.eq_encode_decode hlength]

/-- What is taken off the front is the body of a record. -/
theorem exists_body_of_contents (h : contents bytes = .ok (written, rest)) :
    ∃ body : Body, bytes = body.encode ++ rest ∧ body.written = written := by
  unfold contents at h
  split at h
  · cases h
  · rename_i length after hpart
    obtain ⟨rfl, hlength⟩ := part_eq_ok_iff.mp hpart
    split at h
    · rename_i hzero
      split at h
      · cases h
      · rename_i times behind hcount
        obtain ⟨rfl, htimes⟩ := part_eq_ok_iff.mp hcount
        split at h
        · cases h
        · rename_i fill tail
          cases h
          obtain ⟨body, hencode, hwritten⟩ := exists_run hlength hzero htimes fill
          refine ⟨body, ?_, hwritten⟩
          simp only [hencode, List.append_assoc, List.singleton_append]
    · rename_i hpositive
      obtain ⟨rfl, hsize⟩ := part_eq_ok_iff.mp h
      obtain ⟨body, hencode, hwritten⟩ := exists_plain hlength hpositive hsize
      refine ⟨body, ?_, hwritten⟩
      rw [hencode, List.append_assoc]

/-- No body is the beginning of another one. -/
theorem Body.encode_append_inj {one other : Body} {rest more : Bytes}
    (h : one.encode ++ rest = other.encode ++ more) : one = other ∧ rest = more := by
  cases one with
  | plain bytes hnonempty hshort =>
      cases other with
      | plain others _ hothers =>
          simp only [Body.encode, List.append_assoc] at h
          obtain ⟨hlength, htail⟩ := BigEndian.encode_append_inj hshort hothers h
          obtain ⟨rfl, rfl⟩ := List.append_inj htail hlength
          exact ⟨rfl, rfl⟩
      | run count fill =>
          simp only [Body.encode, List.append_assoc] at h
          obtain ⟨hlength, _⟩ := BigEndian.encode_append_inj hshort (by decide) h
          exact absurd (List.length_eq_zero_iff.mp hlength) hnonempty
  | run count fill =>
      cases other with
      | plain others hnonempty hothers =>
          simp only [Body.encode, List.append_assoc] at h
          obtain ⟨hlength, _⟩ := BigEndian.encode_append_inj (by decide) hothers h
          exact absurd (List.length_eq_zero_iff.mp hlength.symm) hnonempty
      | run times byte =>
          simp only [Body.encode, List.append_assoc] at h
          obtain ⟨hcount, htail⟩ := BigEndian.encode_append_inj count.toNat_lt times.toNat_lt
            (List.append_cancel_left h)
          simp only [List.singleton_append, List.cons.injEq] at htail
          rw [UInt16.toNat_inj.mp hcount, htail.1]
          exact ⟨rfl, htail.2⟩

/-- No record is the beginning of another one. -/
theorem Record.encode_append_inj {one other : Record} {rest more : Bytes}
    (h : one.encode ++ rest = other.encode ++ more) : one = other ∧ rest = more := by
  obtain ⟨offset, body, hlt, hne⟩ := one
  obtain ⟨place, load, hplace, _⟩ := other
  simp only [Record.encode, List.append_assoc] at h
  obtain ⟨hoffset, htail⟩ := BigEndian.encode_append_inj hlt hplace h
  obtain ⟨rfl, rfl⟩ := Body.encode_append_inj htail
  obtain rfl := UInt32.toNat_inj.mp hoffset
  exact ⟨rfl, rfl⟩

/-- The bytes of an offset are not the end mark. -/
theorem Record.encode_ne_endMark (record : Record) :
    BigEndian.encode 3 record.offset.toNat ≠ endMark := by
  intro h
  rw [endMark_eq] at h
  exact record.offset_ne (BigEndian.encode_append_inj record.offset_lt (by decide)
    (congrArg (· ++ []) h)).1

/-- No record begins with the end mark. -/
theorem Record.encode_append_ne (record : Record) (rest more : Bytes) :
    record.encode ++ rest ≠ endMark ++ more := by
  intro h
  rw [Record.encode, List.append_assoc] at h
  exact record.encode_ne_endMark (List.append_inj_left h (BigEndian.length_encode ..))

/-- Bytes can be cut into records up to an end mark in one way. -/
theorem encodeRecords_append_inj {one other : List Record} {rest more : Bytes}
    (h : encodeRecords one ++ rest = encodeRecords other ++ more) : one = other ∧ rest = more := by
  induction one generalizing other with
  | nil =>
      cases other with
      | nil => exact ⟨rfl, List.append_cancel_left h⟩
      | cons record others =>
          rw [encodeRecords, encodeRecords, List.append_assoc] at h
          exact absurd h.symm (record.encode_append_ne _ _)
  | cons record records ih =>
      cases other with
      | nil =>
          rw [encodeRecords, encodeRecords, List.append_assoc] at h
          exact absurd h (record.encode_append_ne _ _)
      | cons second others =>
          rw [encodeRecords, encodeRecords, List.append_assoc, List.append_assoc] at h
          obtain ⟨rfl, htail⟩ := Record.encode_append_inj h
          obtain ⟨rfl, rfl⟩ := ih htail
          exact ⟨rfl, rfl⟩

/-- A file is made of one list of records. -/
theorem encode_unique {one other : List Record} (hone : encode one <+: bytes)
    (hother : encode other <+: bytes) : one = other := by
  obtain ⟨rest, rfl⟩ := hone
  obtain ⟨more, hmore⟩ := hother
  rw [encode, encode, List.append_assoc, List.append_assoc] at hmore
  exact (encodeRecords_append_inj (List.append_cancel_left hmore)).1.symm

variable {table result : Dictionary UInt32 Bytes}

/-- The offset of a record whose bytes were read. -/
theorem exists_record_of_mark {mark : Bytes} (hmark : mark.length = 3) (hother : mark ≠ endMark)
    (body : Body) : ∃ record : Record, record.encode = mark ++ body.encode ∧
      record.offset = UInt32.ofNat (BigEndian.decode mark) ∧ record.body = body := by
  have hencode := BigEndian.eq_encode_decode hmark
  have hlt : BigEndian.decode mark < 0x1000000 := BigEndian.decode_lt hmark
  have htoNat : (UInt32.ofNat (BigEndian.decode mark)).toNat = BigEndian.decode mark :=
    UInt32.toNat_ofNat_of_lt' (by rw [UInt32.size]; omega)
  have hne : BigEndian.decode mark ≠ 0x454f46 := by
    intro heq
    rw [heq, ← endMark_eq] at hencode
    exact hother hencode
  refine ⟨⟨UInt32.ofNat (BigEndian.decode mark), body, by omega, by omega⟩, ?_, rfl, rfl⟩
  show BigEndian.encode 3 (UInt32.ofNat (BigEndian.decode mark)).toNat ++ body.encode =
    mark ++ body.encode
  rw [htoNat, ← hencode]

/-- The end mark ends the loop. -/
theorem readRecords_endMark (rest : Bytes) :
    readRecords name total table (endMark ++ rest) = .ok table := by
  have hpart : part 3 (endMark ++ rest) = .ok (endMark, rest) :=
    part_append (by decide : endMark.length = 3) rest
  rw [readRecords]
  split
  · rename_i herror
    rw [hpart] at herror
    cases herror
  · rename_i mark after hmark
    rw [hpart] at hmark
    cases hmark
    exact if_pos rfl

/-- A record is added to the table if its offset is new. -/
theorem readRecords_encode (record : Record) (rest : Bytes) :
    readRecords name total table (record.encode ++ rest) =
      if table.contains record.offset then .error (.duplicateOffset name record.offset)
      else readRecords name total (table.insert record.offset record.body.written) rest := by
  have hpart : part 3 (record.encode ++ rest) =
      .ok (BigEndian.encode 3 record.offset.toNat, record.body.encode ++ rest) := by
    rw [Record.encode, List.append_assoc]
    exact part_append (BigEndian.length_encode ..) _
  have hcontents := contents_encode record.body rest
  have hoffset : UInt32.ofNat (BigEndian.decode (BigEndian.encode 3 record.offset.toNat)) =
      record.offset := by
    rw [BigEndian.decode_encode record.offset_lt, UInt32.ofNat_toNat]
  rw [readRecords]
  split
  · rename_i herror
    rw [hpart] at herror
    cases herror
  · rename_i mark after hmark
    rw [hpart] at hmark
    cases hmark
    rw [if_neg record.encode_ne_endMark]
    split
    · rename_i herror
      rw [hcontents] at herror
      cases herror
    · rename_i written behind hbehind
      rw [hcontents] at hbehind
      cases hbehind
      simp only [hoffset]

/-- A step of the loop finds the end mark, or a record at a new offset. -/
theorem readRecords_eq_ok_iff_step :
    readRecords name total table bytes = .ok result ↔
      (endMark <+: bytes ∧ result = table) ∨
        ∃ (record : Record) (rest : Bytes), bytes = record.encode ++ rest ∧
          table.contains record.offset = false ∧
          readRecords name total (table.insert record.offset record.body.written) rest =
            .ok result := by
  constructor
  · intro h
    rw [readRecords] at h
    split at h
    · cases h
    · rename_i mark after hmark
      obtain ⟨rfl, hthree⟩ := part_eq_ok_iff.mp hmark
      split at h
      · rename_i hend
        cases h
        exact .inl ⟨⟨after, by rw [hend]⟩, rfl⟩
      · rename_i hother
        split at h
        · cases h
        · rename_i written rest hcontents
          obtain ⟨body, rfl, rfl⟩ := exists_body_of_contents hcontents
          obtain ⟨record, hencode, hoffset, rfl⟩ := exists_record_of_mark hthree hother body
          simp only [← hoffset] at h
          split at h
          · cases h
          · rename_i hnew
            refine .inr ⟨record, rest, ?_, Bool.eq_false_iff.mpr hnew, h⟩
            rw [hencode, List.append_assoc]
  · rintro (⟨⟨rest, rfl⟩, rfl⟩ | ⟨record, rest, rfl, hnew, h⟩)
    · exact readRecords_endMark rest
    · rw [readRecords_encode, hnew]
      exact h

/-- The table with the bytes of records added, each in place of what is at its offset. -/
def addTo (table : Dictionary UInt32 Bytes) (records : List Record) : Dictionary UInt32 Bytes :=
  records.foldl (fun table record => table.insert record.offset record.body.written) table

/-- The records have offsets that are different and not in the table. -/
structure Fresh (table : Dictionary UInt32 Bytes) (records : List Record) : Prop where
  distinct : (records.map Record.offset).Nodup
  new : ∀ record ∈ records, table.contains record.offset = false

/-- A record is followed by fresh ones just if it is new and they are fresh when it is in the table.
-/
theorem fresh_cons_iff {record : Record} {records : List Record} :
    Fresh table (record :: records) ↔ table.contains record.offset = false ∧
      Fresh (table.insert record.offset record.body.written) records := by
  have hcontains : ∀ other : Record,
      (table.insert record.offset record.body.written).contains other.offset = false ↔
        other.offset ≠ record.offset ∧ table.contains other.offset = false := by
    intro other
    rw [Dictionary.contains, Dictionary.get?_insert, Dictionary.contains]
    by_cases hsame : other.offset = record.offset <;> simp [hsame]
  constructor
  · rintro ⟨hdistinct, hnew⟩
    rw [List.map_cons, List.nodup_cons] at hdistinct
    refine ⟨hnew record List.mem_cons_self, hdistinct.2, fun other hother => ?_⟩
    refine (hcontains other).mpr ⟨fun hsame => ?_, hnew other (List.mem_cons_of_mem _ hother)⟩
    exact hdistinct.1 (List.mem_map.mpr ⟨other, hother, hsame⟩)
  · rintro ⟨hfirst, hdistinct, hnew⟩
    refine ⟨?_, ?_⟩
    · rw [List.map_cons, List.nodup_cons]
      refine ⟨fun hmem => ?_, hdistinct⟩
      obtain ⟨other, hother, hsame⟩ := List.mem_map.mp hmem
      exact ((hcontains other).mp (hnew other hother)).1 hsame
    · rw [List.forall_mem_cons]
      exact ⟨hfirst, fun other hother => ((hcontains other).mp (hnew other hother)).2⟩

/-- The loop reads records up to the end mark and adds them to the table. -/
theorem readRecords_eq_ok_iff :
    readRecords name total table bytes = .ok result ↔
      ∃ records, encodeRecords records <+: bytes ∧ Fresh table records ∧
        result = addTo table records := by
  constructor
  · -- By induction on the number of bytes that are left.
    intro h
    induction hsize : bytes.length using Nat.strongRecOn generalizing bytes table with
    | ind size ih =>
        rcases readRecords_eq_ok_iff_step.mp h with ⟨hend, rfl⟩ | ⟨record, rest, rfl, hnew, hrest⟩
        · exact ⟨[], hend, ⟨List.nodup_nil, by simp⟩, rfl⟩
        · have hshorter : rest.length < size := by
            rw [← hsize, Record.encode, List.length_append, List.length_append,
              BigEndian.length_encode]
            omega
          obtain ⟨records, ⟨trailing, rfl⟩, hfresh, rfl⟩ := ih rest.length hshorter hrest rfl
          refine ⟨record :: records, ⟨trailing, ?_⟩, fresh_cons_iff.mpr ⟨hnew, hfresh⟩, rfl⟩
          rw [encodeRecords, List.append_assoc]
  · rintro ⟨records, ⟨trailing, rfl⟩, hfresh, rfl⟩
    induction records generalizing table with
    | nil => exact readRecords_eq_ok_iff_step.mpr (.inl ⟨⟨trailing, rfl⟩, rfl⟩)
    | cons record records ih =>
        obtain ⟨hnew, hfresh⟩ := fresh_cons_iff.mp hfresh
        refine readRecords_eq_ok_iff_step.mpr
          (.inr ⟨record, encodeRecords records ++ trailing, ?_, hnew,
          ih hfresh⟩)
        rw [encodeRecords, List.append_assoc]

/-- The entries of fresh records are added to those of the table. -/
theorem Fresh.entries_perm {records : List Record} (h : Fresh table records) :
    (addTo table records).entries.Perm (table.entries ++ records.map Record.entry) := by
  induction records generalizing table with
  | nil => simp [addTo]
  | cons record records ih =>
      obtain ⟨hnew, hfresh⟩ := fresh_cons_iff.mp h
      have hnone : Dictionary.find? record.offset table.entries = none := by
        simpa [Dictionary.contains, Dictionary.get?] using hnew
      have hinsert : (table.insert record.offset record.body.written).entries.Perm
          (record.entry :: table.entries) := Dictionary.insertEntry_perm hnone _
      have hrest : (addTo table (record :: records)).entries.Perm
          ((table.insert record.offset record.body.written).entries ++ records.map Record.entry) :=
            ih hfresh
      exact hrest.trans ((hinsert.append_right _).trans List.perm_middle.symm)

/-- Adding records keeps the order of the offsets. -/
theorem ordered_addTo (h : table.Ordered) (records : List Record) :
    (addTo table records).Ordered := by
  induction records generalizing table with
  | nil => exact h
  | cons record records ih => exact ih (h.insert _ _)

/-- Records whose offsets are different are fresh in the empty table. -/
theorem fresh_empty {records : List Record} (h : (records.map Record.offset).Nodup) :
    Fresh .empty records :=
  ⟨h, fun _ _ => rfl⟩

/-- What records of different offsets make of the empty table. -/
theorem lists_addTo {records : List Record} (h : (records.map Record.offset).Nodup) :
    Lists ⟨name, addTo .empty records⟩ records := by
  have hordered : (addTo .empty records).Ordered := ordered_addTo Dictionary.ordered_empty records
  have hperm : (addTo .empty records).entries.Perm (records.map Record.entry) :=
    (fresh_empty h).entries_perm
  refine ⟨fun offset bytes => ?_, hperm, hordered⟩
  rw [hordered.get?_eq_some_iff, hperm.mem_iff, List.mem_map]
  simp only [Record.entry, Prod.mk.injEq]

/-- A file can be read just if it holds records. -/
theorem parse_eq_ok_iff {file : IpsFile} :
    parse name bytes = .ok file ↔
      ∃ records, Holds bytes records ∧ file = ⟨name, addTo .empty records⟩ := by
  constructor
  · intro h
    unfold parse at h
    split at h
    · rename_i hmagic
      split at h
      · cases h
      · rename_i table htable
        cases h
        obtain ⟨records, ⟨trailing, htrailing⟩, hfresh, rfl⟩ := readRecords_eq_ok_iff.mp htable
        refine ⟨records, ⟨⟨trailing, ?_⟩, hfresh.distinct⟩, rfl⟩
        have hsplit := List.take_append_drop magic.length bytes
        rw [hmagic, ← htrailing] at hsplit
        rw [encode, List.append_assoc]
        exact hsplit
    · cases h
  · rintro ⟨records, ⟨⟨trailing, rfl⟩, hdistinct⟩, rfl⟩
    have hread : ∀ total, readRecords name total .empty (encodeRecords records ++ trailing) =
        .ok (addTo .empty records) := fun total =>
      readRecords_eq_ok_iff.mpr ⟨records, ⟨trailing, rfl⟩, fresh_empty hdistinct, rfl⟩
    rw [parse, encode, List.append_assoc, List.take_left' rfl, List.drop_left' rfl,
      if_pos rfl, hread]

/-- What is read from a file lists the records that it holds. -/
theorem lists_of_parse {file : IpsFile} (h : parse name bytes = .ok file) :
    ∃ records, Holds bytes records ∧ file.name = name ∧ file.Lists records := by
  obtain ⟨records, hholds, rfl⟩ := parse_eq_ok_iff.mp h
  exact ⟨records, hholds, rfl, lists_addTo hholds.distinct⟩

/-- Exactly the files that hold records of different offsets can be read. The records are determined
by the file, whatever follows the end mark, and reading it gives their bytes by offset. So records
that are written are read back in the order of their offsets. -/
theorem parse_outcome (name : String) (bytes : Bytes) :
    ((∃ file, parse name bytes = .ok file) ↔ ∃ records, Holds bytes records) ∧
    (∀ one other, encode one <+: bytes → encode other <+: bytes → one = other) ∧
    (∀ file records, parse name bytes = .ok file → encode records <+: bytes →
      file.name = name ∧ file.Lists records) ∧
    ∀ (records : List Record) (trailing : Bytes), (records.map Record.offset).Nodup →
      ∃ file, parse name (encode records ++ trailing) = .ok file ∧ file.Lists records := by
  refine ⟨⟨?_, ?_⟩, fun one other => encode_unique, ?_, ?_⟩
  · rintro ⟨file, h⟩
    obtain ⟨records, hholds, _⟩ := lists_of_parse h
    exact ⟨records, hholds⟩
  · rintro ⟨records, hholds⟩
    exact ⟨_, parse_eq_ok_iff.mpr ⟨records, hholds, rfl⟩⟩
  · intro file records h hstands
    obtain ⟨others, hholds, hname, hlists⟩ := lists_of_parse h
    rw [encode_unique hstands hholds.stands]
    exact ⟨hname, hlists⟩
  · intro records trailing hdistinct
    have hholds : Holds (encode records ++ trailing) records := ⟨⟨trailing, rfl⟩, hdistinct⟩
    exact ⟨_, parse_eq_ok_iff.mpr ⟨records, hholds, rfl⟩, lists_addTo hdistinct⟩

/-- Two records out of order, one of them a run, are read back in order, and a file with two records
at one offset cannot be read. -/
theorem parse_outcome_outOfOrder :
    (∃ file,
      parse "fix" [0x50, 0x41, 0x54, 0x43, 0x48, 0, 1, 0, 0, 0, 0, 3, 0xff, 0, 0, 0x10, 0, 2,
        0xaa, 0xbb, 0x45, 0x4f, 0x46, 7] = .ok file ∧
      file.records.entries = [(0x10, [0xaa, 0xbb]), (0x100, [0xff, 0xff, 0xff])]) ∧
    ¬ ∃ file,
      parse "fix" [0x50, 0x41, 0x54, 0x43, 0x48, 0, 0, 0x10, 0, 1, 0xaa, 0, 0, 0x10, 0, 1, 0xbb,
        0x45, 0x4f, 0x46] = .ok file := by
  constructor
  · obtain ⟨file, hparse, hlists⟩ := (parse_outcome "fix" []).2.2.2
      [⟨0x100, .run 3 0xff, by decide, by decide⟩,
        ⟨0x10, .plain [0xaa, 0xbb] (by decide) (by decide), by decide, by decide⟩] [7] (by decide)
    refine ⟨file, hparse, ?_⟩
    refine (hlists.perm.trans (List.Perm.swap _ _ _)).eq_of_pairwise ?_ hlists.ordered (by decide)
    intro one other _ _ hlt hgt
    exact absurd hgt (Std.not_gt_of_lt hlt)
  · intro hread
    obtain ⟨records, hholds⟩ := (parse_outcome _ _).1.mp hread
    have hsame := (parse_outcome "fix" _).2.1 records
      [⟨0x10, .plain [0xaa] (by decide) (by decide), by decide, by decide⟩,
        ⟨0x10, .plain [0xbb] (by decide) (by decide), by decide, by decide⟩]
      hholds.stands ⟨[], by decide⟩
    have hdistinct := hholds.distinct
    rw [hsame] at hdistinct
    exact absurd hdistinct (by decide)

/-- The patches of files are added in the order of the files. -/
theorem patches_appendFiles (set : PatchSet) (files : List IpsFile) :
    (files.foldl (fun set file => set.append file.patches) set).patches =
      set.patches ++ files.flatMap fun file => file.patches.patches := by
  induction files generalizing set with
  | nil => simp
  | cons file rest ih =>
      rw [List.foldl_cons, ih, PatchSet.append, List.flatMap_cons, List.append_assoc]

end IpsFile

end EventScript
