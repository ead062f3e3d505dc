import EventScript.Dictionary
import EventScript.Patch

/-!
# IPS files

An IPS file is the word `PATCH`, then records, then the word `EOF`. A record is an offset of three
bytes and a length of two, both with the most significant byte first, and as many bytes as the
length says. Length zero marks a run: a count of two bytes and the byte to repeat. What follows
`EOF` does not count. `IpsFile.parse` reads such a file, in which no two records may have the same
offset.
-/

namespace EventScript

open Text

/-- Why bytes are not an IPS file; `name` is the name of the file. -/
inductive IpsError where
  /-- The file does not start with `PATCH`. -/
  | badHeader (name : String)
  /-- The file ends in the part that starts at `position`. -/
  | truncated (name : String) (position : Nat)
  /-- Two records have the same offset. -/
  | duplicateOffset (name : String) (offset : UInt32)
deriving DecidableEq, Repr

/-- The text that reports the fault. -/
def IpsError.message : IpsError → String
  | .badHeader name => s!"{name}: missing PATCH header"
  | .truncated name position => s!"{name}: truncated at byte {position}"
  | .duplicateOffset name offset =>
      s!"{name}: two records at offset {Numeral.hex offset.toNat}"

/-- An IPS file: the bytes it writes, by offset. -/
structure IpsFile where
  name : String
  records : Dictionary UInt32 Bytes
deriving DecidableEq, Repr

namespace IpsFile

/-- The word an IPS file starts with. -/
def magic : Bytes := [0x50, 0x41, 0x54, 0x43, 0x48]

/-- The word in place of an offset that ends the records. -/
def endMark : Bytes := [0x45, 0x4f, 0x46]

/-- The first `count` bytes, and those behind them. If there are not enough, the fault is how many
there are. -/
def part (count : Nat) (bytes : Bytes) : Except Nat (Bytes × Bytes) :=
  let taken := bytes.take count
  if taken.length < count then .error taken.length else .ok (taken, bytes.drop count)

/-- The bytes that a record writes, read from what follows its offset, and what follows the record.
A fault is how many bytes are left where a part is missing. -/
def contents (bytes : Bytes) : Except Nat (Bytes × Bytes) :=
  match part 2 bytes with
  | .error left => .error left
  | .ok (length, rest) =>
      if BigEndian.decode length = 0 then
        match part 2 rest with
        | .error left => .error left
        | .ok (count, rest) =>
            match rest with
            | [] => .error 0
            | fill :: rest => .ok (List.replicate (BigEndian.decode count) fill, rest)
      else part (BigEndian.decode length) rest

/-- What follows a part is as much shorter as the part is long. -/
theorem part_rest_length {count : Nat} {bytes taken rest : Bytes}
    (h : part count bytes = .ok (taken, rest)) : rest.length + count = bytes.length := by
  simp only [part, List.length_take] at h
  split at h
  · simp at h
  · simp only [Except.ok.injEq, Prod.mk.injEq] at h
    rw [← h.2, List.length_drop]
    omega

/-- What follows a record is shorter than what follows its offset. -/
theorem contents_rest_length {bytes taken rest : Bytes}
    (h : contents bytes = .ok (taken, rest)) : rest.length < bytes.length := by
  unfold contents at h
  split at h
  · simp at h
  · rename_i length after hlength
    have := part_rest_length hlength
    split at h
    · split at h
      · simp at h
      · rename_i count behind hcount
        have := part_rest_length hcount
        split at h
        · simp at h
        · simp only [Except.ok.injEq, Prod.mk.injEq] at h
          simp only [List.length_cons] at this
          rw [← h.2]
          omega
    · have := part_rest_length h
      omega

/-- The records at the front of `bytes`, which stand at the end of a file of `total` bytes, up to
the end mark. They are added to the records in front of them. -/
def readRecords (name : String) (total : Nat) (records : Dictionary UInt32 Bytes)
    (bytes : Bytes) : Except IpsError (Dictionary UInt32 Bytes) :=
  match hpart : part 3 bytes with
  | .error left => .error (.truncated name (total - left))
  | .ok (mark, rest) =>
      if mark = endMark then .ok records
      else
        match hcontents : contents rest with
        | .error left => .error (.truncated name (total - left))
        | .ok (written, after) =>
            have := part_rest_length hpart
            have := contents_rest_length hcontents
            let offset := UInt32.ofNat (BigEndian.decode mark)
            if records.contains offset then .error (.duplicateOffset name offset)
            else readRecords name total (records.insert offset written) after
termination_by bytes.length

/-- Read an IPS file with the given name. -/
def parse (name : String) (bytes : Bytes) : Except IpsError IpsFile :=
  if bytes.take magic.length = magic then
    match readRecords name bytes.length .empty (bytes.drop magic.length) with
    | .error fault => .error fault
    | .ok records => .ok ⟨name, records⟩
  else .error (.badHeader name)

/-- The patches of the file, in increasing order of their offsets. -/
def patches (file : IpsFile) : PatchSet :=
  ⟨file.records.entries.map fun (offset, bytes) => ⟨offset, bytes, file.name⟩⟩

end IpsFile

end EventScript
