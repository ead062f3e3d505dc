import Mathlib.Algebra.Ring.Nat
import EventScript.Image
import EventScript.Listing

/-!
# Records that tell their size

A record is framed if its second byte is its size. `Listing.Cut` describes bytes that are cut into
framed records, each with the line that is listed for it, and `linesFrom_eq_ok_iff` says that
listing succeeds on just these. The lines of at most 2^32 bytes stand at different addresses
(`Cut.nodup_addresses`). Both listing and measuring an event step over a framed record as a whole,
whatever stands behind it (`Framed.steppedOver`).
-/

namespace EventScript

/-- The second byte of a record is the size of the record. -/
def Bytes.Framed (record : Bytes) : Prop :=
  record[1]?.map UInt8.toNat = some record.length

/-- A framed record has at least an opcode and a length byte. -/
theorem Bytes.Framed.two_le {record : Bytes} (h : record.Framed) : 2 ≤ record.length := by
  cases hbyte : record[1]? with
  | none => simp [Framed, hbyte] at h
  | some byte =>
      have hlt := (List.getElem?_eq_some_iff.mp hbyte).1
      omega

namespace Listing

/-- Bytes at an address that are cut into framed records, with the lines for these records. -/
inductive Cut (candidates : List Instruction) : UInt32 → Bytes → List Line → Prop where
  | nil {address} : Cut candidates address [] []
  | cons {address record rest lines} :
      Bytes.Framed record → Cut candidates (address + UInt32.ofNat record.length) rest lines →
      Cut candidates address (record ++ rest) (decode candidates address record :: lines)

variable {candidates : List Instruction} {address : UInt32} {bytes : Bytes} {lines : List Line}

/-- The length byte of bytes that begin with a framed record. -/
theorem lengthByte_append {record : Bytes} (h : record.Framed) (rest : Bytes) :
    (lengthByte (record ++ rest)).toNat = record.length := by
  have hlt : 1 < record.length := by
    have := h.two_le
    omega
  have hbyte := h
  simp only [Bytes.Framed, List.getElem?_eq_getElem hlt, Option.map_some,
    Option.some.injEq] at hbyte
  simp [lengthByte, List.getElem?_append_left hlt, List.getElem?_eq_getElem hlt, hbyte]

/-- A byte as an address offset. -/
theorem toUInt32_eq_ofNat (byte : UInt8) : byte.toUInt32 = UInt32.ofNat byte.toNat := by
  apply UInt32.toNat_inj.mp
  have := byte.toNat_lt
  rw [UInt8.toNat_toUInt32, UInt32.toNat_ofNat', Nat.mod_eq_of_lt (by omega)]

/-- Bytes whose length byte tells a size that they have begin with a framed record. -/
theorem framed_take (hlength : 2 ≤ (lengthByte bytes).toNat)
    (htake : (bytes.take (lengthByte bytes).toNat).length = (lengthByte bytes).toNat) :
    Bytes.Framed (bytes.take (lengthByte bytes).toNat) := by
  have hlt : 1 < bytes.length := by
    rw [List.length_take] at htake
    omega
  rw [Bytes.Framed, htake, List.getElem?_take_of_lt (by omega)]
  simp [lengthByte, List.getElem?_eq_getElem hlt]

/-- Bytes can be listed exactly if they are cut into framed records. -/
theorem linesFrom_eq_ok_iff :
    linesFrom candidates address bytes = .ok lines ↔ Cut candidates address bytes lines := by
  constructor
  · intro h
    fun_induction linesFrom candidates address bytes generalizing lines with
    | case1 address bytes hempty =>
        cases h
        obtain rfl := List.isEmpty_iff.mp hempty
        exact .nil
    | case2 => cases h
    | case3 address bytes _ record hrecord rest hrest =>
        rename_i ih
        cases h
        have hcut : Cut candidates (address + UInt32.ofNat record.length)
            (bytes.drop (lengthByte bytes).toNat) rest := by
          rw [hrecord.2, ← toUInt32_eq_ofNat]
          exact ih hrest
        have hwhole := Cut.cons (framed_take hrecord.1 hrecord.2) hcut
        rwa [List.take_append_drop] at hwhole
    | case4 => cases h
  · intro h
    induction h with
    | nil => simp [linesFrom]
    | @cons address record rest lines hframed _ ih =>
        have hlength := lengthByte_append hframed rest
        have hsize := hframed.two_le
        rw [linesFrom]
        simp only [toUInt32_eq_ofNat, hlength, List.take_left', List.drop_left', ih]
        have hnonempty : (record ++ rest).isEmpty = false := by
          cases record with
          | nil => simp at hsize
          | cons byte more => rfl
        simp [hnonempty, hsize]

/-- The line for a record stands at the address of the record. -/
@[simp] theorem decode_address (candidates : List Instruction) (address : UInt32)
    (record : Bytes) : (decode candidates address record).address = address := by
  unfold decode
  cases hfound : candidates.findSome? (match? address record) with
  | none => rfl
  | some line =>
      obtain ⟨instruction, _, hmatch⟩ := List.exists_of_findSome?_eq_some hfound
      unfold match? at hmatch
      split at hmatch
      · split at hmatch
        · cases hmatch
        · simp only [Option.map_eq_some_iff] at hmatch
          obtain ⟨operands, _, rfl⟩ := hmatch
          rfl
      · cases hmatch

/-- Every line of a cut is decoded from a record. -/
theorem Cut.exists_decode (h : Cut candidates address bytes lines) {line : Line}
    (hline : line ∈ lines) : ∃ place record, line = decode candidates place record := by
  induction h with
  | nil => simp at hline
  | cons _ _ ih =>
      rcases List.mem_cons.mp hline with rfl | hline
      · exact ⟨_, _, rfl⟩
      · exact ih hline

/-- Where the lines of bytes and their end stand. -/
theorem Cut.exists_offset (h : Cut candidates address bytes lines) {place : UInt32}
    (hplace : place ∈ lines.map Line.address ++ [address + UInt32.ofNat bytes.length]) :
    ∃ offset ≤ bytes.length, place = address + UInt32.ofNat offset := by
  induction h with
  | nil => exact ⟨0, Nat.le_refl 0, by simpa using hplace⟩
  | @cons address record rest lines _ _ ih =>
      rw [List.length_append, UInt32.ofNat_add, ← UInt32.add_assoc] at hplace
      rcases List.mem_cons.mp hplace with rfl | hplace
      · exact ⟨0, Nat.zero_le _, by simp⟩
      · obtain ⟨offset, hoffset, rfl⟩ := ih hplace
        refine ⟨record.length + offset, by simp [hoffset], ?_⟩
        rw [UInt32.ofNat_add, UInt32.add_assoc]

/-- The lines of less than 2^32 bytes, and the end of the bytes, stand at different addresses. -/
theorem Cut.nodup_addresses (h : Cut candidates address bytes lines)
    (hsize : bytes.length < 2 ^ 32) :
    (lines.map Line.address ++ [address + UInt32.ofNat bytes.length]).Nodup := by
  induction h with
  | nil => simp
  | @cons address record rest lines hframed hcut ih =>
      rw [List.length_append] at hsize
      rw [List.length_append, UInt32.ofNat_add, ← UInt32.add_assoc, List.map_cons, List.cons_append,
        List.nodup_cons, decode_address]
      refine ⟨?_, ih (by omega)⟩
      intro hmem
      -- Equal addresses are a multiple of 2^32 bytes apart, and there are fewer bytes than that.
      obtain ⟨offset, hoffset, heq⟩ := hcut.exists_offset hmem
      have hpositive := hframed.two_le
      have hnat := congrArg UInt32.toNat heq
      simp only [UInt32.toNat_add, UInt32.toNat_ofNat'] at hnat
      have haddress := address.toNat_lt
      omega

/-- Listing steps over a framed record, whatever stands behind it. -/
theorem linesFrom_append {record : Bytes} (h : record.Framed) (candidates : List Instruction)
    (address : UInt32) (rest : Bytes) :
    linesFrom candidates address (record ++ rest) =
      (linesFrom candidates (address + UInt32.ofNat record.length) rest).map
        (decode candidates address record :: ·) := by
  have hlength := lengthByte_append h rest
  have hsize := h.two_le
  have hnonempty : (record ++ rest).isEmpty = false := by
    cases record with
    | nil => simp at hsize
    | cons byte more => rfl
  rw [linesFrom]
  simp only [hnonempty, toUInt32_eq_ofNat, hlength, List.take_left', List.drop_left',
    hsize, and_self, if_true]
  cases linesFrom candidates (address + UInt32.ofNat record.length) rest <;> rfl

end Listing

/-- Measuring an event steps over a framed record, whatever stands behind it, and stops there if the
record ends the event. -/
theorem Image.recordsSize_append {record : Bytes} (h : record.Framed) (start : UInt32)
    (total position : Nat) (rest : Bytes) :
    recordsSize start total position (record ++ rest) =
      if record.head? = some endOpcode then .ok (position + record.length)
      else recordsSize start total (position + record.length) rest := by
  obtain ⟨opcode, length, more, rfl⟩ : ∃ opcode length more, record = opcode :: length :: more := by
    have hsize := h.two_le
    cases record with
    | nil => simp at hsize
    | cons opcode tail =>
        cases tail with
        | nil => simp at hsize
        | cons length more => exact ⟨opcode, length, more, rfl⟩
  have hlength : length.toNat = more.length + 2 := by simpa [Bytes.Framed] using h
  have hshort : ¬ length < 2 := by
    rw [UInt8.lt_iff_toNat_lt, hlength]
    simp
  simp only [List.cons_append, recordsSize, hshort, hlength]
  simp

/-- Listing and measuring an event take the bytes as one record, whatever stands behind them. -/
structure Bytes.SteppedOver (record : Bytes) : Prop where
  listed : ∀ candidates address rest,
    Listing.linesFrom candidates address (record ++ rest) =
      (Listing.linesFrom candidates (address + UInt32.ofNat record.length) rest).map
        (Listing.decode candidates address record :: ·)
  measured : ∀ start total position rest,
    Image.recordsSize start total position (record ++ rest) =
      if record.head? = some Image.endOpcode then .ok (position + record.length)
      else Image.recordsSize start total (position + record.length) rest

/-- Framed records are stepped over. -/
theorem Bytes.Framed.steppedOver {record : Bytes} (h : record.Framed) : record.SteppedOver :=
  ⟨Listing.linesFrom_append h, Image.recordsSize_append h⟩

end EventScript
