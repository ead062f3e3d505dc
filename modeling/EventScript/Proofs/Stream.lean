import EventScript.Proofs.Encoding
import EventScript.Stream.Reader

/-!
# What was written is read back

Numbers and bytes are written behind one another from an address on, and read from the start of the
bytes. The writer judges alignment by its address and the reader by its position; from an address
that four divides on, these agree (`write_eq_ok_iff`), so every entry stands where a reader takes it
(`Stands`). Entries that a writer refuses leave no trace: after any attempts the accepted entries
are read back, and nothing else is there (`readAll_accepted`).
-/

namespace EventScript.Stream

/-- What is written: a number that fits into its width, or bytes as they are. -/
inductive Entry where
  | number (width : Width) (value : UInt32) (fits : width.fits value = true)
  | bytes (content : Bytes)

/-- What is asked for: a number of some width, or so many bytes. -/
inductive Shape where
  | number (width : Width)
  | bytes (count : Nat)

/-- What is read. -/
inductive Content where
  | number (value : UInt32)
  | bytes (content : Bytes)
deriving DecidableEq

namespace Entry

/-- What has to be asked for to read the entry. -/
def shape : Entry → Shape
  | number width _ _ => .number width
  | bytes content => .bytes content.length

/-- What reading the entry gives. -/
def content : Entry → Content
  | number _ value _ => .number value
  | bytes content => .bytes content

/-- The bytes of the entry. -/
def encoded : Entry → Bytes
  | number width value _ => LittleEndian.encode width.size value.toNat
  | bytes content => content

end Entry

/-- Write an entry. The writer is returned whether or not this fails. -/
def write (writer : Writer) : Entry → Writer × Except StreamError Unit
  | .number width value _ => writer.put width value
  | .bytes content => (writer.putBytes content, .ok ())

/-- What came of writing entries: the writer behind them, those that it accepted, and the faults of
the others. -/
structure Log where
  writer : Writer
  accepted : List Entry
  faults : List StreamError

/-- Write entries one after the other; the writer that a fault leaves goes on with the next entry.
-/
def writeAll (writer : Writer) : List Entry → Log
  | [] => ⟨writer, [], []⟩
  | entry :: rest =>
      match write writer entry with
      | (after, .error fault) =>
          let log := writeAll after rest
          { log with faults := fault :: log.faults }
      | (after, .ok ()) =>
          let log := writeAll after rest
          { log with accepted := entry :: log.accepted }

/-- Read what is asked for. -/
def next (reader : Reader) : Shape → Except StreamError (Content × Reader)
  | .number width => (reader.read width).map fun (value, after) => (.number value, after)
  | .bytes count => (reader.take count).map fun (content, after) => (.bytes content, after)

/-- Read what is asked for, one after the other, up to the first fault. -/
def readAll (reader : Reader) : List Shape → Except StreamError (List Content × Reader)
  | [] => .ok ([], reader)
  | shape :: rest =>
      match next reader shape with
      | .error fault => .error fault
      | .ok (content, after) =>
          match readAll after rest with
          | .error fault => .error fault
          | .ok (contents, final) => .ok (content :: contents, final)

/-- A number of the entry may be read at the position. -/
def Entry.StandsAt (position : Nat) : Entry → Prop
  | .number width _ _ => width.aligned (UInt32.ofNat position) = true
  | .bytes _ => True

/-- Entries one behind the other from a position on may be read there. -/
def Stands (position : Nat) : List Entry → Prop
  | [] => True
  | entry :: rest => entry.StandsAt position ∧ Stands (position + entry.encoded.length) rest

variable {writer after : Writer} {entry : Entry} {entries : List Entry} {fault : StreamError}

/-- From an address that four divides on, an entry is accepted where a reader may take it, and its
bytes are added. -/
theorem write_eq_ok_iff (hbase : writer.base.toNat % 4 = 0) :
    write writer entry = (after, .ok ()) ↔
      entry.StandsAt writer.size ∧ after = writer.putBytes entry.encoded := by
  cases entry with
  | bytes content => simp [write, Entry.StandsAt, Entry.encoded, eq_comm]
  | number width value fits =>
      have haligned : width.aligned writer.address = width.aligned (UInt32.ofNat writer.size) := by
        rw [Writer.address, UInt32.add_comm, Width.aligned_add width hbase]
      simp only [write, Writer.put, haligned, Entry.StandsAt, Entry.encoded]
      by_cases h : width.aligned (UInt32.ofNat writer.size) = true
      · simp [h, eq_comm]
      · simp [h]

/-- An entry that is refused leaves the writer as it was. -/
theorem write_eq_error (h : write writer entry = (after, .error fault)) : after = writer := by
  cases entry with
  | bytes content => cases h
  | number width value fits =>
      simp only [write, Writer.put] at h
      split at h
      · cases h
      · cases h
        rfl

/-- The bytes of the accepted entries are added, and these stand where a reader may take them. -/
theorem writeAll_accepted (hbase : writer.base.toNat % 4 = 0) (entries : List Entry) :
    Stands writer.size (writeAll writer entries).accepted ∧
      (writeAll writer entries).writer =
        writer.putBytes ((writeAll writer entries).accepted.flatMap Entry.encoded) := by
  induction entries generalizing writer with
  | nil => exact ⟨trivial, (Writer.putBytes_nil writer).symm⟩
  | cons entry rest ih =>
      rcases hwrite : write writer entry with ⟨after, fault | _⟩
      · obtain rfl := write_eq_error hwrite
        simp only [writeAll, hwrite]
        exact ih hbase
      · obtain ⟨hstands, rfl⟩ := (write_eq_ok_iff hbase).mp hwrite
        obtain ⟨hrest, hfinal⟩ := @ih (writer.putBytes entry.encoded) hbase
        simp only [writeAll, hwrite]
        rw [Writer.putBytes_size] at hrest
        refine ⟨⟨hstands, hrest⟩, ?_⟩
        rw [hfinal, Writer.putBytes_putBytes, List.flatMap_cons]

/-- Entries are written one part after the other. -/
theorem writeAll_append (writer : Writer) (front rest : List Entry) :
    writeAll writer (front ++ rest) =
      ⟨(writeAll (writeAll writer front).writer rest).writer,
        (writeAll writer front).accepted ++ (writeAll (writeAll writer front).writer rest).accepted,
        (writeAll writer front).faults ++
          (writeAll (writeAll writer front).writer rest).faults⟩ := by
  induction front generalizing writer with
  | nil => rfl
  | cons entry front ih =>
      rcases hwrite : write writer entry with ⟨after, fault | _⟩
      · simp only [List.cons_append, writeAll, hwrite, ih after]
      · simp only [List.cons_append, writeAll, hwrite, ih after]

/-- Without a fault every entry was accepted. -/
theorem accepted_of_faults_eq_nil (h : (writeAll writer entries).faults = []) :
    (writeAll writer entries).accepted = entries := by
  induction entries generalizing writer with
  | nil => rfl
  | cons entry rest ih =>
      rcases hwrite : write writer entry with ⟨after, fault | _⟩
      · simp only [writeAll, hwrite] at h
        cases h
      · simp only [writeAll, hwrite] at h ⊢
        rw [ih h]

/-- An entry is read back where it stands. -/
theorem next_encoded {front : Bytes} (h : entry.StandsAt front.length) (rest : Bytes) :
    next ⟨front ++ (entry.encoded ++ rest), front.length, true⟩ entry.shape =
      .ok (entry.content,
        ⟨front ++ (entry.encoded ++ rest), front.length + entry.encoded.length, true⟩) := by
  have htake :
      (⟨front ++ (entry.encoded ++ rest), front.length, true⟩ : Reader).take entry.encoded.length =
      .ok (entry.encoded,
        ⟨front ++ (entry.encoded ++ rest), front.length + entry.encoded.length, true⟩) := by
    have hroom :
        ¬ (front ++ (entry.encoded ++ rest)).length < front.length + entry.encoded.length := by
      simp only [List.length_append]
      omega
    simp only [Reader.take, Reader.size, hroom, if_false, List.drop_left, List.take_left]
  cases entry with
  | bytes content =>
      simp only [Entry.encoded] at htake
      simp only [next, Entry.shape, Entry.encoded, htake]
      rfl
  | number width value fits =>
      have hvalue :
          UInt32.ofNat (LittleEndian.decode (LittleEndian.encode width.size value.toNat)) =
            value := by
        rw [LittleEndian.decode_encode _ _ (of_decide_eq_true fits), UInt32.ofNat_toNat]
      have haligned : width.aligned (UInt32.ofNat front.length) = true := h
      simp only [Entry.encoded, LittleEndian.length_encode] at htake
      simp only [next, Entry.shape, Entry.encoded, Reader.read, haligned, htake, hvalue,
        LittleEndian.length_encode]
      rfl

/-- Entries are read back where they stand. -/
theorem readAll_encoded {front : Bytes} (h : Stands front.length entries) :
    readAll ⟨front ++ entries.flatMap Entry.encoded, front.length, true⟩ (entries.map Entry.shape) =
      .ok (entries.map Entry.content, ⟨front ++ entries.flatMap Entry.encoded,
        (front ++ entries.flatMap Entry.encoded).length, true⟩) := by
  induction entries generalizing front with
  | nil => simp [readAll]
  | cons entry rest ih =>
      obtain ⟨hentry, hrest⟩ := h
      rw [← List.length_append] at hrest
      have hlater := ih hrest
      simp only [List.length_append, List.append_assoc] at hlater
      simp only [List.flatMap_cons, List.map_cons, readAll, next_encoded hentry, hlater,
        List.length_append]

/-- After any attempts the accepted entries are read back from the start, and nothing is left behind
them. -/
theorem readAll_accepted {base : UInt32} (hbase : base.toNat % 4 = 0) (entries : List Entry) :
    ∃ final, readAll (.ofBytes (writeAll (.start base) entries).writer.bytes)
        ((writeAll (.start base) entries).accepted.map Entry.shape) =
          .ok ((writeAll (.start base) entries).accepted.map Entry.content, final) ∧
          final.atEnd = true := by
  obtain ⟨hstands, hwriter⟩ := @writeAll_accepted (.start base) hbase entries
  have hbytes : (writeAll (.start base) entries).writer.bytes =
      [] ++ (writeAll (.start base) entries).accepted.flatMap Entry.encoded := by
    rw [hwriter]
    rfl
  rw [hbytes]
  exact ⟨_, @readAll_encoded _ [] hstands, by simp [Reader.atEnd, Reader.size]⟩

/-- What is written from an address that four divides on is read back: all entries if none fails,
and the accepted ones whichever fail. Whatever the address and the entries in front, one that fails
leaves the writer as it was, adds its fault to the log and changes nothing else there. -/
theorem readAll_writeAll {base : UInt32} (hbase : base.toNat % 4 = 0) (entries : List Entry) :
    ((writeAll (.start base) entries).faults = [] →
      ∃ final,
        readAll (.ofBytes (writeAll (.start base) entries).writer.bytes) (entries.map Entry.shape) =
        .ok (entries.map Entry.content, final) ∧ final.atEnd = true) ∧
    (∃ final, readAll (.ofBytes (writeAll (.start base) entries).writer.bytes)
        ((writeAll (.start base) entries).accepted.map Entry.shape) =
          .ok ((writeAll (.start base) entries).accepted.map Entry.content, final) ∧
          final.atEnd = true) ∧
    ∀ (writer after : Writer) (front : List Entry) (entry : Entry) (fault : StreamError),
      write (writeAll writer front).writer entry = (after, .error fault) →
      after = (writeAll writer front).writer ∧
        writeAll writer (front ++ [entry]) =
          { writeAll writer front with faults := (writeAll writer front).faults ++ [fault] } := by
  have hread := readAll_accepted hbase entries
  refine ⟨fun hfaults => ?_, hread, fun writer after front entry fault hwrite => ?_⟩
  · rwa [accepted_of_faults_eq_nil hfaults] at hread
  · obtain rfl := write_eq_error hwrite
    refine ⟨rfl, ?_⟩
    simp only [writeAll_append, writeAll, hwrite, List.append_nil]

/-- Numbers of all widths with bytes between them are read back, and a word that is not aligned is
refused. -/
theorem readAll_writeAll_widths :
    (∃ final,
      readAll (.ofBytes [1, 2, 0x34, 0x12, 0xef, 0xbe, 0xad, 0xde, 9])
          [.number .byte, .bytes 1, .number .half, .number .word, .bytes 1] =
        .ok ([.number 1, .bytes [2], .number 0x1234, .number 0xdeadbeef, .bytes [9]], final) ∧
      final.atEnd = true) ∧
    write ⟨0x8000000, [1]⟩ (.number .word 5 rfl) =
      (⟨0x8000000, [1]⟩, .error (.misaligned 0x8000001 .word)) ∧
    writeAll (.start 0x8000000) [.number .byte 1 rfl, .number .word 5 rfl] =
      ⟨⟨0x8000000, [1]⟩, [.number .byte 1 rfl], [.misaligned 0x8000001 .word]⟩ := by
  have hbase : (0x8000000 : UInt32).toNat % 4 = 0 := by decide
  obtain ⟨_, _, hrefused⟩ := readAll_writeAll hbase []
  refine ⟨?_, rfl, ?_⟩
  · exact (readAll_writeAll hbase [.number .byte 1 rfl, .bytes [2], .number .half 0x1234 rfl,
      .number .word 0xdeadbeef rfl, .bytes [9]]).1 rfl
  · exact (hrefused (.start 0x8000000) ⟨0x8000000, [1]⟩ [.number .byte 1 rfl] (.number .word 5 rfl)
      (.misaligned 0x8000001 .word) rfl).2

end EventScript.Stream
