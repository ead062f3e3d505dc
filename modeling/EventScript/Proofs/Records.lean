import EventScript.CommandLine.Patcher
import EventScript.Proofs.Framing

/-!
# Walks over records

Listing bytes and measuring an event both go from record to record. `lines_eq_ok_iff` says that
bytes can be listed just if they are a concatenation of framed records, and which lines they give;
`eventSize_eq_ok_iff` says that an event can be measured just if framed records stand at its offset
the last of which, and no other, ends an event. So what was measured can be listed
(`lines_of_eventSize`), and listing an event of an image never fails in the listing
(`recordWalks_agree`).
-/

namespace EventScript

open CommandLine

namespace Bytes

/-- The bytes are a concatenation of framed records. -/
structure CutInto (bytes : Bytes) (records : List Bytes) : Prop where
  framed : ∀ record ∈ records, record.Framed
  flatten_eq : records.flatten = bytes

/-- The last record ends an event, and no other does. -/
def Ended (records : List Bytes) : Prop :=
  ∃ front last, records = front ++ [last] ∧ last.head? = some Image.endOpcode ∧
    ∀ record ∈ front, record.head? ≠ some Image.endOpcode

/-- The bytes begin with framed records that form an event. -/
structure BeginsWith (bytes : Bytes) (records : List Bytes) : Prop where
  framed : ∀ record ∈ records, record.Framed
  ended : Ended records
  flatten_le : records.flatten <+: bytes

theorem cutInto_nil : CutInto [] [] :=
  ⟨by simp, rfl⟩

theorem cutInto_cons_iff {record : Bytes} {records : List Bytes} {bytes : Bytes} :
    bytes.CutInto (record :: records) ↔
      ∃ rest, bytes = record ++ rest ∧ record.Framed ∧ rest.CutInto records := by
  constructor
  · rintro ⟨hframed, rfl⟩
    obtain ⟨hfirst, hrest⟩ := List.forall_mem_cons.mp hframed
    exact ⟨records.flatten, List.flatten_cons, hfirst, hrest, rfl⟩
  · rintro ⟨rest, rfl, hfirst, hrest, rfl⟩
    exact ⟨List.forall_mem_cons.mpr ⟨hfirst, hrest⟩, List.flatten_cons⟩

theorem not_ended_nil : ¬ Ended [] := by
  rintro ⟨front, last, heq, _⟩
  simp at heq

/-- An event is one record that ends it, or a record that does not with an event behind it. -/
theorem ended_cons_iff {record : Bytes} {records : List Bytes} :
    Ended (record :: records) ↔
      (record.head? = some Image.endOpcode ∧ records = []) ∨
        (record.head? ≠ some Image.endOpcode ∧ Ended records) := by
  constructor
  · rintro ⟨front, last, heq, hlast, hfront⟩
    cases front with
    | nil =>
        cases heq
        exact .inl ⟨hlast, rfl⟩
    | cons first front =>
        cases heq
        obtain ⟨hfirst, hrest⟩ := List.forall_mem_cons.mp hfront
        exact .inr ⟨hfirst, front, last, rfl, hlast, hrest⟩
  · rintro (⟨hlast, rfl⟩ | ⟨hfirst, front, last, rfl, hlast, hfront⟩)
    · exact ⟨[], record, rfl, hlast, by simp⟩
    · exact ⟨record :: front, last, rfl, hlast, List.forall_mem_cons.mpr ⟨hfirst, hfront⟩⟩

end Bytes

namespace Listing

variable {candidates : List Instruction} {address : UInt32} {bytes : Bytes} {lines : List Line}
  {records : List Bytes}

/-- The lines of records that stand one after the other from an address on. -/
def recordLines (candidates : List Instruction) (address : UInt32) (records : List Bytes) :
    List Line :=
  records.mapIdx fun index record =>
    decode candidates (address + UInt32.ofNat (records.take index).flatten.length) record

@[simp] theorem recordLines_nil : recordLines candidates address [] = [] := rfl

theorem recordLines_cons {record : Bytes} :
    recordLines candidates address (record :: records) =
      decode candidates address record ::
        recordLines candidates (address + UInt32.ofNat record.length) records := by
  simp [recordLines, List.mapIdx_cons, UInt32.ofNat_add, UInt32.add_assoc]

/-- The lines of records stand in front of those of the records behind them. -/
theorem recordLines_append {others : List Bytes} :
    recordLines candidates address (records ++ others) =
      recordLines candidates address records ++
        recordLines candidates (address + UInt32.ofNat records.flatten.length) others := by
  induction records generalizing address with
  | nil => simp
  | cons record records ih =>
      rw [List.cons_append, recordLines_cons, ih, recordLines_cons, List.cons_append,
        List.flatten_cons, List.length_append, UInt32.ofNat_add, UInt32.add_assoc]

/-- Each line stands at the address of its record. -/
theorem recordLines_address :
    (recordLines candidates address records).map Line.address =
      records.mapIdx fun index _ =>
        address + UInt32.ofNat (records.take index).flatten.length := by
  apply List.ext_getElem?
  intro index
  simp only [recordLines, List.getElem?_map, List.getElem?_mapIdx, Option.map_map]
  cases records[index]? <;> simp

/-- Bytes that are cut into records have the lines of these records. -/
theorem linesFrom_of_cutInto (h : bytes.CutInto records) :
    linesFrom candidates address bytes = .ok (recordLines candidates address records) := by
  induction records generalizing address bytes with
  | nil =>
      obtain ⟨_, rfl⟩ := h
      simp [linesFrom]
  | cons record records ih =>
      obtain ⟨rest, rfl, hframed, hrest⟩ := Bytes.cutInto_cons_iff.mp h
      rw [linesFrom_append hframed, ih hrest, recordLines_cons]
      rfl

/-- What can be listed is cut into records. -/
theorem Cut.exists_cutInto (h : Cut candidates address bytes lines) :
    ∃ records, bytes.CutInto records := by
  induction h with
  | nil => exact ⟨[], Bytes.cutInto_nil⟩
  | cons hframed _ ih =>
      obtain ⟨records, hrecords⟩ := ih
      exact ⟨_ :: records, Bytes.cutInto_cons_iff.mpr ⟨_, rfl, hframed, hrecords⟩⟩

/-- Bytes can be listed just if they are cut into records, and give one line for each. -/
theorem lines_eq_ok_iff {grammar : Grammar} {base : UInt32} :
    Listing.lines grammar base bytes = .ok lines ↔
      ∃ records, bytes.CutInto records ∧
        lines = recordLines (Listing.candidates grammar.toList) base records := by
  constructor
  · intro h
    obtain ⟨records, hrecords⟩ := (linesFrom_eq_ok_iff.mp h).exists_cutInto
    exact ⟨records, hrecords, Except.ok.inj (h.symm.trans (linesFrom_of_cutInto hrecords))⟩
  · rintro ⟨records, hrecords, rfl⟩
    exact linesFrom_of_cutInto hrecords

end Listing

namespace Image

open Bytes

variable {start offset : UInt32} {total position size : Nat} {bytes : Bytes} {records : List Bytes}
  {image : Image}

/-- A record that is there as a whole is framed, and stands in front of the rest. -/
theorem framed_cons_cons {opcode length : UInt8} {rest : Bytes} (hlength : ¬ length < 2)
    (hroom : ¬ (rest.take (length.toNat - 2)).length < length.toNat - 2) :
    Bytes.Framed (opcode :: length :: rest.take (length.toNat - 2)) ∧
      (opcode :: length :: rest.take (length.toNat - 2)).length = length.toNat := by
  have htwo : 2 ≤ length.toNat := by
    rw [UInt8.lt_iff_toNat_lt] at hlength
    exact Nat.le_of_not_lt hlength
  have hsize : (opcode :: length :: rest.take (length.toNat - 2)).length = length.toNat := by
    have := List.length_take_le (length.toNat - 2) rest
    simp only [List.length_cons]
    omega
  refine ⟨?_, hsize⟩
  rw [Framed, hsize]
  rfl

/-- Measuring stops behind the records of the event that the bytes begin with. -/
theorem recordsSize_of_beginsWith (h : bytes.BeginsWith records) :
    recordsSize start total position bytes = .ok (position + records.flatten.length) := by
  obtain ⟨hframed, hended, rest, rfl⟩ := h
  induction records generalizing position with
  | nil => exact absurd hended not_ended_nil
  | cons record records ih =>
      obtain ⟨hfirst, hothers⟩ := List.forall_mem_cons.mp hframed
      rw [List.flatten_cons, List.append_assoc, recordsSize_append hfirst]
      rcases ended_cons_iff.mp hended with ⟨hlast, rfl⟩ | ⟨hgoes, hrest⟩
      · rw [if_pos hlast]
        simp
      · rw [if_neg hgoes, ih hothers hrest, List.length_append, Nat.add_assoc]

/-- What can be measured begins with the records of an event. -/
theorem exists_beginsWith (h : recordsSize start total position bytes = .ok size) :
    ∃ records, bytes.BeginsWith records := by
  fun_induction recordsSize start total position bytes with
  | case1 => cases h
  | case2 => cases h
  | case3 => cases h
  | case4 => cases h
  | case5 position length rest hlength hroom =>
      refine ⟨[endOpcode :: length :: rest.take (length.toNat - 2)], ?_, ?_, ?_⟩
      · simpa using (framed_cons_cons hlength hroom).1
      · exact ended_cons_iff.mpr (.inl ⟨rfl, rfl⟩)
      · exact ⟨rest.drop (length.toNat - 2), by simp⟩
  | case6 position opcode length rest hlength hroom hopcode ih =>
      obtain ⟨records, hframed, hended, behind, hbehind⟩ := ih h
      refine ⟨(opcode :: length :: rest.take (length.toNat - 2)) :: records, ?_, ?_, behind, ?_⟩
      · exact List.forall_mem_cons.mpr ⟨(framed_cons_cons hlength hroom).1, hframed⟩
      · exact ended_cons_iff.mpr (.inr ⟨by simpa using hopcode, hended⟩)
      · rw [List.flatten_cons, List.append_assoc, hbehind]
        simp

/-- An event can be measured just if its records stand at the offset, and its size is theirs. -/
theorem eventSize_eq_ok_iff :
    image.eventSize offset = .ok size ↔
      ∃ records, BeginsWith (image.bytes.drop offset.toNat) records ∧
        size = records.flatten.length := by
  unfold eventSize
  constructor
  · intro h
    split at h
    · cases h
    · obtain ⟨records, hrecords⟩ := exists_beginsWith h
      rw [recordsSize_of_beginsWith hrecords, Nat.zero_add] at h
      exact ⟨records, hrecords, (Except.ok.inj h).symm⟩
  · rintro ⟨records, hrecords, rfl⟩
    have hinside : ¬ image.size ≤ offset.toNat := by
      -- Behind the end of the image there are no bytes, but an event has a record at least.
      intro houtside
      obtain ⟨hframed, ⟨front, last, rfl, _⟩, hflatten⟩ := hrecords
      rw [List.drop_eq_nil_of_le houtside, List.prefix_nil] at hflatten
      have htwo := (hframed last (by simp)).two_le
      have hlength := congrArg List.length hflatten
      simp only [List.flatten_append, List.flatten_cons, List.flatten_nil, List.append_nil,
        List.length_append, List.length_nil] at hlength
      omega
    rw [if_neg hinside, recordsSize_of_beginsWith hrecords, Nat.zero_add]

end Image

namespace Listing

/-- An event that was measured can be listed, and the last of its lines is that of the record which
ends it. -/
theorem lines_of_eventSize {image : Image} {offset : UInt32} {size : Nat} (grammar : Grammar)
    (base : UInt32) (h : image.eventSize offset = .ok size) :
    ∃ front last, Bytes.CutInto ((image.bytes.drop offset.toNat).take size) (front ++ [last]) ∧
      last.head? = some Image.endOpcode ∧
      Listing.lines grammar base ((image.bytes.drop offset.toNat).take size) =
        .ok (recordLines (Listing.candidates grammar.toList) base front ++
          [decode (Listing.candidates grammar.toList)
            (base + UInt32.ofNat (size - last.length)) last]) := by
  obtain ⟨records, ⟨hframed, hended, hflatten⟩, rfl⟩ := Image.eventSize_eq_ok_iff.mp h
  obtain ⟨front, last, rfl, hlast, _⟩ := hended
  have hcut : Bytes.CutInto ((image.bytes.drop offset.toNat).take (front ++ [last]).flatten.length)
      (front ++ [last]) :=
    ⟨hframed, List.prefix_iff_eq_take.mp hflatten⟩
  refine ⟨front, last, hcut, hlast, lines_eq_ok_iff.mpr ⟨_, hcut, ?_⟩⟩
  simp [recordLines_append, recordLines_cons]

end Listing

namespace CommandLine.PatcherTask

/-- The listing of an event fails only where the event cannot be measured or has no address. -/
theorem listing_ne_listing_error (image : Image) (offset loadBase : UInt32)
    (fault : Listing.Error) :
    listing image offset loadBase ≠ .error (.listing fault) := by
  unfold listing
  intro h
  split at h
  · cases h
  · rename_i size hsize
    simp only at h
    split at h
    · cases h
    · rename_i address _
      obtain ⟨_, _, _, _, hlines⟩ := Listing.lines_of_eventSize .builtin address hsize
      rw [Listing.text, hlines] at h
      cases h

/-- The command that lists an event fails only where its image cannot be read, or the event cannot
be measured or has no address. -/
theorem run_list_ne_listing_error (path : String) (offset loadBase : UInt32) (session : Session)
    (fault : Listing.Error) :
    (((PatcherTask.list path offset loadBase).run Session.host).run.run session).1 ≠
      .error (.listing fault) := by
  have hread : ∀ {α : Type} (next : Option Bytes → Program (StateM Session) α),
      ((liftM (Session.host.read path) >>= next : Program (StateM Session) α).run.run session) =
        (next (session.folder.read? path)).run.run session := fun _ => rfl
  simp only [run, Host.readBytes, bind_assoc, hread]
  cases session.folder.read? path with
  | none =>
      intro h
      cases h
  | some bytes =>
      have hlisting := listing_ne_listing_error ⟨bytes⟩ offset loadBase fault
      rw [pure_bind]
      cases hresult : listing ⟨bytes⟩ offset loadBase with
      | error other =>
          intro h
          cases h
          exact hlisting hresult
      | ok text =>
          intro h
          cases h

end CommandLine.PatcherTask

/-- Both walks over records take the same bytes for records. Bytes can be listed just if they are a
concatenation of framed records; they give one line for each record, at the address of the record.
An event can be measured just if such records stand at its offset, of which the last and no other
ends an event; its size is theirs. So an event that was measured can be listed, its last line is
that of the record which ends it, and the command that lists an event never fails because of its
records. -/
theorem recordWalks_agree :
    (∀ (grammar : Grammar) (base : UInt32) (bytes : Bytes) (lines : List Listing.Line),
      Listing.lines grammar base bytes = .ok lines ↔
        ∃ records, bytes.CutInto records ∧
          lines = Listing.recordLines (Listing.candidates grammar.toList) base records) ∧
    (∀ (candidates : List Instruction) (base : UInt32) (records : List Bytes),
      (Listing.recordLines candidates base records).map Listing.Line.address =
        records.mapIdx fun index _ => base + UInt32.ofNat (records.take index).flatten.length) ∧
    (∀ (image : Image) (offset : UInt32) (size : Nat),
      image.eventSize offset = .ok size ↔
        ∃ records, Bytes.BeginsWith (image.bytes.drop offset.toNat) records ∧
          size = records.flatten.length) ∧
    (∀ (grammar : Grammar) (base : UInt32) (image : Image) (offset : UInt32) (size : Nat),
      image.eventSize offset = .ok size →
        ∃ front last, Bytes.CutInto ((image.bytes.drop offset.toNat).take size) (front ++ [last]) ∧
          last.head? = some Image.endOpcode ∧
          Listing.lines grammar base ((image.bytes.drop offset.toNat).take size) =
            .ok (Listing.recordLines (Listing.candidates grammar.toList) base front ++
              [Listing.decode (Listing.candidates grammar.toList)
                (base + UInt32.ofNat (size - last.length)) last])) ∧
    ∀ (path : String) (offset loadBase : UInt32) (session : Session) (fault : Listing.Error),
      (((PatcherTask.list path offset loadBase).run Session.host).run.run session).1 ≠
        .error (.listing fault) :=
  ⟨fun _ _ _ _ => Listing.lines_eq_ok_iff, fun _ _ _ => Listing.recordLines_address,
    fun _ _ _ => Image.eventSize_eq_ok_iff,
    fun grammar base _ _ _ => Listing.lines_of_eventSize grammar base,
    PatcherTask.run_list_ne_listing_error⟩

/-- An event of two records inside an image, with bytes in front and behind. -/
theorem recordWalks_agree_twoRecords :
    Image.eventSize ⟨[9, 1, 4, 7, 8, 0, 2, 5]⟩ 1 = .ok 6 ∧
      ∃ front last, Bytes.CutInto [1, 4, 7, 8, 0, 2] (front ++ [last]) ∧
        last.head? = some Image.endOpcode ∧
        Listing.lines .empty 0x8000001 [1, 4, 7, 8, 0, 2] =
          .ok (Listing.recordLines (Listing.candidates Grammar.empty.toList) 0x8000001 front ++
            [Listing.decode (Listing.candidates Grammar.empty.toList)
              (0x8000001 + UInt32.ofNat (6 - last.length)) last]) := by
  obtain ⟨_, _, hsize, hlines, _⟩ := recordWalks_agree
  have hmeasured : Image.eventSize ⟨[9, 1, 4, 7, 8, 0, 2, 5]⟩ 1 = .ok 6 := by
    refine (hsize _ _ _).mpr ⟨[[1, 4, 7, 8], [0, 2]], ⟨?_, ?_, ?_⟩, rfl⟩
    · simp [Bytes.Framed]
    · exact ⟨[[1, 4, 7, 8]], [0, 2], rfl, rfl, by simp [Image.endOpcode]⟩
    · exact ⟨[5], rfl⟩
  exact ⟨hmeasured, hlines .empty 0x8000001 _ _ _ hmeasured⟩

end EventScript
