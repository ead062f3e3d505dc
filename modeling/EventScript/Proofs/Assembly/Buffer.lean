import EventScript.Proofs.Encoding

/-!
# One buffer and a writer for every record

`assemble` writes all records into one buffer, notes where each of them stands and which places are
open, and fills these in at the end; `assembleRecords` gives every record a writer of its own.
Records that stand one behind the other (`LaidOut`) are what a buffer holds (`Draft.ofRecords`), and
a line takes one to the other (`Draft.statement_ofRecords`), hence so do all lines. A place lies
inside its record, so filling it in changes the bytes of that record only (`fillAll_within`), and
cutting the buffer gives the records back. So both assemble every script alike
(`assemble_eq_records`).
-/

namespace EventScript

/-- The writer with other bytes in front of its own, the first of which stands at `base`. -/
def Writer.behind (base : UInt32) (front : Bytes) (writer : Writer) : Writer :=
  ⟨base, front ++ writer.bytes⟩

/-- The place with `count` bytes more in front of it. -/
def Fixup.shift (count : Nat) (fixup : Fixup) : Fixup :=
  ⟨count + fixup.offset, fixup.label⟩

@[simp] theorem Fixup.offset_shift (count : Nat) (fixup : Fixup) :
    (fixup.shift count).offset = count + fixup.offset := rfl

@[simp] theorem Fixup.label_shift (count : Nat) (fixup : Fixup) :
    (fixup.shift count).label = fixup.label := rfl

namespace Writer

variable {base : UInt32} {front rest : Bytes} {writer after : Writer}

/-- Four bytes are replaced if they are aligned and were written before. -/
theorem patch_eq_ok_iff {offset : Nat} {value : UInt32} :
    writer.patch offset value = (after, .ok ()) ↔
      Width.word.aligned (writer.base + UInt32.ofNat offset) = true ∧ offset + 4 ≤ writer.size ∧
        after = { writer with
          bytes := writer.bytes.take offset ++ LittleEndian.encode 4 value.toNat ++
            writer.bytes.drop (offset + 4) } := by
  unfold patch
  by_cases haligned : Width.word.aligned (writer.base + UInt32.ofNat offset) = true
  · by_cases hroom : offset + 4 ≤ writer.size
    · simp [haligned, hroom, Nat.not_lt.mpr hroom, eq_comm]
    · simp [haligned, hroom, Nat.lt_of_not_le hroom]
  · simp [haligned]

/-- Replacing four bytes leaves the base and the size. -/
theorem base_size_of_patch {offset : Nat} {value : UInt32}
    (h : writer.patch offset value = (after, .ok ())) :
    after.base = writer.base ∧ after.size = writer.size := by
  obtain ⟨_, hroom, rfl⟩ := patch_eq_ok_iff.mp h
  refine ⟨rfl, ?_⟩
  simp only [size] at *
  simp only [List.length_append, List.length_take, LittleEndian.length_encode, List.length_drop]
  omega

/-- A word can be filled in where the fixup fits, and it still does afterwards. -/
theorem patch_of_fits {fixup : Fixup} (h : fixup.Fits writer.base writer.size) (address : UInt32) :
    ∃ after, writer.patch fixup.offset address = (after, .ok ()) ∧ after.base = writer.base ∧
      after.size = writer.size := by
  have hpatch : writer.patch fixup.offset address = (_, .ok ()) :=
    patch_eq_ok_iff.mpr ⟨h.1, h.2, rfl⟩
  exact ⟨_, hpatch, base_size_of_patch hpatch⟩

/-- Bytes in front do not change the address of the next byte. -/
theorem address_behind (h : writer.base = base + UInt32.ofNat front.length) :
    (writer.behind base front).address = writer.address := by
  simp only [address, behind, size, h, List.length_append]
  rw [Field.add_ofNat_add]

/-- A number is written behind other bytes as it is written without them. -/
theorem put_behind (h : writer.base = base + UInt32.ofNat front.length) (width : Width)
    (value : UInt32) :
    (writer.behind base front).put width value =
      ((writer.put width value).1.behind base front, (writer.put width value).2) := by
  simp only [put, address_behind h]
  split
  · simp [behind, putBytes]
  · rfl

/-- Writing a number leaves the base. -/
theorem base_put (writer : Writer) (width : Width) (value : UInt32) :
    (writer.put width value).1.base = writer.base := by
  unfold put
  split
  · rfl
  · rfl

/-- Four bytes between others are replaced as they are replaced without them. -/
theorem patch_within (h : writer.base = base + UInt32.ofNat front.length) {offset : Nat}
    {value : UInt32} (hpatch : writer.patch offset value = (after, .ok ())) :
    (⟨base, front ++ (writer.bytes ++ rest)⟩ : Writer).patch (front.length + offset) value =
      (⟨base, front ++ (after.bytes ++ rest)⟩, .ok ()) := by
  obtain ⟨haligned, hroom, rfl⟩ := patch_eq_ok_iff.mp hpatch
  rw [size] at hroom
  refine patch_eq_ok_iff.mpr ⟨?_, ?_, ?_⟩
  · show Width.word.aligned (base + UInt32.ofNat (front.length + offset)) = true
    rw [Field.add_ofNat_add, ← h]
    exact haligned
  · show front.length + offset + 4 ≤ (front ++ (writer.bytes ++ rest)).length
    simp only [List.length_append]
    omega
  · have htake : (front ++ (writer.bytes ++ rest)).take (front.length + offset) =
        front ++ writer.bytes.take offset := by
      rw [List.take_length_add_append, List.take_append_of_le_length (by omega)]
    have hdrop : (front ++ (writer.bytes ++ rest)).drop (front.length + offset + 4) =
        writer.bytes.drop (offset + 4) ++ rest := by
      rw [Nat.add_assoc, List.drop_length_add_append, List.drop_append_of_le_length hroom]
    simp only [htake, hdrop, List.append_assoc]

end Writer

namespace Instruction

variable {base : UInt32} {front : Bytes} {writer : Writer} {arguments : List Argument}

/-- Writing a number leaves the base. -/
theorem base_putNumber (writer : Writer) (width : Width) (value : UInt32) :
    (putNumber writer width value).1.base = writer.base := by
  have hbase := Writer.base_put writer width value
  simp only [putNumber]
  generalize writer.put width value = result at hbase ⊢
  obtain ⟨after, outcome⟩ := result
  cases outcome <;> exact hbase

/-- Writing a field leaves the base. -/
theorem base_encodeField (arguments : List Argument) (writer : Writer) (field : Field) :
    (encodeField arguments writer field).1.base = writer.base := by
  cases field with
  | literal byte => rfl
  | slot operand width =>
      simp only [encodeField]
      split
      · rfl
      · have hbase := base_putNumber writer .word unresolved
        generalize putNumber writer .word unresolved = result at hbase ⊢
        obtain ⟨after, outcome⟩ := result
        cases outcome <;> exact hbase
      · rename_i value _
        split
        · have hbase := base_putNumber writer width value
          generalize putNumber writer width value = result at hbase ⊢
          obtain ⟨after, outcome⟩ := result
          cases outcome <;> exact hbase
        · rfl

/-- A field is written behind other bytes as it is written without them. -/
theorem encodeField_behind (h : writer.base = base + UInt32.ofNat front.length) (field : Field) :
    encodeField arguments (writer.behind base front) field =
      ((encodeField arguments writer field).1.behind base front,
        (encodeField arguments writer field).2.map (List.map (Fixup.shift front.length))) := by
  have hput : ∀ width value, putNumber (writer.behind base front) width value =
      ((putNumber writer width value).1.behind base front, (putNumber writer width value).2) := by
    intro width value
    simp only [putNumber, Writer.put_behind h]
    obtain ⟨after, outcome⟩ := writer.put width value
    cases outcome <;> rfl
  have hsize : (writer.behind base front).size = front.length + writer.size := by
    simp [Writer.behind, Writer.size]
  cases field with
  | literal byte => simp [encodeField, Writer.behind, Writer.putBytes, Except.map]
  | slot operand width =>
      simp only [encodeField]
      cases arguments[operand]? with
      | none => rfl
      | some argument =>
          cases argument with
          | label name =>
              simp only [hput, hsize]
              obtain ⟨after, outcome⟩ := putNumber writer .word unresolved
              cases outcome <;> rfl
          | value value =>
              simp only [hput]
              split
              · obtain ⟨after, outcome⟩ := putNumber writer width value
                cases outcome <;> rfl
              · rfl

/-- Fields are written behind other bytes as they are written without them. -/
theorem encodeFields_behind (h : writer.base = base + UInt32.ofNat front.length)
    (fields : List Field) :
    encodeFields arguments (writer.behind base front) fields =
      ((encodeFields arguments writer fields).1.behind base front,
        (encodeFields arguments writer fields).2.map (List.map (Fixup.shift front.length))) := by
  induction fields generalizing writer with
  | nil => rfl
  | cons field rest ih =>
      have hbase := base_encodeField arguments writer field
      simp only [encodeFields, encodeField_behind h]
      generalize encodeField arguments writer field = result at hbase ⊢
      obtain ⟨after, outcome⟩ := result
      cases outcome with
      | error fault => rfl
      | ok fixups =>
          simp only [Except.map, ih (hbase.trans h)]
          obtain ⟨final, outcome⟩ := encodeFields arguments after rest
          cases outcome with
          | error fault => rfl
          | ok more => simp

end Instruction

namespace Assembly

variable {base : UInt32} {front : Bytes} {writer : Writer} {grammar : Grammar}
  {symbols : SymbolTable} {place : Place} {records : List OpenRecord} {state : State}

/-- The record of an instruction is written behind other bytes as it is written without them. -/
theorem write_behind (h : writer.base = base + UInt32.ofNat front.length) (mnemonic : String)
    (operands : List Token) :
    write grammar symbols place mnemonic operands (writer.behind base front) =
      (write grammar symbols place mnemonic operands writer).map fun result =>
        (result.1.behind base front, result.2.map (Fixup.shift front.length)) := by
  unfold write
  split
  · cases Statement.rawRecord place symbols operands with
    | error fault => rfl
    | ok bytes => simp [Except.map, Writer.behind, Writer.putBytes]
  · cases grammar.get? mnemonic with
    | none => rfl
    | some instruction =>
        simp only [Instruction.encode, Instruction.encodeFields_behind h]
        cases Statement.arguments place symbols instruction.kinds operands with
        | error fault => rfl
        | ok arguments =>
            dsimp only
            obtain ⟨after, outcome⟩ :=
              Instruction.encodeFields arguments writer instruction.template.fields
            cases outcome <;> rfl

/-- Every label of the record can be filled in. -/
def OpenRecord.Fits (record : OpenRecord) : Prop :=
  ∀ fixup ∈ record.fixups, fixup.Fits record.writer.base record.writer.size

/-- What is written behind other bytes stands there, and the places of its labels lie in it. -/
theorem fits_of_write {mnemonic : String} {operands : List Token} {after : Writer}
    {fixups : List Fixup}
    (h : write grammar symbols place mnemonic operands writer = .ok (after, fixups)) :
    after.base = writer.base ∧ ∀ fixup ∈ fixups, fixup.Fits after.base after.size := by
  unfold write at h
  split at h
  · split at h
    · cases h
    · cases h
      exact ⟨rfl, fun fixup hfixup => absurd hfixup List.not_mem_nil⟩
  · split at h
    · cases h
    · split at h
      · cases h
      · split at h
        · cases h
        · rename_i hencode
          cases h
          obtain ⟨bytes, rfl, hopens⟩ := Instruction.encodeFields_eq_ok_iff.mp hencode
          rw [Writer.putBytes_base, Writer.putBytes_size]
          exact ⟨rfl, hopens.fits⟩

/-- The record of a state stands at its address, and the places of its labels lie in it. -/
theorem State.fits_of_record {mnemonic : String} {operands : List Token} {record : OpenRecord}
    (h : state.record grammar place mnemonic operands = .ok record) :
    record.writer.base = state.address ∧ record.Fits := by
  unfold State.record at h
  split at h
  · cases h
  · rename_i hwrite
    cases h
    exact fits_of_write hwrite

/-- The bytes of records, one behind the other. -/
def bytesOf (records : List OpenRecord) : Bytes :=
  records.flatMap fun record => record.writer.bytes

@[simp] theorem bytesOf_nil : bytesOf [] = [] := rfl

@[simp] theorem bytesOf_cons (record : OpenRecord) (rest : List OpenRecord) :
    bytesOf (record :: rest) = record.writer.bytes ++ bytesOf rest := rfl

@[simp] theorem bytesOf_append (first second : List OpenRecord) :
    bytesOf (first ++ second) = bytesOf first ++ bytesOf second :=
  List.flatMap_append

/-- Where records stand that begin behind `start` bytes of the buffer. -/
def spansFrom (start : Nat) : List OpenRecord → List Span
  | [] => []
  | record :: rest =>
      ⟨start, start + record.writer.size, record.place.number, record.mnemonic⟩ ::
        spansFrom (start + record.writer.size) rest

/-- The open places of records that begin behind `start` bytes of the buffer. -/
def pendingFrom (start : Nat) : List OpenRecord → List Pending
  | [] => []
  | record :: rest =>
      record.fixups.map (fun fixup => ⟨record.place, fixup.shift start⟩) ++
        pendingFrom (start + record.writer.size) rest

/-- The buffer that holds the given records. -/
def Draft.ofRecords (base : UInt32) (symbols : SymbolTable) (records : List OpenRecord) : Draft :=
  ⟨symbols, ⟨base, bytesOf records⟩, spansFrom 0 records, pendingFrom 0 records⟩

/-- Before the first line the buffer holds no records. -/
theorem Draft.start_eq_ofRecords (base : UInt32) (constants : Constants) :
    Draft.start base constants = Draft.ofRecords base (State.start base constants).symbols [] := rfl

@[simp] theorem Draft.symbols_ofRecords :
    (Draft.ofRecords base symbols records).symbols = symbols := rfl

/-- The records stand one behind the other, the first of them behind `start` bytes, and the places
of their labels lie in them. -/
def LaidOut (base : UInt32) (start : Nat) : List OpenRecord → Prop
  | [] => True
  | record :: rest =>
      record.writer.base = base + UInt32.ofNat start ∧ record.Fits ∧
        LaidOut base (start + record.writer.size) rest

theorem spansFrom_concat (start : Nat) (records : List OpenRecord) (record : OpenRecord) :
    spansFrom start (records ++ [record]) =
      spansFrom start records ++ [⟨start + (bytesOf records).length,
        start + (bytesOf records).length + record.writer.size, record.place.number,
        record.mnemonic⟩] := by
  induction records generalizing start with
  | nil => rfl
  | cons first rest ih =>
      simp [spansFrom, ih, Writer.size, Nat.add_assoc]

theorem pendingFrom_concat (start : Nat) (records : List OpenRecord) (record : OpenRecord) :
    pendingFrom start (records ++ [record]) =
      pendingFrom start records ++ record.fixups.map fun fixup =>
        ⟨record.place, fixup.shift (start + (bytesOf records).length)⟩ := by
  induction records generalizing start with
  | nil => simp [pendingFrom]
  | cons first rest ih =>
      simp [pendingFrom, ih, Writer.size, Nat.add_assoc]

theorem LaidOut.concat {start : Nat} {record : OpenRecord} (h : LaidOut base start records)
    (hbase : record.writer.base = base + UInt32.ofNat (start + (bytesOf records).length))
    (hfits : record.Fits) : LaidOut base start (records ++ [record]) := by
  induction records generalizing start with
  | nil => exact ⟨hbase, hfits, trivial⟩
  | cons first rest ih =>
      obtain ⟨hfirst, hfirstFits, hrest⟩ := h
      refine ⟨hfirst, hfirstFits, ih hrest ?_⟩
      rw [hbase, bytesOf_cons, List.length_append, Writer.size, Nat.add_assoc]

/-- The open places of records lie in the buffer that holds them. -/
theorem LaidOut.fits {start : Nat} (h : LaidOut base start records) {pending : Pending}
    (hpending : pending ∈ pendingFrom start records) :
    pending.fixup.Fits base (start + (bytesOf records).length) := by
  induction records generalizing start with
  | nil => cases hpending
  | cons record rest ih =>
      obtain ⟨hbase, hfits, hrest⟩ := h
      rw [pendingFrom, List.mem_append] at hpending
      rw [bytesOf_cons, List.length_append, ← Nat.add_assoc]
      rcases hpending with hfirst | hlater
      · obtain ⟨fixup, hfixup, rfl⟩ := List.mem_map.mp hfirst
        obtain ⟨haligned, hroom⟩ := hfits fixup hfixup
        rw [hbase, ← Field.add_ofNat_add] at haligned
        rw [Writer.size] at hroom
        refine ⟨haligned, ?_⟩
        show start + fixup.offset + 4 ≤ _
        omega
      · exact ih hrest hlater

/-- The records that lines have written, and the address where they end. -/
structure Written (base : UInt32) (state : State) (records : List OpenRecord) : Prop where
  laidOut : LaidOut base 0 records
  address : state.address = base + UInt32.ofNat (bytesOf records).length

/-- Nothing is written before the first line. -/
theorem written_start (base : UInt32) (constants : Constants) :
    Written base (.start base constants) [] := by
  refine ⟨trivial, ?_⟩
  simp [State.start]

/-- A name is given beside the buffer. -/
theorem Draft.define_ofRecords (name : String) (symbol : Symbol) :
    (Draft.ofRecords base state.symbols records).define place name symbol =
      ((state.define place name symbol).map (·, (none : Option OpenRecord))).map fun result =>
        Draft.ofRecords base result.1.symbols (records ++ result.2.toList) := by
  simp only [Draft.define, State.define, Draft.ofRecords]
  cases state.symbols.define? name symbol with
  | none => rfl
  | some given => simp [Except.map]

/-- A record is added to the buffer behind those that are there. -/
theorem Draft.add_ofRecords (h : Written base state records) (mnemonic : String)
    (operands : List Token) :
    (Draft.ofRecords base state.symbols records).add grammar place mnemonic operands =
      (state.record grammar place mnemonic operands).map fun record =>
        Draft.ofRecords base state.symbols (records ++ [record]) := by
  have hbehind : (⟨base, bytesOf records⟩ : Writer) =
      (Writer.start state.address).behind base (bytesOf records) := by
    simp [Writer.behind, Writer.start]
  have hstart : (Writer.start state.address).base =
      base + UInt32.ofNat (bytesOf records).length := h.address
  simp only [Draft.add, Draft.ofRecords, State.record]
  rw [hbehind, write_behind hstart]
  cases write grammar state.symbols place mnemonic operands (.start state.address) with
  | error fault => rfl
  | ok result =>
      obtain ⟨writer, fixups⟩ := result
      simp [Except.map, spansFrom_concat, pendingFrom_concat, Writer.behind, Writer.size,
        Writer.start]

/-- A statement does to the buffer what it does to the records. -/
theorem Draft.statement_ofRecords (h : Written base state records) (statement : Statement) :
    (Draft.ofRecords base state.symbols records).statement grammar place statement =
      (state.statement grammar place statement).map fun result =>
        Draft.ofRecords base result.1.symbols (records ++ result.2.toList) := by
  cases statement with
  | blank => simp [Draft.statement, State.statement, Except.map]
  | mark name =>
      have haddress : (Draft.ofRecords base state.symbols records).writer.address =
          state.address := h.address.symm
      simp only [Draft.statement, State.statement, haddress]
      exact Draft.define_ofRecords name _
  | label name value =>
      simp only [Draft.statement, State.statement, Draft.symbols_ofRecords]
      cases Statement.valueOf place state.symbols TokenClass.definition.text value with
      | error fault => rfl
      | ok address => exact Draft.define_ofRecords name _
  | constant name value =>
      simp only [Draft.statement, State.statement, Draft.symbols_ofRecords]
      cases Statement.valueOf place state.symbols OperandKind.value.text value with
      | error fault => rfl
      | ok value => exact Draft.define_ofRecords name _
  | instruction mnemonic operands =>
      simp only [Draft.statement, State.statement, Draft.add_ofRecords h]
      cases state.record grammar place mnemonic operands <;> rfl

/-- A statement adds its record behind those that are there. -/
theorem Written.statement (h : Written base state records) {statement : Statement} {after : State}
    {record : Option OpenRecord}
    (hstatement : state.statement grammar place statement = .ok (after, record)) :
    Written base after (records ++ record.toList) := by
  have hdefine : ∀ {name symbol},
      (state.define place name symbol).map (·, none) = .ok (after, record) →
      Written base after (records ++ record.toList) := by
    intro name symbol hname
    unfold State.define at hname
    cases hgiven : state.symbols.define? name symbol with
    | none =>
        rw [hgiven] at hname
        cases hname
    | some given =>
        rw [hgiven] at hname
        cases hname
        rw [Option.toList_none, List.append_nil]
        exact ⟨h.laidOut, h.address⟩
  cases statement with
  | blank =>
      cases hstatement
      rw [Option.toList_none, List.append_nil]
      exact h
  | mark name => exact hdefine hstatement
  | label name value | constant name value =>
      simp only [State.statement] at hstatement
      split at hstatement
      · cases hstatement
      · exact hdefine hstatement
  | instruction mnemonic operands =>
      simp only [State.statement] at hstatement
      split at hstatement
      · cases hstatement
      · rename_i opened hopened
        cases hstatement
        obtain ⟨hbase, hfits⟩ := State.fits_of_record hopened
        refine ⟨h.laidOut.concat (by rw [hbase, h.address, Nat.zero_add]) hfits, ?_⟩
        show opened.writer.base + UInt32.ofNat opened.writer.size = _
        rw [Option.toList_some, bytesOf_append, List.length_append, Field.add_ofNat_add, hbase,
          h.address]
        simp [Writer.size]

/-- Lines do to the buffer what they do to the records, and add theirs behind those that are there.
-/
theorem Draft.lines_ofRecords (h : Written base state records) (number : Nat)
    (texts : List (List Char)) :
    (Draft.ofRecords base state.symbols records).lines grammar number texts =
      (state.lines grammar number texts).map fun result =>
        Draft.ofRecords base result.1.symbols (records ++ result.2) := by
  induction texts generalizing state records number with
  | nil => simp [Draft.lines, State.lines, Except.map]
  | cons text rest ih =>
      simp only [Draft.lines, State.lines, Draft.line, State.line]
      cases Token.scan number text with
      | error fault => rfl
      | ok tokens =>
          dsimp only
          cases Statement.ofTokens ⟨number, String.ofList (Text.trim text)⟩ tokens with
          | error fault => rfl
          | ok statement =>
              dsimp only
              rw [Draft.statement_ofRecords h]
              cases hstatement :
                state.statement grammar ⟨number, String.ofList (Text.trim text)⟩ statement with
              | error fault => rfl
              | ok result =>
                  obtain ⟨after, record⟩ := result
                  simp only [Except.map, ih (h.statement hstatement)]
                  cases after.lines grammar (number + 1) rest with
                  | error fault => rfl
                  | ok result => simp

/-- Lines add their records behind those that are there. -/
theorem Written.lines (h : Written base state records) {number : Nat} {texts : List (List Char)}
    {final : State} {more : List OpenRecord}
    (hlines : state.lines grammar number texts = .ok (final, more)) :
    Written base final (records ++ more) := by
  induction texts generalizing state records number more with
  | nil =>
      cases hlines
      rw [List.append_nil]
      exact h
  | cons text rest ih =>
      simp only [State.lines, State.line] at hlines
      split at hlines
      · cases hlines
      · rename_i after record hline
        split at hlines
        · cases hlines
        · rename_i others hrest
          cases hlines
          split at hline
          · cases hline
          · split at hline
            · cases hline
            · have hwritten := ih (h.statement hline) hrest
              rwa [List.append_assoc] at hwritten

/-- Places are filled in one list after the other. -/
theorem fillAll_append (symbols : SymbolTable) (writer : Writer) (first second : List Pending) :
    fillAll symbols writer (first ++ second) =
      (fillAll symbols writer first).bind fun after => fillAll symbols after second := by
  induction first generalizing writer with
  | nil => rfl
  | cons pending rest ih =>
      simp only [List.cons_append, fillAll]
      cases symbols.label? pending.fixup.label with
      | none => rfl
      | some address =>
          dsimp only
          obtain ⟨after, outcome⟩ := writer.patch pending.fixup.offset address
          cases outcome with
          | error fault => rfl
          | ok => exact ih after

/-- Filling in places leaves the base and the size. -/
theorem base_size_of_fill {closed : Writer} {fixups : List Fixup}
    (h : fill symbols place writer fixups = .ok closed) :
    closed.base = writer.base ∧ closed.size = writer.size := by
  induction fixups generalizing writer with
  | nil =>
      cases h
      exact ⟨rfl, rfl⟩
  | cons fixup rest ih =>
      obtain ⟨address, after, _, hpatch, hrest⟩ := fill_cons_eq_ok_iff.mp h
      obtain ⟨hbase, hsize⟩ := Writer.base_size_of_patch hpatch
      obtain ⟨hclosedBase, hclosedSize⟩ := ih hrest
      exact ⟨hclosedBase.trans hbase, hclosedSize.trans hsize⟩

/-- The places of a record are filled in between other records as they are filled in without them.
-/
theorem fillAll_within (h : writer.base = base + UInt32.ofNat front.length) (rest : Bytes)
    {fixups : List Fixup} (hfits : ∀ fixup ∈ fixups, fixup.Fits writer.base writer.size) :
    fillAll symbols ⟨base, front ++ (writer.bytes ++ rest)⟩
        (fixups.map fun fixup => ⟨place, fixup.shift front.length⟩) =
      (fill symbols place writer fixups).map fun closed =>
        ⟨base, front ++ (closed.bytes ++ rest)⟩ := by
  induction fixups generalizing writer with
  | nil => rfl
  | cons fixup others ih =>
      obtain ⟨hfirst, hothers⟩ := List.forall_mem_cons.mp hfits
      simp only [List.map_cons, fillAll, Fixup.label_shift, Fixup.offset_shift]
      cases hlabel : symbols.label? fixup.label with
      | none =>
          rw [fill_cons_of_none hlabel]
          rfl
      | some address =>
          obtain ⟨after, hpatch, hbase, hsize⟩ := Writer.patch_of_fits hfirst address
          rw [fill_cons_of_patch hlabel hpatch, ← ih (hbase.trans h) (hbase ▸ hsize ▸ hothers)]
          have hwithin : (⟨base, front ++ (writer.bytes ++ rest)⟩ : Writer).patch
              (front.length + fixup.offset) address = _ := Writer.patch_within h hpatch
          simp only [hwithin]

/-- The buffer after lines holds their records. -/
theorem Draft.lines_start_eq_ok_iff {constants : Constants} {number : Nat}
    {texts : List (List Char)} {draft : Draft} :
    (Draft.start base constants).lines grammar number texts = .ok draft ↔
      ∃ final opened,
        (State.start base constants).lines grammar number texts = .ok (final, opened) ∧
        draft = Draft.ofRecords base final.symbols opened := by
  rw [Draft.start_eq_ofRecords, Draft.lines_ofRecords (written_start base constants)]
  cases (State.start base constants).lines grammar number texts with
  | error fault => simp [Except.map]
  | ok result =>
      obtain ⟨final, opened⟩ := result
      simp [Except.map, eq_comm]

/-- Lines fail with one buffer just as they fail with a writer for every record. -/
theorem Draft.lines_start_eq_error_iff {constants : Constants} {number : Nat}
    {texts : List (List Char)} {fault : AssemblyError} :
    (Draft.start base constants).lines grammar number texts = .error fault ↔
      (State.start base constants).lines grammar number texts = .error fault := by
  rw [Draft.start_eq_ofRecords, Draft.lines_ofRecords (written_start base constants)]
  cases (State.start base constants).lines grammar number texts <;> simp [Except.map]

/-- Filling in the places in the buffer fills in those of every record. -/
theorem fillAll_pendingFrom (h : LaidOut base front.length records) :
    fillAll symbols ⟨base, front ++ bytesOf records⟩ (pendingFrom front.length records) =
      (closeAll symbols records).map fun closed =>
        ⟨base, front ++ closed.flatMap Record.bytes⟩ := by
  -- A record whose places are filled in moves to the front, and has the size that it had.
  induction records generalizing front with
  | nil => simp [pendingFrom, closeAll, fillAll, Except.map]
  | cons record rest ih =>
      obtain ⟨hbase, hfits, hrest⟩ := h
      rw [pendingFrom, bytesOf_cons, fillAll_append, fillAll_within hbase _ hfits, closeAll,
        OpenRecord.close]
      cases hfill : fill symbols record.place record.writer record.fixups with
      | error fault => rfl
      | ok closed =>
          obtain ⟨_, hsize⟩ := base_size_of_fill hfill
          have hlength : front.length + record.writer.size = (front ++ closed.bytes).length := by
            rw [← hsize, List.length_append, Writer.size]
          rw [hlength] at hrest ⊢
          simp only [Except.map, Except.bind]
          rw [← List.append_assoc, ih hrest]
          cases closeAll symbols rest with
          | error fault => rfl
          | ok others => simp [Except.map]

/-- Cutting the buffer gives the records back whose places were filled in. -/
theorem map_record_spansFrom {closed : List Record} (h : LaidOut base front.length records)
    (hclose : closeAll symbols records = .ok closed) :
    (spansFrom front.length records).map
        (Span.record ⟨base, front ++ closed.flatMap Record.bytes⟩) = closed := by
  induction records generalizing front closed with
  | nil =>
      cases hclose
      rfl
  | cons record rest ih =>
      obtain ⟨hbase, hfits, hrest⟩ := h
      rw [closeAll, OpenRecord.close] at hclose
      cases hfill : fill symbols record.place record.writer record.fixups with
      | error fault =>
          rw [hfill] at hclose
          cases hclose
      | ok filled =>
          rw [hfill] at hclose
          cases hothers : closeAll symbols rest with
          | error fault =>
              rw [hothers] at hclose
              cases hclose
          | ok others =>
              rw [hothers] at hclose
              cases hclose
              obtain ⟨hsame, hsize⟩ := base_size_of_fill hfill
              have hlength : front.length + record.writer.size =
                  (front ++ filled.bytes).length := by
                rw [← hsize, List.length_append, Writer.size]
              have hlater := ih (hlength ▸ hrest) hothers
              rw [← hlength, List.append_assoc] at hlater
              have htake : (filled.bytes ++ others.flatMap Record.bytes).take
                  record.writer.size = filled.bytes := by
                rw [← hsize, Writer.size, List.take_left]
              rw [spansFrom, List.map_cons, List.flatMap_cons, hlater]
              simp only [Span.record, List.drop_left, Nat.add_sub_cancel_left, htake, ← hbase,
                hsame]

/-- With one buffer for all records, a script is assembled as with a writer for every record. -/
theorem assemble_eq_records (grammar : Grammar) (base : UInt32) (constants : Constants)
    (script : String) :
    assemble grammar base constants script = assembleRecords grammar base constants script := by
  have hstart := written_start base constants
  rw [assemble, assembleRecords, Draft.start_eq_ofRecords, Draft.lines_ofRecords hstart]
  cases hlines : (State.start base constants).lines grammar 1 (Text.linesOf script) with
  | error fault => rfl
  | ok result =>
      obtain ⟨state, records⟩ := result
      have hlaid : LaidOut base ([] : Bytes).length records := (hstart.lines hlines).laidOut
      have hfill :
          fillAll state.symbols ⟨base, [] ++ bytesOf records⟩ (pendingFrom 0 records) = _ :=
        fillAll_pendingFrom hlaid
      simp only [Except.map, Draft.ofRecords, List.nil_append] at hfill ⊢
      rw [hfill]
      cases hclose : closeAll state.symbols records with
      | error fault => rfl
      | ok closed =>
          have hrecords : (spansFrom 0 records).map
              (Span.record ⟨base, [] ++ closed.flatMap Record.bytes⟩) = closed :=
            map_record_spansFrom hlaid hclose
          rw [List.nil_append] at hrecords
          simp only [hrecords]

end Assembly

end EventScript
