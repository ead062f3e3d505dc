import EventScript.Proofs.Assembly.Records
import EventScript.Proofs.Grammar

/-!
# Records from templates

`Field.Encodes` says directly which bytes the fields of a template have when the operands have given
values. An instruction is encoded in two goes: `Field.Opens` describes the first, in which labels
are left open, and `Opens.fill_eq_ok_iff` says that filling them in gives exactly the direct
encoding.
-/

namespace EventScript

/-- A number that fits into a byte is the number of this byte. -/
theorem Width.toUInt32_toUInt8_of_fits {value : UInt32} (h : Width.byte.fits value = true) :
    value.toUInt8.toUInt32 = value := by
  have hlt : value.toNat < 256 := by simpa [Width.fits, Width.size, LittleEndian.limit] using h
  apply UInt32.toNat_inj.mp
  rw [UInt8.toNat_toUInt32, UInt32.toNat_toUInt8]
  exact Nat.mod_eq_of_lt hlt

/-- The number that a byte stands for fits into a byte. -/
@[simp] theorem Width.fits_byte_toUInt32 (byte : UInt8) : Width.byte.fits byte.toUInt32 = true := by
  have := byte.toNat_lt
  simp [Width.fits, Width.size, LittleEndian.limit, this]

/-- Moving an address by a multiple of four leaves it as aligned as it was. -/
theorem Width.aligned_add (width : Width) {address distance : UInt32} (h : distance.toNat % 4 = 0) :
    width.aligned (address + distance) = width.aligned address := by
  have hmod : (address + distance).toNat % width.size = address.toNat % width.size := by
    rw [UInt32.toNat_add]
    cases width <;> simp only [Width.size] <;> omega
  simp only [Width.aligned, hmod]

/-- The fixup stands where a word can be filled in, in a writer with the given base and size. -/
def Fixup.Fits (base : UInt32) (size : Nat) (fixup : Fixup) : Prop :=
  Width.word.aligned (base + UInt32.ofNat fixup.offset) = true ∧ fixup.offset + 4 ≤ size

namespace Field

/-- The bytes of fields in which the operands have the given values. A slot holds the value of its
operand, least significant byte first. -/
inductive Encodes (value? : Nat → Option UInt32) : List Field → Bytes → Prop where
  | nil : Encodes value? [] []
  | literal {byte fields bytes} :
      Encodes value? fields bytes → Encodes value? (.literal byte :: fields) (byte :: bytes)
  | slot {operand width value fields bytes} :
      value? operand = some value → width.fits value = true → Encodes value? fields bytes →
      Encodes value? (.slot operand width :: fields)
        (LittleEndian.encode width.size value.toNat ++ bytes)

/-- The bytes and the places of labels that are written for fields behind `offset` bytes at an
address. Slots of labels are left open. -/
inductive Opens (arguments : List Argument) (base : UInt32) :
    Nat → List Field → Bytes → List Fixup → Prop where
  | nil {offset} : Opens arguments base offset [] [] []
  | literal {offset byte fields bytes fixups} :
      Opens arguments base (offset + 1) fields bytes fixups →
      Opens arguments base offset (.literal byte :: fields) (byte :: bytes) fixups
  | value {offset operand width value fields bytes fixups} :
      arguments[operand]? = some (.value value) → width.fits value = true →
      width.aligned (base + UInt32.ofNat offset) = true →
      Opens arguments base (offset + width.size) fields bytes fixups →
      Opens arguments base offset (.slot operand width :: fields)
        (LittleEndian.encode width.size value.toNat ++ bytes) fixups
  | label {offset operand width name fields bytes fixups} :
      arguments[operand]? = some (.label name) →
      Width.word.aligned (base + UInt32.ofNat offset) = true →
      Opens arguments base (offset + 4) fields bytes fixups →
      Opens arguments base offset (.slot operand width :: fields)
        (LittleEndian.encode 4 Instruction.unresolved.toNat ++ bytes) (⟨offset, name⟩ :: fixups)

/-- Labels among the arguments have slots of four bytes only. -/
def LabelsWide (arguments : List Argument) (fields : List Field) : Prop :=
  ∀ operand width name, Field.slot operand width ∈ fields →
    arguments[operand]? = some (.label name) → width = .word

/-- Every slot stands at an address that its width divides, if the fields stand at the given one. -/
def AlignedAt (address : UInt32) : List Field → Prop
  | [] => True
  | .literal _ :: rest => AlignedAt (address + 1) rest
  | .slot _ width :: rest =>
      width.aligned address = true ∧ AlignedAt (address + UInt32.ofNat width.size) rest

theorem LabelsWide.tail {arguments : List Argument} {field : Field} {fields : List Field}
    (h : LabelsWide arguments (field :: fields)) : LabelsWide arguments fields :=
  fun operand width name hslot => h operand width name (List.mem_cons_of_mem _ hslot)

/-- An address plus two counts. -/
theorem add_ofNat_add (address : UInt32) (first second : Nat) :
    address + UInt32.ofNat (first + second) =
      address + UInt32.ofNat first + UInt32.ofNat second := by
  rw [UInt32.ofNat_add, UInt32.add_assoc]

/-- Fields take the sum of their sizes. -/
theorem Encodes.length_eq {value? : Nat → Option UInt32} {fields : List Field} {bytes : Bytes}
    (h : Encodes value? fields bytes) : bytes.length = Field.totalSize fields := by
  induction h with
  | nil => rfl
  | literal _ ih => simp [Field.totalSize, Field.size, ih, Nat.add_comm]
  | slot _ _ _ ih => simp [Field.totalSize, Field.size, ih]

/-- Direct encodings only depend on the values that slots hold. -/
theorem Encodes.mono {first second : Nat → Option UInt32} {fields : List Field} {bytes : Bytes}
    (h : Encodes first fields bytes)
    (hmono : ∀ operand value, first operand = some value → second operand = some value) :
    Encodes second fields bytes := by
  induction h with
  | nil => exact .nil
  | literal _ ih => exact .literal ih
  | slot hvalue hfits _ ih => exact .slot (hmono _ _ hvalue) hfits ih

/-- Fields whose labels are open take the sum of their sizes. -/
theorem Opens.length_eq {arguments : List Argument} {base : UInt32} {offset : Nat}
    {fields : List Field} {bytes : Bytes} {fixups : List Fixup}
    (h : Opens arguments base offset fields bytes fixups) (hwide : LabelsWide arguments fields) :
    bytes.length = Field.totalSize fields := by
  induction h with
  | nil => rfl
  | literal _ ih => simp [Field.totalSize, Field.size, ih hwide.tail, Nat.add_comm]
  | value _ _ _ _ ih => simp [Field.totalSize, Field.size, ih hwide.tail]
  | label hargument _ _ ih =>
      obtain rfl := hwide _ _ _ List.mem_cons_self hargument
      simp [Field.totalSize, Field.size, Width.size, ih hwide.tail]

end Field

/-- The value of an argument, given the addresses of labels. -/
def Argument.value? (labels : String → Option UInt32) : Argument → Option UInt32
  | .value number => some number
  | .label name => labels name

/-- The values of the operands with given arguments, by index. -/
def Argument.valueAt? (labels : String → Option UInt32) (arguments : List Argument)
    (operand : Nat) : Option UInt32 :=
  arguments[operand]?.bind (Argument.value? labels)

namespace Writer

@[simp] theorem putBytes_base (writer : Writer) (bytes : Bytes) :
    (writer.putBytes bytes).base = writer.base := rfl

@[simp] theorem putBytes_size (writer : Writer) (bytes : Bytes) :
    (writer.putBytes bytes).size = writer.size + bytes.length := by
  simp [putBytes, size]

theorem putBytes_putBytes (writer : Writer) (first second : Bytes) :
    (writer.putBytes first).putBytes second = writer.putBytes (first ++ second) := by
  simp [putBytes]

/-- Writing no bytes changes nothing. -/
@[simp] theorem putBytes_nil (writer : Writer) : writer.putBytes [] = writer := by
  simp [putBytes]

/-- Patching four bytes that stand behind `front` replaces just these. -/
theorem patch_append {base : UInt32} {front old rest : Bytes} (hold : old.length = 4)
    (haligned : Width.word.aligned (base + UInt32.ofNat front.length) = true) (value : UInt32) :
    (⟨base, front ++ (old ++ rest)⟩ : Writer).patch front.length value =
      (⟨base, front ++ (LittleEndian.encode 4 value.toNat ++ rest)⟩, .ok ()) := by
  have hroom : 4 ≤ old.length + rest.length := by omega
  have hdrop : (front ++ (old ++ rest)).drop (front.length + 4) = rest := by
    rw [← hold, ← List.length_append, ← List.append_assoc, List.drop_left]
  simp [patch, haligned, size, hroom, hdrop]

end Writer

namespace Instruction

open EventScript.Field

/-- A number is written where its width allows it. -/
theorem putNumber_eq_ok_iff {writer final : Writer} {width : Width} {value : UInt32} :
    putNumber writer width value = (final, .ok ()) ↔ width.aligned writer.address = true ∧
      final = writer.putBytes (LittleEndian.encode width.size value.toNat) := by
  unfold putNumber Writer.put
  by_cases haligned : width.aligned writer.address = true
  · simp [haligned, eq_comm]
  · simp [haligned]

/-- Fields are encoded one after the other. -/
theorem encodeFields_cons_eq_ok_iff {arguments : List Argument} {writer final : Writer}
    {field : Field} {rest : List Field} {fixups : List Fixup} :
    encodeFields arguments writer (field :: rest) = (final, .ok fixups) ↔
      ∃ after first more, encodeField arguments writer field = (after, .ok first) ∧
        encodeFields arguments after rest = (final, .ok more) ∧ fixups = first ++ more := by
  constructor
  · intro h
    simp only [encodeFields] at h
    split at h
    · simp at h
    · rename_i after first hfield
      split at h
      · simp at h
      · rename_i last more hrest
        simp only [Prod.mk.injEq, Except.ok.injEq] at h
        exact ⟨after, first, more, hfield, by rw [hrest, h.1], h.2.symm⟩
  · rintro ⟨after, first, more, hfield, hrest, rfl⟩
    simp [encodeFields, hfield, hrest]

/-- Fields can be encoded exactly in the way `Opens` says. -/
theorem encodeFields_eq_ok_iff {arguments : List Argument} {writer final : Writer}
    {fields : List Field} {fixups : List Fixup} :
    encodeFields arguments writer fields = (final, .ok fixups) ↔
      ∃ bytes, final = writer.putBytes bytes ∧
        Opens arguments writer.base writer.size fields bytes fixups := by
  induction fields generalizing writer fixups with
  | nil =>
      simp only [encodeFields, Prod.mk.injEq, Except.ok.injEq]
      constructor
      · rintro ⟨rfl, rfl⟩
        exact ⟨[], by simp, .nil⟩
      · rintro ⟨bytes, rfl, h⟩
        cases h
        simp
  | cons field rest ih =>
      rw [encodeFields_cons_eq_ok_iff]
      constructor
      · rintro ⟨after, first, more, hfield, hrest, rfl⟩
        obtain ⟨bytes, rfl, hopens⟩ := ih.mp hrest
        cases field with
        | literal byte =>
            cases hfield
            exact ⟨byte :: bytes, by simp [Writer.putBytes], .literal (by simpa using hopens)⟩
        | slot operand width =>
            simp only [encodeField] at hfield
            split at hfield
            · cases hfield
            · rename_i name hargument
              split at hfield
              · cases hfield
              · rename_i written hput
                cases hfield
                obtain ⟨haligned, rfl⟩ := putNumber_eq_ok_iff.mp hput
                refine ⟨_, Writer.putBytes_putBytes .., .label hargument haligned ?_⟩
                simpa [Width.size] using hopens
            · rename_i value hargument
              split at hfield
              · rename_i hfits
                split at hfield
                · cases hfield
                · rename_i written hput
                  cases hfield
                  obtain ⟨haligned, rfl⟩ := putNumber_eq_ok_iff.mp hput
                  refine ⟨_, Writer.putBytes_putBytes .., .value hargument hfits haligned ?_⟩
                  simpa using hopens
              · cases hfield
      · rintro ⟨bytes, rfl, hopens⟩
        cases hopens with
        | literal hopens =>
            rename_i byte bytes
            refine ⟨writer.putBytes [byte], [], fixups, rfl, ih.mpr ⟨bytes, ?_, ?_⟩, rfl⟩
            · simp [Writer.putBytes]
            · simpa using hopens
        | value hargument hfits haligned hopens =>
            rename_i operand width value bytes
            have hput : putNumber writer width value = (_, .ok ()) :=
              putNumber_eq_ok_iff.mpr ⟨haligned, rfl⟩
            refine ⟨writer.putBytes (LittleEndian.encode width.size value.toNat), [], fixups, ?_,
              ih.mpr ⟨bytes, ?_, ?_⟩, rfl⟩
            · simp only [encodeField, hargument, hfits, hput, if_true]
            · rw [Writer.putBytes_putBytes]
            · simpa using hopens
        | label hargument haligned hopens =>
            rename_i operand width name bytes fixups
            have hput : putNumber writer .word unresolved = (_, .ok ()) :=
              putNumber_eq_ok_iff.mpr ⟨haligned, rfl⟩
            refine ⟨writer.putBytes (LittleEndian.encode 4 unresolved.toNat),
              [⟨writer.size, name⟩], fixups, ?_, ih.mpr ⟨bytes, ?_, ?_⟩, rfl⟩
            · simp only [encodeField, hargument, hput, Width.size]
            · rw [Writer.putBytes_putBytes]
            · simpa using hopens

end Instruction

namespace Field

open Assembly (fill fill_cons_of_none fill_cons_of_patch)

variable {arguments : List Argument} {base : UInt32} {offset : Nat} {fields : List Field}
  {bytes : Bytes} {fixups : List Fixup}

/-- Filling in the labels of fields that were left open gives exactly the direct encoding with the
addresses of these labels, and leaves what stands in front alone. -/
theorem Opens.fill_eq_ok_iff (h : Opens arguments base offset fields bytes fixups)
    (hwide : LabelsWide arguments fields) {symbols : SymbolTable} {place : Place} (front : Bytes)
    (closed : Writer) (hfront : front.length = offset) :
    fill symbols place ⟨base, front ++ bytes⟩ fixups = .ok closed ↔
      ∃ filled, closed = ⟨base, front ++ filled⟩ ∧
        Encodes (Argument.valueAt? symbols.label? arguments) fields filled := by
  -- Each field that is done moves to the front, so that the next place to fill is right behind it.
  induction h generalizing front with
  | nil =>
      constructor
      · intro h
        cases h
        exact ⟨[], rfl, .nil⟩
      · rintro ⟨filled, rfl, hencodes⟩
        cases hencodes
        rfl
  | @literal offset byte fields bytes fixups _ ih =>
      have hstep := ih hwide.tail (front ++ [byte]) (by simp [hfront])
      simp only [List.append_assoc, List.singleton_append] at hstep
      rw [hstep]
      constructor
      · rintro ⟨filled, rfl, hencodes⟩
        exact ⟨byte :: filled, rfl, .literal hencodes⟩
      · rintro ⟨filled, rfl, hencodes⟩
        cases hencodes with
        | literal hencodes => exact ⟨_, rfl, hencodes⟩
  | @value offset operand width value fields bytes fixups hargument hfits _ _ ih =>
      have hvalue : Argument.valueAt? symbols.label? arguments operand = some value := by
        simp [Argument.valueAt?, hargument, Argument.value?]
      have hstep := ih hwide.tail (front ++ LittleEndian.encode width.size value.toNat)
        (by simp [hfront])
      simp only [List.append_assoc] at hstep
      rw [hstep]
      constructor
      · rintro ⟨filled, rfl, hencodes⟩
        exact ⟨_, rfl, .slot hvalue hfits hencodes⟩
      · rintro ⟨filled, rfl, hencodes⟩
        cases hencodes with
        | slot hother _ hencodes =>
            obtain rfl := Option.some.inj (hvalue.symm.trans hother)
            exact ⟨_, rfl, hencodes⟩
  | @label offset operand width name fields bytes fixups hargument haligned _ ih =>
      -- Four bytes were left open, whatever the width of the slot; here it is a word.
      obtain rfl := hwide operand width name List.mem_cons_self hargument
      have hvalue : Argument.valueAt? symbols.label? arguments operand = symbols.label? name := by
        simp [Argument.valueAt?, hargument, Argument.value?]
      cases hlabel : symbols.label? name with
      | none =>
          rw [fill_cons_of_none hlabel]
          constructor
          · intro h
            cases h
          · rintro ⟨filled, rfl, hencodes⟩
            cases hencodes with
            | slot hother _ _ => simp [hvalue, hlabel] at hother
      | some address =>
          subst hfront
          have hstep := ih hwide.tail (front ++ LittleEndian.encode 4 address.toNat) (by simp)
          simp only [List.append_assoc] at hstep
          have hopen := LittleEndian.length_encode 4 Instruction.unresolved.toNat
          rw [@fill_cons_of_patch symbols place _ ⟨front.length, name⟩ address _ hlabel
            (Writer.patch_append hopen haligned address), hstep]
          constructor
          · rintro ⟨filled, rfl, hencodes⟩
            exact ⟨_, rfl, .slot (hvalue.trans hlabel) (Width.fits_word address) hencodes⟩
          · rintro ⟨filled, rfl, hencodes⟩
            cases hencodes with
            | slot hother _ hencodes =>
                obtain rfl := Option.some.inj (hlabel.symm.trans (hvalue.symm.trans hother))
                exact ⟨_, rfl, hencodes⟩

/-- The places that are left open can be filled in. -/
theorem Opens.fits (h : Opens arguments base offset fields bytes fixups) :
    ∀ fixup ∈ fixups, fixup.Fits base (offset + bytes.length) := by
  induction h with
  | nil => simp
  | @literal offset _ _ bytes _ _ ih =>
      intro fixup hfixup
      have hfits := ih fixup hfixup
      rwa [Nat.add_assoc, Nat.add_comm 1, ← List.length_cons] at hfits
  | value _ _ _ _ ih =>
      intro fixup hfixup
      have hfits := ih fixup hfixup
      rwa [List.length_append, LittleEndian.length_encode, ← Nat.add_assoc]
  | label _ haligned _ ih =>
      rw [List.length_append, LittleEndian.length_encode, ← Nat.add_assoc]
      exact List.forall_mem_cons.mpr ⟨⟨haligned, Nat.le_add_right ..⟩, ih⟩

/-- Fields are only encoded where their slots are aligned. -/
theorem Opens.alignedAt (h : Opens arguments base offset fields bytes fixups)
    (hwide : LabelsWide arguments fields) : AlignedAt (base + UInt32.ofNat offset) fields := by
  induction h with
  | nil => trivial
  | literal _ ih =>
      have hrest := ih hwide.tail
      rw [add_ofNat_add] at hrest
      exact hrest
  | value _ _ haligned _ ih =>
      have hrest := ih hwide.tail
      rw [add_ofNat_add] at hrest
      exact ⟨haligned, hrest⟩
  | @label offset operand width name fields bytes fixups hlabel haligned _ ih =>
      obtain rfl := hwide operand width name List.mem_cons_self hlabel
      have hrest := ih hwide.tail
      rw [add_ofNat_add] at hrest
      exact ⟨haligned, hrest⟩

/-- Fields that have a direct encoding and stand where their slots are aligned can be encoded with
their labels left open. -/
theorem Encodes.exists_opens {labels : String → Option UInt32}
    (h : Encodes (Argument.valueAt? labels arguments) fields bytes)
    (hwide : LabelsWide arguments fields)
    (haligned : AlignedAt (base + UInt32.ofNat offset) fields) :
    ∃ written fixups, Opens arguments base offset fields written fixups := by
  induction h generalizing offset with
  | nil => exact ⟨[], [], .nil⟩
  | @literal byte fields bytes _ ih =>
      have hrest : AlignedAt (base + UInt32.ofNat (offset + 1)) fields := by
        rw [add_ofNat_add]
        exact haligned
      obtain ⟨written, fixups, hopens⟩ := ih hwide.tail hrest
      exact ⟨byte :: written, fixups, .literal hopens⟩
  | @slot operand width value fields bytes hvalue hfits _ ih =>
      have hrest : AlignedAt (base + UInt32.ofNat (offset + width.size)) fields := by
        rw [add_ofNat_add]
        exact haligned.2
      obtain ⟨written, fixups, hopens⟩ := ih hwide.tail hrest
      simp only [Argument.valueAt?, Option.bind_eq_some_iff] at hvalue
      obtain ⟨argument, hargument, hvalue⟩ := hvalue
      cases argument with
      | value number =>
          cases hvalue
          exact ⟨_, _, .value hargument hfits haligned.1 hopens⟩
      | label name =>
          obtain rfl := hwide operand width name List.mem_cons_self hargument
          exact ⟨_, _, .label hargument haligned.1 hopens⟩

end Field

end EventScript
