import Mathlib.Data.List.Nodup
import EventScript.Listing
import EventScript.Proofs.Encoding
import EventScript.Proofs.Scan

/-!
# Listed instructions encode back

A line that `Listing.match?` finds for a record gives the record back: `match?_encodes` says that
its operands are arguments of the instruction and that the instruction's fields, with these
arguments, are directly encoded as the record. The label of an address has a name from which the
address can be read off (`labelAddress?_labelName`), so different addresses have different labels.
Instructions are tried in an order that leaves no choice between different names, so it does not
matter in which order they are given (`candidates_perm`).
-/

namespace EventScript.Listing

open Text EventScript.Field

/-- The address that a label is named after. -/
def labelAddress? (name : String) : Option UInt32 :=
  (Numeral.valueFrom? 16 0 (name.toList.drop 1)).map UInt32.ofNat

/-- The address of a label can be read off its name. -/
@[simp] theorem labelAddress?_labelName (address : UInt32) :
    labelAddress? (labelName address) = some address := by
  have hdigits := Numeral.valueFrom?_hexDigitsPadded_map Numeral.hexDigit?_toUpper_digitChar 8
    address.toNat
  simp [labelAddress?, labelName, hdigits]

/-- Different addresses have different labels. -/
theorem labelName_injective {first second : UInt32} (h : labelName first = labelName second) :
    first = second := by
  have haddress := congrArg labelAddress? h
  simpa using haddress

/-- The token that stands for an operand in a script. -/
def Operand.token : Operand → Token
  | .value number => .number number
  | .word keyword => .keyword keyword
  | .target address => .label (labelName address)

/-- An operand is written as its token. -/
theorem Operand.text_token (operand : Operand) : operand.token.text = operand.text := by
  cases operand <;> rfl

/-- Every value that was noted is kept. -/
def Keeps (before after : List (Option UInt32)) : Prop :=
  ∀ (operand : Nat) (value : UInt32),
    before[operand]? = some (some value) → after[operand]? = some (some value)

/-- Noting a value keeps the earlier ones and adds this one. -/
theorem note?_eq_some {before after : List (Option UInt32)} {operand : Nat} {value : UInt32}
    (h : note? before operand value = some after) :
    Keeps before after ∧ after[operand]? = some (some value) ∧ after.length = before.length := by
  unfold note? at h
  split at h
  · cases h
  · rename_i hempty
    cases h
    have hlt := (List.getElem?_eq_some_iff.mp hempty).1
    refine ⟨?_, by simp [hlt], by simp⟩
    intro other noted hnoted
    have hne : operand ≠ other := by
      rintro rfl
      simp [hempty] at hnoted
    rw [List.getElem?_set_ne hne]
    exact hnoted
  · rename_i previous hprevious
    split at h
    · rename_i heq
      cases h
      subst heq
      exact ⟨fun _ _ h => h, hprevious, rfl⟩
    · cases h

/-- The bytes that a slot takes are the encoding of the value read from them. -/
theorem encode_slot {width : Width} {bytes : Bytes} (h : width.size ≤ bytes.length) :
    width.fits (UInt32.ofNat (LittleEndian.decode (bytes.take width.size))) = true ∧
      LittleEndian.encode width.size
        (UInt32.ofNat (LittleEndian.decode (bytes.take width.size))).toNat =
          bytes.take width.size := by
  have hlength : (bytes.take width.size).length = width.size := by
    rw [List.length_take]
    omega
  have hfour : (bytes.take width.size).length ≤ 4 := by
    rw [hlength]
    cases width <;> decide
  have hlt := LittleEndian.decode_lt (bytes.take width.size)
  have hback := LittleEndian.encode_ofNat_decode hfour
  rw [hlength] at hlt hback
  refine ⟨decide_eq_true ?_, hback⟩
  rw [LittleEndian.toNat_ofNat_decode hfour]
  exact hlt

/-- Bytes that could be read along the fields of a template are the direct encoding of these fields
with the values that were noted. -/
theorem readFields?_eq_some {address : UInt32} {fields : List Field} {bytes : Bytes}
    {before after : List (Option UInt32)}
    (h : readFields? address fields bytes before = some after)
    (hsize : Field.totalSize fields = bytes.length) :
    AlignedAt address fields ∧ Keeps before after ∧ after.length = before.length ∧
      Encodes (fun operand => after[operand]?.join) fields bytes := by
  induction fields generalizing address bytes before with
  | nil =>
      cases h
      obtain rfl : bytes = [] := List.eq_nil_of_length_eq_zero hsize.symm
      exact ⟨trivial, fun _ _ h => h, rfl, .nil⟩
  | cons field rest ih =>
      cases field with
      | literal expected =>
          cases bytes with
          | nil => cases h
          | cons byte more =>
              simp only [readFields?] at h
              split at h
              · rename_i heq
                subst heq
                have hmore : Field.totalSize rest = more.length := by
                  simp only [Field.totalSize, Field.size, List.length_cons] at hsize
                  omega
                obtain ⟨haligned, hkeeps, hlength, hencodes⟩ := ih h hmore
                exact ⟨haligned, hkeeps, hlength, .literal hencodes⟩
              · cases h
      | slot operand width =>
          simp only [readFields?] at h
          split at h
          · rename_i hslot
            split at h
            · cases h
            · rename_i noted hnoted
              have hmore : Field.totalSize rest = (bytes.drop width.size).length := by
                simp only [Field.totalSize, Field.size] at hsize
                rw [List.length_drop]
                omega
              obtain ⟨haligned, hkeeps, hlength, hencodes⟩ := ih h hmore
              obtain ⟨hbefore, hvalue, hnotedLength⟩ := note?_eq_some hnoted
              obtain ⟨hfits, hbytes⟩ := encode_slot hslot.2
              refine ⟨⟨hslot.1, haligned⟩, ?_, hlength.trans hnotedLength, ?_⟩
              · intro other value hother
                exact hkeeps _ _ (hbefore _ _ hother)
              · -- Notes are only added, so what this slot holds is still noted at the end.
                have hjoin := congrArg Option.join (hkeeps _ _ hvalue)
                have hfields : Encodes (fun operand => after[operand]?.join)
                    (.slot operand width :: rest) _ := .slot hjoin hfits hencodes
                rwa [hbytes, List.take_append_drop] at hfields
          · cases h

/-- The keywords of a set are different. -/
theorem find?_choice {set : KeywordSet} {choice : String × UInt8} (h : choice ∈ set.choices) :
    (set.choices.find? fun other => other.1 == choice.1) = some choice := by
  cases set <;> revert choice <;> decide

/-- A keyword that is listed for a byte stands for this byte. -/
theorem valueOf?_of_wordFor? {set : KeywordSet} {value : UInt8} {word : String}
    (h : set.wordFor? value = some word) : set.valueOf? word = some value := by
  simp only [KeywordSet.wordFor?, Option.map_eq_some_iff] at h
  obtain ⟨choice, hfind, rfl⟩ := h
  have hvalue : choice.2 = value := by simpa using List.find?_some hfind
  rw [KeywordSet.valueOf?, find?_choice (List.mem_of_find?_eq_some hfind), ← hvalue]
  rfl

/-- A listed operand is an argument of its kind, and the argument has the value that the operand was
listed for as soon as the label of an address stands for this address. -/
theorem operand?_argument {kind : OperandKind} {value? : Option UInt32} {operand : Operand}
    (h : operand? kind value? = some operand) :
    ∃ argument : Argument,
      (∀ place symbols, Statement.argumentOf place symbols kind operand.token = .ok argument) ∧
      ∀ labels value, (∀ target, operand.target? = some target →
          labels (labelName target) = some target) →
        value? = some value → argument.value? labels = some value := by
  cases kind with
  | value =>
      cases h
      refine ⟨.value (value?.getD 0), fun _ _ => rfl, ?_⟩
      rintro labels value _ rfl
      rfl
  | label =>
      simp only [operand?, Option.map_eq_some_iff] at h
      obtain ⟨target, rfl, rfl⟩ := h
      refine ⟨.label (labelName target), fun _ _ => rfl, ?_⟩
      intro labels value htargets hvalue
      obtain rfl := Option.some.inj hvalue
      exact htargets _ rfl
  | keyword set =>
      cases value? with
      | none =>
          -- An operand without a slot is listed as the first keyword, and no byte depends on it.
          simp only [operand?, Option.map_eq_some_iff] at h
          obtain ⟨choice, hchoice, rfl⟩ := h
          have hfind := find?_choice (List.mem_of_head? hchoice)
          refine ⟨.value choice.2.toUInt32, fun _ _ => ?_, fun _ _ _ hvalue => by cases hvalue⟩
          simp [Operand.token, Statement.argumentOf, KeywordSet.valueOf?, hfind]
      | some value =>
          simp only [operand?] at h
          split at h
          · rename_i hfits
            simp only [Option.map_eq_some_iff] at h
            obtain ⟨word, hword, rfl⟩ := h
            refine ⟨.value value.toUInt8.toUInt32, fun _ _ => ?_, ?_⟩
            · simp [Operand.token, Statement.argumentOf, valueOf?_of_wordFor? hword]
            · rintro labels _ _ ⟨rfl⟩
              simp [Argument.value?, Width.toUInt32_toUInt8_of_fits hfits]
          · cases h

/-- Listed operands are arguments of their kinds, and these have the values that the operands were
listed for as soon as the labels of addresses stand for these addresses. -/
theorem operands?_arguments {kinds : List OperandKind} {values : List (Option UInt32)}
    {operands : List Operand} (hlength : values.length = kinds.length)
    (h : operands? kinds values = some operands) :
    ∃ arguments : List Argument,
      (∀ place symbols,
        Statement.arguments place symbols kinds (operands.map Operand.token) = .ok arguments) ∧
      ∀ labels, (∀ target ∈ operands.filterMap Operand.target?,
          labels (labelName target) = some target) →
        ∀ index value, values[index]?.join = some value →
          Argument.valueAt? labels arguments index = some value := by
  induction kinds generalizing values operands with
  | nil =>
      obtain rfl : values = [] := List.eq_nil_of_length_eq_zero hlength
      cases h
      exact ⟨[], fun _ _ => rfl, fun _ _ _ _ hvalue => by simp at hvalue⟩
  | cons kind kinds ih =>
      cases values with
      | nil => cases hlength
      | cons value? values =>
          simp only [operands?] at h
          split at h
          · cases h
          · rename_i operand hoperand
            split at h
            · cases h
            · rename_i rest hrest
              cases h
              obtain ⟨argument, hargument, hvalue⟩ := operand?_argument hoperand
              obtain ⟨arguments, harguments, hvalues⟩ := ih (by simpa using hlength) hrest
              refine ⟨argument :: arguments, fun place symbols => ?_, ?_⟩
              · simp only [List.map_cons, Statement.arguments, hargument, harguments]
              · intro labels htargets index value hindex
                have hhead : ∀ target, operand.target? = some target →
                    labels (labelName target) = some target := by
                  intro target htarget
                  exact htargets target (List.mem_filterMap.mpr
                    ⟨operand, List.mem_cons_self, htarget⟩)
                have htail : ∀ target ∈ rest.filterMap Operand.target?,
                    labels (labelName target) = some target := by
                  intro target htarget
                  obtain ⟨other, hother, heq⟩ := List.mem_filterMap.mp htarget
                  exact htargets target (List.mem_filterMap.mpr
                    ⟨other, List.mem_cons_of_mem _ hother, heq⟩)
                cases index with
                | zero =>
                    simpa [Argument.valueAt?] using hvalue labels value hhead
                      (by simpa using hindex)
                | succ index => exact hvalues labels htail index value (by simpa using hindex)

/-- A record matches an instruction if it has the size of the template, and values can be read and
listed for all operands. -/
theorem match?_eq_some_iff {address : UInt32} {record : Bytes} {instruction : Instruction}
    {line : Line} :
    match? address record instruction = some line ↔
      instruction.template.size = record.length ∧ ∃ noted operands,
        readFields? address instruction.template.fields record
          (instruction.kinds.map fun _ => none) = some noted ∧
        operands? instruction.kinds noted = some operands ∧
        line = ⟨address, instruction.mnemonic, operands⟩ := by
  unfold match?
  by_cases hsize : instruction.template.size = record.length
  · rw [if_pos hsize]
    cases readFields? address instruction.template.fields record
      (instruction.kinds.map fun _ => none) with
    | none => simp
    | some noted => simp [hsize, Option.map_eq_some_iff, @eq_comm _ line]
  · simp [hsize]

/-- A line that was found for a record gives the record back: its operands are arguments of the
instruction, every slot is aligned, and the fields of the instruction have the record as their
direct encoding as soon as the labels of addresses stand for these addresses. -/
theorem match?_encodes {address : UInt32} {record : Bytes} {instruction : Instruction} {line : Line}
    (h : match? address record instruction = some line) :
    line.address = address ∧ line.mnemonic = instruction.mnemonic ∧
      AlignedAt address instruction.template.fields ∧
      ∃ arguments : List Argument,
        (∀ place symbols, Statement.arguments place symbols instruction.kinds
          (line.operands.map Operand.token) = .ok arguments) ∧
        ∀ labels, (∀ target ∈ line.targets, labels (labelName target) = some target) →
          Encodes (Argument.valueAt? labels arguments) instruction.template.fields record := by
  obtain ⟨hsize, values, operands, hvalues, hoperands, rfl⟩ := match?_eq_some_iff.mp h
  obtain ⟨haligned, _, hlength, hencodes⟩ := readFields?_eq_some hvalues hsize
  obtain ⟨arguments, harguments, hresolved⟩ :=
    operands?_arguments (by simpa using hlength) hoperands
  exact ⟨rfl, rfl, haligned, arguments, harguments,
    fun labels htargets => hencodes.mono (hresolved labels htargets)⟩

/-- Instructions are tried by the number of their fixed bytes, the largest first, and then by name.
-/
theorem triedBefore_iff {first second : Instruction} : triedBefore first second = true ↔
    second.template.literals < first.template.literals ∨
      first.template.literals = second.template.literals ∧ first.mnemonic ≤ second.mnemonic := by
  simp [triedBefore]

/-- The order in which instructions are tried is transitive. -/
theorem triedBefore_trans (first second third : Instruction) (h : triedBefore first second = true)
    (hnext : triedBefore second third = true) : triedBefore first third = true := by
  rw [triedBefore_iff] at *
  rcases h with hlt | ⟨heq, hle⟩
  · exact .inl (by omega)
  · rcases hnext with hlt | ⟨hsame, hnextLe⟩
    · exact .inl (by omega)
    · exact .inr ⟨heq.trans hsame, Std.le_trans hle hnextLe⟩

/-- Of two instructions one is tried before the other. -/
theorem triedBefore_total (first second : Instruction) :
    (triedBefore first second || triedBefore second first) = true := by
  rw [Bool.or_eq_true, triedBefore_iff, triedBefore_iff]
  rcases Nat.lt_trichotomy first.template.literals second.template.literals with hlt | heq | hgt
  · exact .inr (.inl hlt)
  · rcases Std.le_total (a := first.mnemonic) (b := second.mnemonic) with hle | hge
    · exact .inl (.inr ⟨heq, hle⟩)
    · exact .inr (.inr ⟨heq.symm, hge⟩)
  · exact .inl (.inl hgt)

/-- Instructions that are tried before each other have one name. -/
theorem mnemonic_eq_of_triedBefore {first second : Instruction}
    (h : triedBefore first second = true)
    (hback : triedBefore second first = true) : first.mnemonic = second.mnemonic := by
  rw [triedBefore_iff] at h hback
  rcases h with hlt | ⟨_, hle⟩
  · omega
  · rcases hback with hgt | ⟨_, hge⟩
    · omega
    · exact Std.le_antisymm hle hge

/-- The instructions stand in the order in which they are tried. -/
theorem pairwise_candidates (instructions : List Instruction) :
    (candidates instructions).Pairwise fun first second => triedBefore first second = true :=
  List.pairwise_mergeSort triedBefore_trans triedBefore_total instructions

/-- Instructions with different names are tried in one order, however they are given. -/
theorem candidates_perm {instructions others : List Instruction} (hperm : others.Perm instructions)
    (hnames : (instructions.map Instruction.mnemonic).Nodup) :
    candidates others = candidates instructions := by
  have hsame : (candidates others).Perm (candidates instructions) :=
    ((List.mergeSort_perm ..).trans hperm).trans (List.mergeSort_perm ..).symm
  refine hsame.eq_of_pairwise (fun first second hfirst hsecond h hback => ?_)
    (pairwise_candidates others)
    (pairwise_candidates instructions)
  rw [candidates, List.mem_mergeSort] at hfirst hsecond
  exact List.inj_on_of_nodup_map hnames (hperm.mem_iff.mp hfirst) hsecond
    (mnemonic_eq_of_triedBefore h hback)

end EventScript.Listing
