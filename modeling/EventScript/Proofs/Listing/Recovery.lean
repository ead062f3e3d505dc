import EventScript.Proofs.Assembly.Framed
import EventScript.Proofs.Assembly.TwoPass
import EventScript.Proofs.Listing.Decode

/-!
# Assembled instructions are listed back

The bytes of an instruction are read back along its own template (`match?_of_encodes`), and no other
instruction accounts for them if any two templates conflict. An operand is then listed as what was
written for it, provided that a slot or its kind determines it (`Instruction.Recoverable`). Grammars
with both properties are `Readable`; the built-in one is, so `listed_of_assemble` follows: what it
assembles is listed record by record.
-/

namespace EventScript

namespace Field

/-- The bytes of fields by place: a fixed byte, or nothing where an operand stands. -/
def pattern : List Field → List (Option UInt8)
  | [] => []
  | .literal byte :: rest => some byte :: pattern rest
  | .slot _ width :: rest => List.replicate width.size none ++ pattern rest

/-- The two are different fixed bytes. -/
def differ : Option UInt8 × Option UInt8 → Bool
  | (some byte, some other) => byte != other
  | _ => false

/-- The fields have different sizes, or different fixed bytes at one place. -/
def conflict (first second : List Field) : Bool :=
  totalSize first != totalSize second || ((pattern first).zip (pattern second)).any differ

/-- Encoded fields have their fixed bytes in place. -/
theorem Encodes.getElem?_of_pattern {value? : Nat → Option UInt32} {fields : List Field}
    {bytes : Bytes} (h : Encodes value? fields bytes) {place : Nat} {byte : UInt8}
    (hplace : (pattern fields)[place]? = some (some byte)) : bytes[place]? = some byte := by
  induction h generalizing place with
  | nil => simp [pattern] at hplace
  | literal _ ih =>
      cases place with
      | zero => simpa [pattern] using hplace
      | succ place => exact ih (by simpa [pattern] using hplace)
  | @slot operand width value fields bytes _ _ _ ih =>
      rw [pattern] at hplace
      by_cases hslot : place < width.size
      · rw [List.getElem?_append_left (by simpa using hslot)] at hplace
        simp [hslot] at hplace
      · have hbehind : width.size ≤ place := Nat.le_of_not_lt hslot
        rw [List.getElem?_append_right (by simpa using hbehind), List.length_replicate] at hplace
        rw [List.getElem?_append_right (by simpa using hbehind), LittleEndian.length_encode]
        exact ih hplace

/-- No bytes are encoded from fields that conflict. -/
theorem Encodes.not_conflict {first second : Nat → Option UInt32} {fields others : List Field}
    {bytes : Bytes} (hfields : Encodes first fields bytes) (hothers : Encodes second others bytes) :
    conflict fields others = false := by
  have hsize : totalSize fields = totalSize others := by
    rw [← hfields.length_eq, ← hothers.length_eq]
  rw [conflict, hsize, bne_self_eq_false, Bool.false_or, List.any_eq_false]
  rintro ⟨one, other⟩ hmem
  obtain ⟨place, hplace⟩ := List.mem_iff_getElem?.mp hmem
  obtain ⟨hone, hother⟩ := List.getElem?_zip_eq_some.mp hplace
  cases one with
  | none => simp [differ]
  | some byte =>
      cases other with
      | none => simp [differ]
      | some otherByte =>
          have hbyte := hfields.getElem?_of_pattern hone
          rw [hothers.getElem?_of_pattern hother, Option.some.injEq] at hbyte
          simp [differ, hbyte]

end Field

/-- The kind has just one keyword, so nothing has to be written for it. -/
def OperandKind.single : OperandKind → Bool
  | .keyword set => set.choices.length == 1
  | _ => false

/-- Every operand has a slot, or a kind with just one keyword. -/
def Instruction.Recoverable (instruction : Instruction) : Prop :=
  ∀ operand ∈ instruction.kinds.zipIdx,
    instruction.template.fields.any (Field.holds operand.2) = true ∨ operand.1.single = true

/-- The bytes of an instruction tell the instruction and its operands. -/
structure Grammar.Readable (grammar : Grammar) : Prop where
  /-- Any two instructions have templates that conflict. -/
  conflict : ∀ first ∈ grammar.toList, ∀ second ∈ grammar.toList, first ≠ second →
    Field.conflict first.template.fields second.template.fields = true
  recoverable : ∀ instruction ∈ grammar.toList, instruction.Recoverable

/-- The built-in instructions can be told by their bytes. -/
theorem Grammar.readable_builtin : Grammar.builtin.Readable := by
  have hchecks :
      (∀ first ∈ Grammar.builtin.toList, ∀ second ∈ Grammar.builtin.toList, first ≠ second →
        Field.conflict first.template.fields second.template.fields = true) ∧
      ∀ instruction ∈ Grammar.builtin.toList, instruction.Recoverable := by
    unfold Instruction.Recoverable
    decide +kernel
  exact ⟨hchecks.1, hchecks.2⟩

namespace Listing

open Text Assembly EventScript.Field

variable {value? : Nat → Option UInt32} {address : UInt32}

/-- What is noted are values of operands. -/
def Agrees (value? : Nat → Option UInt32) (noted : List (Option UInt32)) : Prop :=
  ∀ (operand : Nat) (value : UInt32), noted[operand]? = some (some value) →
    value? operand = some value

/-- Nothing has been noted at the start. -/
theorem agrees_nothing (value? : Nat → Option UInt32) (kinds : List OperandKind) :
    Agrees value? (kinds.map fun _ => none) := by
  intro operand value hvalue
  rw [List.getElem?_map, Option.map_eq_some_iff] at hvalue
  obtain ⟨kind, _, hnone⟩ := hvalue
  cases hnone

/-- The value of an operand can be noted if what is noted so far are values of operands. -/
theorem note?_of_agrees {noted : List (Option UInt32)} {operand : Nat} {value : UInt32}
    (h : Agrees value? noted) (hoperand : operand < noted.length)
    (hvalue : value? operand = some value) :
    ∃ after, note? noted operand value = some after ∧ Agrees value? after := by
  have hget := List.getElem?_eq_getElem hoperand
  unfold note?
  cases hold : noted[operand] with
  | none =>
      rw [hget, hold]
      refine ⟨noted.set operand (some value), rfl, fun other number hother => ?_⟩
      by_cases heq : operand = other
      · subst heq
        rw [List.getElem?_set_self hoperand, Option.some.injEq, Option.some.injEq] at hother
        rw [hvalue, hother]
      · rw [List.getElem?_set_ne heq] at hother
        exact h other number hother
  | some previous =>
      have hsame : previous = value := by
        have hprevious := h operand previous (by rw [hget, hold])
        rw [hvalue, Option.some.injEq] at hprevious
        exact hprevious.symm
      rw [hget, hold]
      exact ⟨noted, if_pos hsame, h⟩

/-- A slot with the encoding of a number that fits holds this number. -/
theorem decode_slot {width : Width} {value : UInt32} (hfits : width.fits value = true) :
    UInt32.ofNat (LittleEndian.decode (LittleEndian.encode width.size value.toNat)) = value := by
  rw [LittleEndian.decode_encode _ _ (of_decide_eq_true hfits), UInt32.ofNat_toNat]

/-- Encoded fields whose slots are aligned can be read back, and the value of every slot is noted.
-/
theorem readFields?_of_encodes {fields : List Field} {bytes : Bytes}
    (h : Encodes value? fields bytes)
    (haligned : AlignedAt address fields) {noted : List (Option UInt32)}
    (hnoted : Agrees value? noted)
    (hdeclared : ∀ operand width, Field.slot operand width ∈ fields → operand < noted.length) :
    ∃ after, readFields? address fields bytes noted = some after ∧ Agrees value? after ∧
      ∀ operand width, Field.slot operand width ∈ fields → ∃ value,
        after[operand]? = some (some value) := by
  induction h generalizing address noted with
  | nil => exact ⟨noted, rfl, hnoted, by simp⟩
  | @literal byte fields bytes _ ih =>
      obtain ⟨after, hread, hagrees, hslots⟩ := ih haligned hnoted fun operand width hslot =>
        hdeclared operand width (List.mem_cons_of_mem _ hslot)
      refine ⟨after, by simp [readFields?, hread], hagrees, fun operand width hslot => ?_⟩
      exact hslots operand width (by simpa using hslot)
  | @slot operand width value fields bytes hvalue hfits hfields ih =>
      obtain ⟨next, hnext, hnextAgrees⟩ :=
        note?_of_agrees hnoted (hdeclared operand width List.mem_cons_self) hvalue
      obtain ⟨_, hstored, hlength⟩ := note?_eq_some hnext
      obtain ⟨after, hread, hagrees, hslots⟩ := ih haligned.2 hnextAgrees fun other wide hslot => by
        rw [hlength]
        exact hdeclared other wide (List.mem_cons_of_mem _ hslot)
      -- Reading on keeps what was noted for this slot.
      obtain ⟨_, hkeeps, _, _⟩ := readFields?_eq_some hread hfields.length_eq.symm
      refine ⟨after, ?_, hagrees, fun other wide hslot => ?_⟩
      · simp [readFields?, haligned.1, decode_slot hfits, hnext, hread]
      · rcases List.mem_cons.mp hslot with heq | hslot
        · cases heq
          exact ⟨value, hkeeps operand value hstored⟩
        · exact hslots other wide hslot

/-- The keywords of a set stand for different bytes. -/
theorem wordFor?_of_valueOf? {set : KeywordSet} {word : String} {value : UInt8}
    (h : set.valueOf? word = some value) : set.wordFor? value = some word := by
  have hchoices : ∀ choice ∈ set.choices, set.wordFor? choice.2 = some choice.1 := by
    cases set <;> decide
  obtain ⟨choice, hfind, rfl⟩ := Option.map_eq_some_iff.mp h
  have hword : choice.1 = word := by simpa using List.find?_some hfind
  rw [hchoices choice (List.mem_of_find?_eq_some hfind), hword]

/-- A listed operand is what a token of a script stands for: a value, the same keyword, or the
address of a label. -/
inductive Resolves (denotes : Token → UInt32 → Prop) (labels : String → Option UInt32) :
    Token → Operand → Prop where
  | value {token value} : denotes token value → Resolves denotes labels token (.value value)
  | word {word} : Resolves denotes labels (.keyword word) (.word word)
  | target {name address} : labels name = some address →
      Resolves denotes labels (.label name) (.target address)

variable {denotes : Token → UInt32 → Prop} {labels : String → Option UInt32}

/-- An operand is listed as what was written for it if its value was noted, or its kind leaves no
choice. -/
theorem operand?_of_operandValue {kind : OperandKind} {token : Token} {value : UInt32}
    (h : OperandValue denotes labels kind token value) {noted : Option UInt32}
    (hnoted : noted = some value ∨ noted = none ∧ kind.single = true) :
    ∃ operand, operand? kind noted = some operand ∧ Resolves denotes labels token operand := by
  rcases hnoted with rfl | ⟨rfl, hsingle⟩
  · cases h with
    | value hdenotes => exact ⟨_, rfl, .value hdenotes⟩
    | @keyword set word byte hbyte =>
        refine ⟨.word word, ?_, .word⟩
        simp [operand?, wordFor?_of_valueOf? hbyte]
    | label haddress => exact ⟨_, rfl, .target haddress⟩
  · cases h with
    | @keyword set word byte hbyte =>
        have hlength : set.choices.length = 1 := by simpa [OperandKind.single] using hsingle
        obtain ⟨choice, hchoice⟩ := List.length_eq_one_iff.mp hlength
        refine ⟨.word word, ?_, .word⟩
        have hword : choice.1 = word := by
          simp only [KeywordSet.valueOf?, hchoice, Option.map_eq_some_iff] at hbyte
          obtain ⟨found, hfind, _⟩ := hbyte
          obtain rfl := List.mem_singleton.mp (List.mem_of_find?_eq_some hfind)
          simpa using List.find?_some hfind
        simp [operand?, hchoice, hword]
    | _ => cases hsingle

/-- Operands are listed as what was written for them if their values were noted, or their kinds
leave no choice. -/
theorem operands?_of_operandValues {kinds : List OperandKind} {tokens : List Token}
    {values : List UInt32}
    (h : OperandValues denotes labels kinds tokens values) {noted : List (Option UInt32)}
    (hlength : noted.length = kinds.length)
    (hnoted : ∀ (index : Nat) (kind : OperandKind) (value : UInt32), kinds[index]? = some kind →
      values[index]? = some value →
      noted[index]? = some (some value) ∨ noted[index]? = some none ∧ kind.single = true) :
    ∃ operands, operands? kinds noted = some operands ∧
      List.Forall₂ (Resolves denotes labels) tokens operands := by
  induction h generalizing noted with
  | nil => exact ⟨[], rfl, .nil⟩
  | cons hvalue _ ih =>
      cases noted with
      | nil => cases hlength
      | cons first rest =>
          have hfirst := hnoted 0 _ _ List.getElem?_cons_zero List.getElem?_cons_zero
          simp only [List.getElem?_cons_zero, Option.some.injEq] at hfirst
          obtain ⟨operand, hoperand, hresolves⟩ := operand?_of_operandValue hvalue hfirst
          obtain ⟨operands, hoperands, hrest⟩ := ih (by simpa using hlength)
            fun index kind value hkind hvalue => hnoted (index + 1) kind value hkind hvalue
          exact ⟨operand :: operands, by simp [operands?, hoperand, hoperands],
            .cons hresolves hrest⟩

/-- Every operand of a recoverable instruction has been noted with its value, or has a kind that
leaves no choice. -/
theorem noted_of_recoverable {instruction : Instruction} (h : instruction.Recoverable)
    {values : List UInt32} {noted : List (Option UInt32)}
    (hlength : noted.length = instruction.kinds.length) (hagrees : Agrees (values[·]?) noted)
    (hslots : ∀ operand width, Field.slot operand width ∈ instruction.template.fields →
      ∃ value, noted[operand]? = some (some value))
    {index : Nat} {kind : OperandKind} {value : UInt32}
    (hkind : instruction.kinds[index]? = some kind) (hvalue : values[index]? = some value) :
    noted[index]? = some (some value) ∨ noted[index]? = some none ∧ kind.single = true := by
  have hlt : index < noted.length := by
    rw [hlength]
    exact (List.getElem?_eq_some_iff.mp hkind).1
  have hget := List.getElem?_eq_getElem hlt
  cases hold : noted[index] with
  | some number =>
      rw [hold] at hget
      have hnumber : values[index]? = some number := hagrees index number hget
      rw [hget, ← hvalue, hnumber]
      exact .inl rfl
  | none =>
      rw [hold] at hget
      refine .inr ⟨hget, ?_⟩
      rcases h (kind, index) (List.mem_zipIdx_iff_getElem?.mpr hkind) with hslot | hsingle
      · -- An operand with a slot has been noted.
        obtain ⟨field, hfield, hholds⟩ := List.any_eq_true.mp hslot
        cases field with
        | literal byte => cases hholds
        | slot operand width =>
            obtain rfl : operand = index := by simpa [Field.holds] using hholds
            obtain ⟨number, hnumber⟩ := hslots operand width hfield
            rw [hget] at hnumber
            cases hnumber
      · exact hsingle

/-- The bytes of an instruction are listed as this instruction, with the operands that were written.
-/
theorem match?_of_encodes {instruction : Instruction} {tokens : List Token} {values : List UInt32}
    {record : Bytes} (htemplate : instruction.template.WellFormed instruction.kinds)
    (hrecoverable : instruction.Recoverable)
    (hvalues : OperandValues denotes labels instruction.kinds tokens values)
    (haligned : AlignedAt address instruction.template.fields)
    (hencodes : Encodes (values[·]?) instruction.template.fields record) :
    ∃ operands, match? address record instruction = some ⟨address, instruction.mnemonic, operands⟩ ∧
      List.Forall₂ (Resolves denotes labels) tokens operands := by
  obtain ⟨noted, hread, hagrees, hslots⟩ :=
    readFields?_of_encodes hencodes haligned (agrees_nothing _ _)
    fun operand width hslot => by simpa using htemplate.declared operand width hslot
  obtain ⟨_, _, hlength, _⟩ := readFields?_eq_some hread hencodes.length_eq.symm
  rw [List.length_map] at hlength
  obtain ⟨operands, hoperands, hresolves⟩ := operands?_of_operandValues hvalues hlength
    fun index kind value => noted_of_recoverable hrecoverable hlength hagrees hslots
  exact ⟨operands,
    match?_eq_some_iff.mpr ⟨hencodes.length_eq.symm, noted, operands, hread, hoperands, rfl⟩,
    hresolves⟩

/-- In a readable grammar a record of an instruction is decoded as this instruction. -/
theorem decode_of_match? {grammar : Grammar} (hgrammar : grammar.Readable)
    {instruction : Instruction} (hmem : instruction ∈ grammar.toList) {record : Bytes} {line : Line}
    (h : match? address record instruction = some line) :
    decode (candidates grammar.toList) address record = line := by
  have hcandidate : instruction ∈ candidates grammar.toList := List.mem_mergeSort.mpr hmem
  unfold decode
  cases hfound : (candidates grammar.toList).findSome? (match? address record) with
  | none =>
      rw [List.findSome?_eq_none_iff.mp hfound instruction hcandidate] at h
      cases h
  | some found =>
      obtain ⟨other, hother, hmatch⟩ := List.exists_of_findSome?_eq_some hfound
      -- Both templates account for the record, so they do not conflict.
      have hsame : other = instruction := by
        by_contra hne
        have hconflict :=
          hgrammar.conflict other (List.mem_mergeSort.mp hother) instruction hmem hne
        obtain ⟨_, _, _, _, _, hothers⟩ := match?_encodes hmatch
        obtain ⟨_, _, _, _, _, hfields⟩ := match?_encodes h
        have hlabels : ∀ target, labelAddress? (labelName target) = some target :=
          labelAddress?_labelName
        rw [(hothers _ fun target _ => hlabels target).not_conflict
          (hfields _ fun target _ => hlabels target)] at hconflict
        cases hconflict
      rw [hsame, h] at hmatch
      exact (Option.some.inj hmatch).symm

/-- Framed records that stand one after the other are listed one by one. -/
theorem linesFrom_records {candidates : List Instruction} {records : List Record}
    (hcontiguous : Contiguous address records) (hframed : ∀ record ∈ records, record.bytes.Framed) :
    linesFrom candidates address (records.flatMap Record.bytes) =
      .ok (records.map fun record => decode candidates record.address record.bytes) := by
  induction records generalizing address with
  | nil => simp [linesFrom]
  | cons record rest ih =>
      obtain ⟨rfl, hrest⟩ := hcontiguous
      rw [List.flatMap_cons, linesFrom_append (hframed record List.mem_cons_self),
        ih hrest fun other hother => hframed other (List.mem_cons_of_mem _ hother)]
      rfl

end Listing

namespace Assembly

open EventScript.Field Listing

variable {script : String} {constants : Constants} {base : UInt32} {assembly : Assembly}

/-- The name of the label that a token refers to. -/
def labelOf? : Token → Option String
  | .label name => some name
  | _ => none

/-- How a listing spells what a token of a script stands for: a value in hexadecimal, a keyword as
it is, and the address of a label by the label that is named after it. -/
inductive Spelled (denotes : Token → UInt32 → Prop) (labels : String → Option UInt32) :
    Token → String → Prop where
  | value {token value} : denotes token value →
      Spelled denotes labels token ("0x" ++ String.ofList (Nat.toDigits 16 value.toNat))
  | keyword {word} : Spelled denotes labels (.keyword word) word
  | label {name address} : labels name = some address →
      Spelled denotes labels (.label name) (".L" ++ String.ofList
        (List.leftpad 8 '0' ((Nat.toDigits 16 address.toNat).map Char.toUpper)))

/-- The line is what was written for the record: it stands at the same address, and unless the
record was given byte by byte it has the same mnemonic, its operands are what those of the script
stand for, it refers to the addresses of the labels among them, and its text is the mnemonic and the
spellings of the operands. -/
structure ListedAs (script : String) (constants : Constants) (labels : String → Option UInt32)
    (record : Record) (line : Line) : Prop where
  address : line.address = record.address
  written : record.mnemonic ≠ Grammar.rawMnemonic → ∃ tokens spellings,
    StatementAt script record.line (.instruction record.mnemonic tokens) ∧
      List.Forall₂ (Resolves (Denotes script constants record.line) labels) tokens line.operands ∧
      line.mnemonic = record.mnemonic ∧
      line.targets.map some = (tokens.filterMap labelOf?).map labels ∧
      List.Forall₂ (Spelled (Denotes script constants record.line) labels) tokens spellings ∧
      line.text = " ".intercalate (record.mnemonic :: spellings)

/-- The text of a line is its mnemonic and its operands, with spaces between them. -/
theorem text_eq_intercalate (line : Line) :
    line.text = " ".intercalate (line.mnemonic :: line.operands.map Operand.text) := by
  obtain ⟨address, mnemonic, operands⟩ := line
  simp only [Line.text]
  induction operands generalizing mnemonic with
  | nil => simp
  | cons operand rest ih =>
      rw [List.map_cons, List.map_cons, String.intercalate_cons_cons, ← ih, String.join_cons]
      simp [String.append_assoc]

/-- A listed operand spells what its token stands for. -/
theorem spelled_of_resolves {denotes : Token → UInt32 → Prop} {labels : String → Option UInt32}
    {token : Token} {operand : Operand} (h : Resolves denotes labels token operand) :
    Spelled denotes labels token operand.text := by
  cases h with
  | value hdenotes => exact .value hdenotes
  | word => exact .keyword
  | @target name address haddress =>
      have hdigits : (Text.Numeral.hexDigitsPadded 8 address.toNat).map Char.toUpper =
          List.leftpad 8 '0' ((Nat.toDigits 16 address.toNat).map Char.toUpper) := by
        rw [Text.Numeral.hexDigitsPadded, List.map_append, List.map_replicate, List.leftpad,
          List.length_map]
        rfl
      have hmark : "." ++ "L" = ".L" := by decide
      rw [Operand.text, labelName, hdigits, ← String.append_assoc, hmark]
      exact .label haddress

/-- The addresses that resolved operands refer to are those of the labels that were written. -/
theorem targets_of_resolves {number : Nat} {labels : String → Option UInt32} {tokens : List Token}
    {operands : List Operand}
    (h : List.Forall₂ (Resolves (Denotes script constants number) labels) tokens operands) :
    (operands.filterMap Operand.target?).map some = (tokens.filterMap labelOf?).map labels := by
  induction h with
  | nil => rfl
  | cons hresolves _ ih =>
      cases hresolves with
      | value hdenotes => cases hdenotes <;> exact ih
      | word => exact ih
      | target haddress => simpa [Operand.target?, labelOf?, haddress] using ih

/-- The slots of what is encoded directly are aligned. -/
theorem Direct.alignedAt {grammar : Grammar} {symbols : SymbolTable}
    {labels : String → Option UInt32}
    {address : UInt32} {mnemonic : String} {operands : List Token} {bytes : Bytes}
    (h : Direct grammar symbols labels address mnemonic operands bytes)
    (hraw : mnemonic ≠ Grammar.rawMnemonic) {instruction : Instruction}
    (hfound : grammar.get? mnemonic = some instruction) :
    AlignedAt address instruction.template.fields := by
  cases h with
  | raw _ _ => exact absurd rfl hraw
  | template _ hother _ haligned _ =>
      obtain rfl := Option.some.inj (hfound.symm.trans hother)
      exact haligned

/-- The records of an assembled script are those of its lines, and are written in one pass with its
labels. -/
theorem recorded_of_assemble {grammar : Grammar} {admitted : String → Prop}
    (hgrammar : grammar.WellFormed admitted)
    (h : assemble grammar base constants script = .ok assembly) :
    ∃ final, Run grammar assembly.labels.get? 1 (.start base constants) (Text.linesOf script) final
        assembly.records ∧
      Recorded grammar script constants base assembly.labels.get? (1 + (Text.linesOf script).length)
        assembly.records := by
  obtain ⟨final, hrun, _, hlabels⟩ := (assemble_eq_ok_iff hgrammar).mp h
  have hstart :
      Progress grammar script constants base final.symbols.label? 1 (.start base constants) [] :=
    ⟨named_start script constants base, recorded_start .., by simp [State.start]⟩
  have hprogress := Progress.run hgrammar hrun rfl rfl hstart
  rw [List.nil_append] at hprogress
  have hget : assembly.labels.get? = final.symbols.label? := by
    rw [hlabels]
    exact funext hprogress.named.lists.get?_labels
  rw [hget]
  exact ⟨final, hrun, hprogress.recorded⟩

/-- What the instructions of a readable grammar with one-byte opcodes assemble is listed record by
record. -/
theorem listed_of_readable {grammar : Grammar} {admitted : String → Prop}
    (hwell : grammar.WellFormed admitted) (hreadable : grammar.Readable)
    (hnarrow : ∀ mnemonic, grammar.NarrowOpcode mnemonic)
    (h : assemble grammar base constants script = .ok assembly) :
    ∃ lines, Listing.lines grammar base assembly.bytes = .ok lines ∧
      List.Forall₂ (ListedAs script constants assembly.labels.get?) assembly.records lines := by
  obtain ⟨final, hrun, hrecorded⟩ := recorded_of_assemble hwell h
  have hframed : ∀ record ∈ assembly.records, record.bytes.Framed := by
    intro record hrecord
    obtain ⟨symbols, operands, hdirect⟩ := hrun.direct hrecord
    exact (hdirect.sized hwell).framed (hnarrow record.mnemonic)
  refine ⟨_, linesFrom_records hrecorded.contiguous hframed, ?_⟩
  rw [List.forall₂_map_right_iff]
  refine List.forall₂_same.mpr fun record hrecord => ⟨decode_address .., fun hraw => ?_⟩
  obtain ⟨tokens, hat, hencoded⟩ := hrecorded.encoded record hrecord
  rw [Encoded, if_neg hraw] at hencoded
  obtain ⟨instruction, values, hfound, hvalues, hencodes⟩ := hencoded
  have haligned : AlignedAt record.address instruction.template.fields := by
    obtain ⟨symbols, operands, hdirect⟩ := hrun.direct hrecord
    exact hdirect.alignedAt hraw hfound
  obtain ⟨hmnemonic, hoffers⟩ := hwell.offers_of_get? hfound
  have hmem : instruction ∈ grammar.toList :=
    List.mem_map.mpr ⟨_, Dictionary.mem_of_find? hfound, rfl⟩
  obtain ⟨operands, hmatch, hresolves⟩ := match?_of_encodes hoffers.template
    (hreadable.recoverable instruction hmem) hvalues haligned hencodes
  rw [decode_of_match? hreadable hmem hmatch, hmnemonic]
  refine ⟨tokens, operands.map Operand.text, hat, hresolves, rfl, targets_of_resolves hresolves, ?_,
    text_eq_intercalate _⟩
  rw [List.forall₂_map_right_iff]
  exact hresolves.imp fun _ _ => spelled_of_resolves

/-- What the built-in instructions assemble is listed record by record, and each line is what was
written for its record. -/
theorem listed_of_assemble (h : assemble Grammar.builtin base constants script = .ok assembly) :
    ∃ lines, Listing.lines Grammar.builtin base assembly.bytes = .ok lines ∧
      List.Forall₂ (ListedAs script constants assembly.labels.get?) assembly.records lines := by
  have hbuilt : Grammar.Built (fun _ => True) Grammar.builtin := .builtin
  exact listed_of_readable (hbuilt.wellFormed fun _ _ => trivial) Grammar.readable_builtin
    Grammar.narrowOpcode_builtin h

/-- The built-in instructions in the order in which they are tried. -/
theorem candidates_builtin :
    candidates Grammar.builtin.toList =
      ["jump_chest_empty", "load_text", "music", "set_npc_event", "end_event", "jump",
        "jump_by_dir", "nop", "show_dialog", "check_item", "close_dialog", "give_item", "repeat",
        "set_flag", "set_repeat", "take_item", "check_flag", "delay", "npc_update", "remove_all",
        "remove_trigger", "set_npc_pose"].filterMap Grammar.builtin.get? := by
  have hbuilt : Grammar.Built (fun _ => True) Grammar.builtin := .builtin
  have hnames := (hbuilt.wellFormed fun _ _ => trivial).nodup_mnemonics
  refine (candidates_perm ?_ hnames).symm.trans (List.mergeSort_of_pairwise ?_)
  · decide +kernel
  · decide +kernel

/-- A script with a keyword that is not encoded, two instructions that differ in their third byte
only, a raw record and a constant from outside is listed back. -/
theorem listed_of_assemble_items :
    ∃ script assembly lines,
      script = " check_item %key jz .none ; is it there?\n take_item %key\n.none:\n" ++
        " give_item 1\n db 7 3 0\n" ∧
      assemble Grammar.builtin 0x8000000 ⟨[("key", 5)]⟩ script = .ok assembly ∧
      assembly.bytes = [0x37, 8, 2, 5, 0x0c, 0, 0, 8, 0x37, 4, 1, 5, 0x37, 4, 0, 1, 7, 3, 0] ∧
      Listing.lines Grammar.builtin 0x8000000 assembly.bytes = .ok lines ∧
      lines.map Line.text =
        ["check_item 0x5 jz .L0800000C", "take_item 0x5", "give_item 0x1", "db 0x7 0x3 0x0"] ∧
      List.Forall₂ (ListedAs script ⟨[("key", 5)]⟩ assembly.labels.get?) assembly.records
        lines := by
  have hassemble : assemble Grammar.builtin 0x8000000 ⟨[("key", 5)]⟩
      (" check_item %key jz .none ; is it there?\n take_item %key\n.none:\n" ++
        " give_item 1\n db 7 3 0\n") =
      .ok ⟨0x8000000,
        [⟨0x8000000, 1, "check_item", [0x37, 8, 2, 5, 0x0c, 0, 0, 8]⟩,
          ⟨0x8000008, 2, "take_item", [0x37, 4, 1, 5]⟩,
          ⟨0x800000c, 4, "give_item", [0x37, 4, 0, 1]⟩,
          ⟨0x8000010, 5, "db", [7, 3, 0]⟩],
        ⟨[("none", 0x800000c)]⟩⟩ := by
    decide +kernel
  have htexts : (Listing.lines Grammar.builtin 0x8000000
      [0x37, 8, 2, 5, 0x0c, 0, 0, 8, 0x37, 4, 1, 5, 0x37, 4, 0, 1, 7, 3, 0]).map
        (List.map Line.text) =
      .ok ["check_item 0x5 jz .L0800000C", "take_item 0x5", "give_item 0x1", "db 0x7 0x3 0x0"] := by
    rw [Listing.lines, candidates_builtin]
    decide +kernel
  obtain ⟨lines, hlines, hlisted⟩ := listed_of_assemble hassemble
  have hbytes : Listing.lines Grammar.builtin 0x8000000
      [0x37, 8, 2, 5, 0x0c, 0, 0, 8, 0x37, 4, 1, 5, 0x37, 4, 0, 1, 7, 3, 0] = .ok lines := hlines
  rw [hbytes] at htexts
  exact ⟨_, _, lines, rfl, hassemble, rfl, hlines, Except.ok.inj htexts, hlisted⟩

end Assembly

end EventScript
