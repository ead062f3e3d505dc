import Mathlib.Data.List.Forall2
import EventScript.Proofs.Assembly.Buffer
import EventScript.Proofs.Framing

/-!
# Assembly in one pass

If the addresses of all labels were known from the start, every record could be written at once.
`Direct` says which bytes an instruction has then, `Step` what a statement does and `Run` what lines
do. `run_iff_lines` says that going through the lines with the places of labels left open and
filling these in afterwards is the same as this one pass.
-/

namespace EventScript

/-- The value of a number, or of a constant in the table. -/
def SymbolTable.value? (symbols : SymbolTable) : Token → Option UInt32
  | .number value => some value
  | .symbol name => symbols.constant? name
  | _ => none

namespace Statement

/-- A token has a value in an assembly just if it has one in the table. -/
theorem valueOf_eq_ok_iff {place : Place} {symbols : SymbolTable} {expected : String}
    {token : Token} {value : UInt32} :
    valueOf place symbols expected token = .ok value ↔ symbols.value? token = some value := by
  cases token with
  | symbol name =>
      cases hname : symbols.constant? name <;> simp [valueOf, SymbolTable.value?, hname]
  | _ => simp [valueOf, SymbolTable.value?]

/-- The token stands for the argument, as an operand of the kind. -/
inductive Takes (symbols : SymbolTable) : OperandKind → Token → Argument → Prop where
  | value {token value} : symbols.value? token = some value →
      Takes symbols .value token (.value value)
  | keyword {set word value} : KeywordSet.valueOf? set word = some value →
      Takes symbols (.keyword set) (.keyword word) (.value value.toUInt32)
  | label {name} : Takes symbols .label (.label name) (.label name)

/-- The tokens stand for the arguments, as operands of the kinds. -/
inductive TakesAll (symbols : SymbolTable) :
    List OperandKind → List Token → List Argument → Prop where
  | nil : TakesAll symbols [] [] []
  | cons {kind kinds token tokens argument arguments} :
      Takes symbols kind token argument → TakesAll symbols kinds tokens arguments →
      TakesAll symbols (kind :: kinds) (token :: tokens) (argument :: arguments)

theorem argumentOf_eq_ok_iff {place : Place} {symbols : SymbolTable} {kind : OperandKind}
    {token : Token} {argument : Argument} :
    argumentOf place symbols kind token = .ok argument ↔ Takes symbols kind token argument := by
  constructor
  · intro h
    cases kind with
    | value =>
        simp only [argumentOf] at h
        split at h
        · cases h
        · rename_i value hvalue
          cases h
          exact .value (valueOf_eq_ok_iff.mp hvalue)
    | keyword set =>
        cases token with
        | keyword word =>
            simp only [argumentOf] at h
            split at h
            · rename_i value hvalue
              cases h
              exact .keyword hvalue
            · cases h
        | _ => cases h
    | label =>
        cases token with
        | label name =>
            cases h
            exact .label
        | _ => cases h
  · intro h
    cases h with
    | value hvalue => simp [argumentOf, valueOf_eq_ok_iff.mpr hvalue]
    | keyword hvalue => simp [argumentOf, hvalue]
    | label => rfl

theorem arguments_eq_ok_iff {place : Place} {symbols : SymbolTable} {kinds : List OperandKind}
    {tokens : List Token} {taken : List Argument} :
    arguments place symbols kinds tokens = .ok taken ↔ TakesAll symbols kinds tokens taken := by
  constructor
  · intro h
    fun_induction arguments place symbols kinds tokens generalizing taken with
    | case1 =>
        cases h
        exact .nil
    | case6 kind kinds token tokens argument hargument rest hrest ih =>
        cases h
        exact .cons (argumentOf_eq_ok_iff.mp hargument) (ih hrest)
    | _ => cases h
  · intro h
    induction h with
    | nil => rfl
    | cons htakes _ ih => simp [arguments, argumentOf_eq_ok_iff.mpr htakes, ih]

/-- Tokens stand for bytes just if each has the value of its byte. -/
theorem bytesOf_eq_ok_iff {place : Place} {symbols : SymbolTable} {tokens : List Token}
    {bytes : Bytes} :
    bytesOf place symbols tokens = .ok bytes ↔
      List.Forall₂ (fun token (byte : UInt8) => symbols.value? token = some byte.toUInt32)
        tokens bytes := by
  constructor
  · intro h
    fun_induction bytesOf place symbols tokens generalizing bytes with
    | case1 =>
        cases h
        exact .nil
    | case4 token tokens value hvalue hfits rest hrest ih =>
        cases h
        refine .cons ?_ (ih hrest)
        rw [Width.toUInt32_toUInt8_of_fits hfits]
        exact valueOf_eq_ok_iff.mp hvalue
    | _ => cases h
  · intro h
    induction h with
    | nil => rfl
    | cons hvalue _ ih =>
        simp [bytesOf, valueOf_eq_ok_iff.mpr hvalue, ih]

/-- Tokens stand for the bytes of a raw record just if these are framed. -/
theorem rawRecord_eq_ok_iff {place : Place} {symbols : SymbolTable} {tokens : List Token}
    {bytes : Bytes} :
    rawRecord place symbols tokens = .ok bytes ↔
      bytesOf place symbols tokens = .ok bytes ∧ bytes.Framed := by
  unfold rawRecord
  cases hbytes : bytesOf place symbols tokens with
  | error fault => simp
  | ok read =>
      by_cases hframed : read[1]?.map UInt8.toNat = some read.length
      · simp only [hframed, if_true, Except.ok.injEq]
        exact ⟨fun h => ⟨h, h ▸ hframed⟩, fun h => h.1⟩
      · simp only [hframed, if_false, reduceCtorEq, Except.ok.injEq, false_iff, not_and]
        rintro rfl
        exact hframed

/-- Labels are only taken for operands that are labels. -/
theorem TakesAll.kind_of_label {symbols : SymbolTable} {kinds : List OperandKind}
    {tokens : List Token} {taken : List Argument} (h : TakesAll symbols kinds tokens taken)
    {operand : Nat} {name : String} (hlabel : taken[operand]? = some (.label name)) :
    kinds[operand]? = some .label := by
  induction h generalizing operand with
  | nil => simp at hlabel
  | cons htakes _ ih =>
      cases operand with
      | zero =>
          simp only [List.getElem?_cons_zero, Option.some.injEq] at hlabel
          subst hlabel
          cases htakes
          rfl
      | succ operand =>
          rw [List.getElem?_cons_succ] at hlabel
          exact ih hlabel

end Statement

namespace Assembly

open EventScript.Field Statement

/-- The bytes of an instruction at an address, if the table holds its constants and the labels have
the given addresses. -/
inductive Direct (grammar : Grammar) (symbols : SymbolTable) (labels : String → Option UInt32)
    (address : UInt32) : String → List Token → Bytes → Prop where
  | raw {operands bytes} :
      List.Forall₂ (fun token (byte : UInt8) => symbols.value? token = some byte.toUInt32)
        operands bytes →
      Bytes.Framed bytes → Direct grammar symbols labels address Grammar.rawMnemonic operands bytes
  | template {mnemonic operands instruction arguments bytes} :
      mnemonic ≠ Grammar.rawMnemonic → grammar.get? mnemonic = some instruction →
      TakesAll symbols instruction.kinds operands arguments →
      AlignedAt address instruction.template.fields →
      Encodes (Argument.valueAt? labels arguments) instruction.template.fields bytes →
      Direct grammar symbols labels address mnemonic operands bytes

/-- What a statement on the line with the given number does, and the record it gives. -/
inductive Step (grammar : Grammar) (labels : String → Option UInt32) (number : Nat)
    (state : State) :
    Statement → State → List Record → Prop where
  | blank : Step grammar labels number state .blank state []
  | mark {name symbols} : state.symbols.define? name (.label state.address) = some symbols →
      Step grammar labels number state (.mark name) ⟨symbols, state.address⟩ []
  | label {name token value symbols} : state.symbols.value? token = some value →
      state.symbols.define? name (.label value) = some symbols →
      Step grammar labels number state (.label name token) ⟨symbols, state.address⟩ []
  | constant {name token value symbols} : state.symbols.value? token = some value →
      state.symbols.define? name (.constant value) = some symbols →
      Step grammar labels number state (.constant name token) ⟨symbols, state.address⟩ []
  | instruction {mnemonic operands bytes} :
      Direct grammar state.symbols labels state.address mnemonic operands bytes →
      Step grammar labels number state (.instruction mnemonic operands)
        ⟨state.symbols, state.address + UInt32.ofNat bytes.length⟩
        [⟨state.address, number, mnemonic, bytes⟩]

/-- The line with the given number is read as the statement. -/
def Reads (number : Nat) (text : List Char) (statement : Statement) : Prop :=
  ∃ tokens, Token.scan number text = .ok tokens ∧
    Statement.ofTokens ⟨number, String.ofList (Text.trim text)⟩ tokens = .ok statement

/-- A line is read as at most one statement. -/
theorem Reads.unique {number : Nat} {text : List Char} {statement other : Statement}
    (h : Reads number text statement) (hother : Reads number text other) : statement = other := by
  obtain ⟨tokens, htokens, hstatement⟩ := h
  obtain ⟨others, hothers, hotherStatement⟩ := hother
  obtain rfl := Except.ok.inj (htokens.symm.trans hothers)
  exact Except.ok.inj (hstatement.symm.trans hotherStatement)

/-- What lines do, and the records they give. The first line has the given number. -/
inductive Run (grammar : Grammar) (labels : String → Option UInt32) :
    Nat → State → List (List Char) → State → List Record → Prop where
  | nil {number state} : Run grammar labels number state [] state []
  | cons {number state text rest statement after final first records} :
      Reads number text statement → Step grammar labels number state statement after first →
      Run grammar labels (number + 1) after rest final records →
      Run grammar labels number state (text :: rest) final (first ++ records)

/-- The places of labels among taken arguments are four bytes wide. -/
theorem labelsWide_of_takesAll {symbols : SymbolTable} {kinds : List OperandKind}
    {tokens : List Token} {arguments : List Argument} {template : Template}
    (h : TakesAll symbols kinds tokens arguments) (htemplate : template.WellFormed kinds) :
    LabelsWide arguments template.fields :=
  fun operand width _ hslot hlabel =>
    htemplate.label_width operand width hslot (h.kind_of_label hlabel)

/-- A record is closed with the bytes that filling in the places of its labels leaves. -/
theorem OpenRecord.close_eq_ok_iff {symbols : SymbolTable} {opened : OpenRecord} {closed : Record} :
    opened.close symbols = .ok closed ↔
      ∃ writer, fill symbols opened.place opened.writer opened.fixups = .ok writer ∧
        closed = ⟨writer.base, opened.place.number, opened.mnemonic, writer.bytes⟩ := by
  unfold close
  cases fill symbols opened.place opened.writer opened.fixups <;> simp [eq_comm]

/-- Filling in the places of labels in a record gives its direct encoding. -/
theorem close_opens_iff {arguments : List Argument} {address : UInt32} {fields : List Field}
    {written : Bytes} {fixups : List Fixup} (h : Opens arguments address 0 fields written fixups)
    (hwide : LabelsWide arguments fields) {place : Place} {mnemonic : String}
    {symbols : SymbolTable} {closed : Record} :
    OpenRecord.close symbols ⟨place, mnemonic, ⟨address, written⟩, fixups⟩ = .ok closed ↔
      ∃ bytes, Encodes (Argument.valueAt? symbols.label? arguments) fields bytes ∧
        closed = ⟨address, place.number, mnemonic, bytes⟩ := by
  have hfill : ∀ writer, fill symbols place ⟨address, written⟩ fixups = .ok writer ↔
      ∃ bytes, writer = ⟨address, bytes⟩ ∧
        Encodes (Argument.valueAt? symbols.label? arguments) fields bytes :=
    fun writer => h.fill_eq_ok_iff hwide [] writer rfl
  rw [OpenRecord.close_eq_ok_iff]
  constructor
  · rintro ⟨writer, hwriter, rfl⟩
    obtain ⟨bytes, rfl, hencodes⟩ := (hfill writer).mp hwriter
    exact ⟨bytes, hencodes, rfl⟩
  · rintro ⟨bytes, hencodes, rfl⟩
    exact ⟨⟨address, bytes⟩, (hfill _).mpr ⟨bytes, rfl, hencodes⟩, rfl⟩

variable {grammar : Grammar} {admitted : String → Prop} {state : State}

/-- The forms of an open record: the bytes of a raw record, or the fields of an instruction. -/
theorem State.record_eq_ok_iff {place : Place} {mnemonic : String} {operands : List Token}
    {opened : OpenRecord} :
    state.record grammar place mnemonic operands = .ok opened ↔
      (∃ bytes, mnemonic = Grammar.rawMnemonic ∧
        rawRecord place state.symbols operands = .ok bytes ∧
        opened = ⟨place, mnemonic, ⟨state.address, bytes⟩, []⟩) ∨
      ∃ instruction arguments bytes fixups, mnemonic ≠ Grammar.rawMnemonic ∧
        grammar.get? mnemonic = some instruction ∧
        TakesAll state.symbols instruction.kinds operands arguments ∧
        Opens arguments state.address 0 instruction.template.fields bytes fixups ∧
        opened = ⟨place, mnemonic, ⟨state.address, bytes⟩, fixups⟩ := by
  constructor
  · intro h
    unfold State.record at h
    split at h
    · cases h
    · rename_i writer fixups hwrite
      cases h
      unfold write at hwrite
      split at hwrite
      · rename_i hraw
        split at hwrite
        · cases hwrite
        · rename_i bytes hbytes
          cases hwrite
          exact .inl ⟨bytes, hraw, hbytes, rfl⟩
      · rename_i hraw
        split at hwrite
        · cases hwrite
        · rename_i instruction hfound
          split at hwrite
          · cases hwrite
          · rename_i arguments harguments
            split at hwrite
            · cases hwrite
            · rename_i hencode
              cases hwrite
              obtain ⟨bytes, rfl, hopens⟩ := Instruction.encodeFields_eq_ok_iff.mp hencode
              exact .inr ⟨instruction, arguments, bytes, fixups, hraw, hfound,
                arguments_eq_ok_iff.mp harguments, hopens, rfl⟩
  · rintro (⟨bytes, rfl, hbytes, rfl⟩ |
      ⟨instruction, arguments, bytes, fixups, hraw, hfound, htakes, hopens, rfl⟩)
    · simp [State.record, write, hbytes, Writer.start, Writer.putBytes]
    · have hencode : instruction.encode arguments (.start state.address) =
          (⟨state.address, bytes⟩, .ok fixups) :=
        Instruction.encodeFields_eq_ok_iff.mpr ⟨bytes, rfl, hopens⟩
      simp [State.record, write, hraw, hfound, arguments_eq_ok_iff.mpr htakes, hencode]

/-- Writing a record with the places of labels left open and filling these in is the same as
encoding it directly. -/
theorem record_close_iff (hgrammar : grammar.WellFormed admitted) {place : Place}
    {mnemonic : String}
    {operands : List Token} {symbols : SymbolTable} {closed : Record} {after : UInt32} :
    (∃ opened, state.record grammar place mnemonic operands = .ok opened ∧
        opened.close symbols = .ok closed ∧ opened.writer.address = after) ↔
      ∃ bytes, Direct grammar state.symbols symbols.label? state.address mnemonic operands bytes ∧
        closed = ⟨state.address, place.number, mnemonic, bytes⟩ ∧
        after = state.address + UInt32.ofNat bytes.length := by
  constructor
  · rintro ⟨opened, hrecord, hclose, rfl⟩
    obtain ⟨bytes, rfl, hbytes, rfl⟩ |
      ⟨instruction, arguments, written, fixups, hraw, hfound, htakes, hopens, rfl⟩ :=
      State.record_eq_ok_iff.mp hrecord
    · obtain ⟨hvalues, hframed⟩ := rawRecord_eq_ok_iff.mp hbytes
      cases hclose
      exact ⟨bytes, .raw (bytesOf_eq_ok_iff.mp hvalues) hframed, rfl, rfl⟩
    · have hwide := labelsWide_of_takesAll htakes (hgrammar.offers_of_get? hfound).2.template
      obtain ⟨bytes, hencodes, rfl⟩ := (close_opens_iff hopens hwide).mp hclose
      have haligned : AlignedAt state.address instruction.template.fields := by
        simpa using hopens.alignedAt hwide
      refine ⟨bytes, .template hraw hfound htakes haligned hencodes, rfl, ?_⟩
      simp only [Writer.address, Writer.size]
      rw [hopens.length_eq hwide, hencodes.length_eq]
  · rintro ⟨bytes, hdirect, rfl, rfl⟩
    cases hdirect with
    | raw hvalues hframed =>
        refine ⟨_, State.record_eq_ok_iff.mpr (.inl ⟨bytes, rfl,
          rawRecord_eq_ok_iff.mpr ⟨bytesOf_eq_ok_iff.mpr hvalues, hframed⟩, rfl⟩), rfl, rfl⟩
    | template hraw hfound htakes haligned hencodes =>
        have hwide := labelsWide_of_takesAll htakes (hgrammar.offers_of_get? hfound).2.template
        obtain ⟨written, fixups, hopens⟩ :
            ∃ written fixups, Opens _ state.address 0 _ written fixups :=
          hencodes.exists_opens hwide (by simpa using haligned)
        refine ⟨_, State.record_eq_ok_iff.mpr (.inr ⟨_, _, written, fixups, hraw, hfound, htakes,
          hopens, rfl⟩), (close_opens_iff hopens hwide).mpr ⟨bytes, hencodes, rfl⟩, ?_⟩
        simp only [Writer.address, Writer.size]
        rw [hopens.length_eq hwide, hencodes.length_eq]

/-- Records are closed one by one. -/
theorem closeAll_cons_eq_ok_iff {symbols : SymbolTable} {opened : OpenRecord}
    {rest : List OpenRecord} {closed : List Record} :
    closeAll symbols (opened :: rest) = .ok closed ↔
      ∃ first records, opened.close symbols = .ok first ∧ closeAll symbols rest = .ok records ∧
        closed = first :: records := by
  simp only [closeAll]
  cases opened.close symbols with
  | error fault => simp
  | ok first => cases closeAll symbols rest <;> simp [eq_comm]

/-- Records are closed one list after the other. -/
theorem closeAll_append_eq_ok_iff {symbols : SymbolTable} {before after : List OpenRecord}
    {closed : List Record} :
    closeAll symbols (before ++ after) = .ok closed ↔
      ∃ first records, closeAll symbols before = .ok first ∧ closeAll symbols after = .ok records ∧
        closed = first ++ records := by
  induction before generalizing closed with
  | nil => simp [closeAll]
  | cons opened rest ih =>
      rw [List.cons_append, closeAll_cons_eq_ok_iff]
      constructor
      · rintro ⟨first, records, hfirst, hrecords, rfl⟩
        obtain ⟨middle, last, hmiddle, hlast, rfl⟩ := ih.mp hrecords
        exact ⟨first :: middle, last,
          closeAll_cons_eq_ok_iff.mpr ⟨first, middle, hfirst, hmiddle, rfl⟩,
          hlast, rfl⟩
      · rintro ⟨front, last, hfront, hlast, rfl⟩
        obtain ⟨first, middle, hfirst, hmiddle, rfl⟩ := closeAll_cons_eq_ok_iff.mp hfront
        exact ⟨first, middle ++ last, hfirst, ih.mpr ⟨middle, last, hmiddle, hlast, rfl⟩, rfl⟩

/-- A statement that gives a name writes no record. -/
theorem define_map_iff {place : Place} {name : String} {symbol : Symbol} {symbols : SymbolTable}
    {after : State} {closed : List Record} :
    (∃ opened : Option OpenRecord,
        (state.define place name symbol).map (·, none) = .ok (after, opened) ∧
        closeAll symbols opened.toList = .ok closed) ↔
      ∃ given, state.symbols.define? name symbol = some given ∧ after = ⟨given, state.address⟩ ∧
        closed = [] := by
  unfold State.define
  cases state.symbols.define? name symbol with
  | none => simp [Except.map]
  | some given =>
      constructor
      · rintro ⟨opened, hdefine, hclose⟩
        cases hdefine
        cases hclose
        exact ⟨given, rfl, rfl, rfl⟩
      · rintro ⟨other, hother, rfl, rfl⟩
        cases hother
        exact ⟨none, rfl, rfl⟩

/-- A statement does in two passes what it does in one. -/
theorem step_iff_statement (hgrammar : grammar.WellFormed admitted) {place : Place}
    {statement : Statement} {symbols : SymbolTable} {after : State} {closed : List Record} :
    (∃ opened, state.statement grammar place statement = .ok (after, opened) ∧
        closeAll symbols opened.toList = .ok closed) ↔
      Step grammar symbols.label? place.number state statement after closed := by
  constructor
  · rintro ⟨opened, hstatement, hclose⟩
    cases statement with
    | blank =>
        cases hstatement
        cases hclose
        exact .blank
    | mark name =>
        obtain ⟨given, hgiven, rfl, rfl⟩ := define_map_iff.mp ⟨opened, hstatement, hclose⟩
        exact .mark hgiven
    | label name token =>
        simp only [State.statement] at hstatement
        split at hstatement
        · cases hstatement
        · rename_i value hvalue
          obtain ⟨given, hgiven, rfl, rfl⟩ := define_map_iff.mp ⟨opened, hstatement, hclose⟩
          exact .label (valueOf_eq_ok_iff.mp hvalue) hgiven
    | constant name token =>
        simp only [State.statement] at hstatement
        split at hstatement
        · cases hstatement
        · rename_i value hvalue
          obtain ⟨given, hgiven, rfl, rfl⟩ := define_map_iff.mp ⟨opened, hstatement, hclose⟩
          exact .constant (valueOf_eq_ok_iff.mp hvalue) hgiven
    | instruction mnemonic operands =>
        simp only [State.statement] at hstatement
        split at hstatement
        · cases hstatement
        · rename_i record hrecord
          cases hstatement
          obtain ⟨first, records, hfirst, hrecords, rfl⟩ := closeAll_cons_eq_ok_iff.mp hclose
          cases hrecords
          obtain ⟨bytes, hdirect, rfl, haddress⟩ :=
            (record_close_iff hgrammar).mp ⟨record, hrecord, hfirst, rfl⟩
          rw [haddress]
          exact .instruction hdirect
  · intro h
    cases h with
    | blank => exact ⟨none, rfl, rfl⟩
    | mark hgiven => exact define_map_iff.mpr ⟨_, hgiven, rfl, rfl⟩
    | label hvalue hgiven =>
        simp only [State.statement, valueOf_eq_ok_iff.mpr hvalue]
        exact define_map_iff.mpr ⟨_, hgiven, rfl, rfl⟩
    | constant hvalue hgiven =>
        simp only [State.statement, valueOf_eq_ok_iff.mpr hvalue]
        exact define_map_iff.mpr ⟨_, hgiven, rfl, rfl⟩
    | instruction hdirect =>
        obtain ⟨opened, hrecord, hclose, haddress⟩ :=
          (record_close_iff hgrammar).mpr ⟨_, hdirect, rfl, rfl⟩
        refine ⟨some opened, ?_, closeAll_cons_eq_ok_iff.mpr ⟨_, [], hclose, rfl, rfl⟩⟩
        simp only [State.statement, hrecord, haddress]

/-- A line does what the statement does that it is read as. -/
theorem State.line_eq_ok_iff {number : Nat} {text : List Char}
    {result : State × Option OpenRecord} :
    state.line grammar number text = .ok result ↔
      ∃ statement, Reads number text statement ∧
        state.statement grammar ⟨number, String.ofList (Text.trim text)⟩ statement =
          .ok result := by
  simp only [State.line, Reads]
  cases Token.scan number text with
  | error fault => simp
  | ok tokens =>
      simp only [Except.ok.injEq, exists_eq_left']
      cases Statement.ofTokens ⟨number, String.ofList (Text.trim text)⟩ tokens <;> simp

/-- Lines are gone through one by one. -/
theorem State.lines_cons_eq_ok_iff {final : State} {number : Nat} {text : List Char}
    {rest : List (List Char)} {opened : List OpenRecord} :
    state.lines grammar number (text :: rest) = .ok (final, opened) ↔
      ∃ statement after record records, Reads number text statement ∧
        state.statement grammar ⟨number, String.ofList (Text.trim text)⟩ statement =
          .ok (after, record) ∧
        after.lines grammar (number + 1) rest = .ok (final, records) ∧
        opened = record.toList ++ records := by
  constructor
  · intro h
    simp only [State.lines] at h
    split at h
    · cases h
    · rename_i after record hline
      split at h
      · cases h
      · rename_i last records hrest
        cases h
        obtain ⟨statement, hreads, hstatement⟩ := State.line_eq_ok_iff.mp hline
        exact ⟨statement, after, record, records, hreads, hstatement, hrest, rfl⟩
  · rintro ⟨statement, after, record, records, hreads, hstatement, hrest, rfl⟩
    simp only [State.lines, State.line_eq_ok_iff.mpr ⟨statement, hreads, hstatement⟩, hrest]

/-- Going through lines with the places of labels left open and filling these in is the same as
going through them once with the addresses of the labels known. -/
theorem run_iff_lines (hgrammar : grammar.WellFormed admitted) {symbols : SymbolTable}
    {number : Nat} {texts : List (List Char)} {final : State} {closed : List Record} :
    (∃ opened, state.lines grammar number texts = .ok (final, opened) ∧
        closeAll symbols opened = .ok closed) ↔
      Run grammar symbols.label? number state texts final closed := by
  -- The table that fills in labels is that of the end and the same for all lines.
  constructor
  · rintro ⟨opened, hlines, hclose⟩
    induction texts generalizing state number opened closed with
    | nil =>
        cases hlines
        cases hclose
        exact .nil
    | cons text rest ih =>
        obtain ⟨statement, after, record, records, hreads, hstatement, hrest, rfl⟩ :=
          State.lines_cons_eq_ok_iff.mp hlines
        obtain ⟨first, more, hfirst, hmore, rfl⟩ := closeAll_append_eq_ok_iff.mp hclose
        exact .cons hreads
          ((step_iff_statement hgrammar).mp ⟨record, hstatement, hfirst⟩) (ih records hrest hmore)
  · intro h
    induction h with
    | nil => exact ⟨[], rfl, rfl⟩
    | @cons number state text rest statement after final first records hreads hstep _ ih =>
        obtain ⟨opened, hlines, hclose⟩ := ih
        obtain ⟨record, hstatement, hfirst⟩ :
            ∃ record, state.statement grammar ⟨number, String.ofList (Text.trim text)⟩ statement =
                .ok (after, record) ∧ closeAll symbols record.toList = .ok first :=
          (step_iff_statement hgrammar).mpr hstep
        exact ⟨record.toList ++ opened,
          State.lines_cons_eq_ok_iff.mpr ⟨statement, after, record, opened, hreads, hstatement,
            hlines, rfl⟩,
          closeAll_append_eq_ok_iff.mpr ⟨first, records, hfirst, hclose, rfl⟩⟩

variable {base : UInt32} {constants : Constants} {script : String} {assembly : Assembly}

/-- Assembling is going through the lines and then filling in the labels. -/
theorem assemble_eq_ok_iff_passes :
    assemble grammar base constants script = .ok assembly ↔
      ∃ final opened records,
        (State.start base constants).lines grammar 1 (Text.linesOf script) = .ok (final, opened) ∧
        closeAll final.symbols opened = .ok records ∧
        assembly = ⟨base, records, final.symbols.labels⟩ := by
  rw [assemble_eq_records]
  unfold assembleRecords
  cases hlines : (State.start base constants).lines grammar 1 (Text.linesOf script) with
  | error fault => simp
  | ok result =>
      obtain ⟨final, opened⟩ := result
      cases hclose : closeAll final.symbols opened <;> simp [hclose, eq_comm]

/-- Assembling is one pass through the lines, with the addresses that the labels have at its end. -/
theorem assemble_eq_ok_iff (hgrammar : grammar.WellFormed admitted) :
    assemble grammar base constants script = .ok assembly ↔
      ∃ final,
        Run grammar final.symbols.label? 1 (.start base constants) (Text.linesOf script) final
          assembly.records ∧
        assembly.base = base ∧ assembly.labels = final.symbols.labels := by
  constructor
  · intro h
    obtain ⟨final, opened, records, hlines, hclose, rfl⟩ := assemble_eq_ok_iff_passes.mp h
    exact ⟨final, (run_iff_lines hgrammar).mp ⟨opened, hlines, hclose⟩, rfl, rfl⟩
  · rintro ⟨final, hrun, rfl, hlabels⟩
    obtain ⟨opened, hlines, hclose⟩ := (run_iff_lines hgrammar).mpr hrun
    rw [assemble_eq_ok_iff_passes]
    exact ⟨final, opened, assembly.records, hlines, hclose, hlabels ▸ rfl⟩

end Assembly

end EventScript
