import EventScript.Proofs.Assembly.Meaning
import EventScript.Proofs.Assembly.Move

/-!
# References to labels

`references` lists the labels that a script refers to, line by line and in the order of the slots of
each instruction. The places that are left open in the buffer while the lines are gone through are
these, and each of them can be filled in (`Draft.lines_references`), so filling them in fails just
at the first reference to a name that is no label (`fillAll_eq_error_iff`). Which names are labels
can be seen from the statements (`State.lines_label?`).
-/

namespace EventScript

/-- The name of the label that a token stands for. -/
def Token.label? : Token → Option String
  | .label name => some name
  | _ => none

/-- The name of the label that an argument stands for. -/
def Argument.label? : Argument → Option String
  | .label name => some name
  | _ => none

/-- The index of the operand that a field holds. -/
def Field.operand? : Field → Option Nat
  | .literal _ => none
  | .slot operand _ => some operand

/-- The labels that an instruction with the given operands refers to, in the order of its slots. -/
def Instruction.references (instruction : Instruction) (operands : List Token) : List String :=
  (instruction.template.fields.filterMap Field.operand?).filterMap fun operand =>
    operands[operand]?.bind Token.label?

theorem Instruction.mem_references {instruction : Instruction} {operands : List Token}
    {name : String} :
    name ∈ instruction.references operands ↔
      ∃ operand width, Field.slot operand width ∈ instruction.template.fields ∧
        operands[operand]? = some (.label name) := by
  have htoken : ∀ token : Token, token.label? = some name ↔ token = .label name := by
    intro token
    cases token <;> simp [Token.label?]
  simp only [references, List.mem_filterMap, Option.bind_eq_some_iff, htoken, exists_eq_right]
  constructor
  · rintro ⟨operand, ⟨field, hfield, hoperand⟩, hname⟩
    cases field with
    | literal byte => cases hoperand
    | slot other width =>
        cases hoperand
        exact ⟨operand, width, hfield, hname⟩
  · rintro ⟨operand, width, hfield, hname⟩
    exact ⟨operand, ⟨_, hfield, rfl⟩, hname⟩

/-- No instruction has the mnemonic of raw records. -/
theorem Grammar.WellFormed.get?_raw {grammar : Grammar} {admitted : String → Prop}
    (h : grammar.WellFormed admitted) : grammar.get? Grammar.rawMnemonic = none := by
  refine Option.eq_none_iff_forall_ne_some.mpr fun instruction hfound => ?_
  obtain ⟨hmnemonic, hoffers⟩ := h.offers_of_get? hfound
  exact hoffers.not_raw hmnemonic

namespace SymbolTable

variable {table after : SymbolTable} {given : String}

/-- The labels after a label was defined. -/
theorem label?_define?_label {address : UInt32}
    (h : table.define? given (.label address) = some after) (name : String) :
    after.label? name = if name = given then some address else table.label? name := by
  simp only [label?, get?_of_define? h]
  by_cases hname : name = given <;> simp [hname]

/-- Defining a constant leaves the labels. -/
theorem label?_define?_constant {value : UInt32}
    (h : table.define? given (.constant value) = some after) (name : String) :
    after.label? name = table.label? name := by
  simp only [label?, get?_of_define? h]
  by_cases hname : name = given
  · rw [hname, (define?_eq_some_iff.mp h).1]
    simp
  · simp [hname]

end SymbolTable

namespace Statement

/-- The statement that the line with the given number is read as. -/
def read? (number : Nat) (text : List Char) : Option Statement :=
  (Token.scan number text).toOption.bind fun tokens =>
    (ofTokens ⟨number, String.ofList (Text.trim text)⟩ tokens).toOption

/-- The labels that the statement refers to, in the order of the slots of its instruction. -/
def references (grammar : Grammar) : Statement → List String
  | .instruction mnemonic operands =>
      ((grammar.get? mnemonic).map (Instruction.references · operands)).getD []
  | _ => []

/-- The label that the statement defines. -/
def label? : Statement → Option String
  | .mark name => some name
  | .label name _ => some name
  | _ => none

theorem read?_eq_some_iff {number : Nat} {text : List Char} {statement : Statement} :
    read? number text = some statement ↔ Assembly.Reads number text statement := by
  unfold read? Assembly.Reads
  cases Token.scan number text with
  | error fault => simp [Except.toOption]
  | ok tokens =>
      cases htokens : ofTokens ⟨number, String.ofList (Text.trim text)⟩ tokens <;>
        simp [Except.toOption, htokens]

variable {symbols : SymbolTable} {kinds : List OperandKind} {tokens : List Token}
  {taken : List Argument}

/-- An argument is a label just if its token is. -/
theorem TakesAll.label?_eq (h : TakesAll symbols kinds tokens taken) (operand : Nat) :
    taken[operand]?.bind Argument.label? = tokens[operand]?.bind Token.label? := by
  induction h generalizing operand with
  | nil => rfl
  | @cons _ _ token _ _ _ htakes _ ih =>
      cases operand with
      | zero =>
          cases htakes with
          | value hvalue =>
              cases token with
              | label name => cases hvalue
              | _ => rfl
          | keyword _ => rfl
          | label => rfl
      | succ operand => exact ih operand

/-- A label among the tokens is one of the operands that are labels. -/
theorem TakesAll.exists_kind (h : TakesAll symbols kinds tokens taken) {name : String}
    (hname : Token.label name ∈ tokens) :
    ∃ operand : Nat, kinds[operand]? = some .label ∧ tokens[operand]? = some (.label name) := by
  obtain ⟨operand, hoperand⟩ := List.mem_iff_getElem?.mp hname
  have hlabel := h.label?_eq operand
  rw [hoperand, Option.bind_some, Token.label?, Option.bind_eq_some_iff] at hlabel
  obtain ⟨argument, hargument, hargumentName⟩ := hlabel
  cases argument with
  | value value => cases hargumentName
  | label other => exact ⟨operand, h.kind_of_label hargument, hoperand⟩

/-- The operands of a raw record have values, which labels have not. -/
theorem label_not_mem_of_bytesOf {place : Place} {bytes : Bytes} {name : String}
    (h : bytesOf place symbols tokens = .ok bytes) : Token.label name ∉ tokens := by
  have hvalues := bytesOf_eq_ok_iff.mp h
  clear h
  induction hvalues with
  | nil => simp
  | cons hvalue _ ih =>
      intro hname
      rcases List.mem_cons.mp hname with rfl | hname
      · cases hvalue
      · exact ih hname

end Statement

namespace Field

variable {arguments : List Argument} {base : UInt32} {offset : Nat} {fields : List Field}
  {bytes : Bytes} {fixups : List Fixup}

/-- The places that are left open are those of labels, in the order of the slots. -/
theorem Opens.labels_eq (h : Opens arguments base offset fields bytes fixups) :
    fixups.map Fixup.label =
      (fields.filterMap Field.operand?).filterMap fun operand =>
        arguments[operand]?.bind Argument.label? := by
  induction h with
  | nil => rfl
  | literal _ ih => exact ih
  | value hargument _ _ _ ih => simp [Field.operand?, hargument, Argument.label?, ih]
  | label hargument _ _ ih => simp [Field.operand?, hargument, Argument.label?, ih]

end Field

namespace Assembly

open Text Statement

variable {grammar : Grammar} {symbols : SymbolTable} {state final : State} {number : Nat}
  {name : String}

/-- The labels that lines refer to, with the numbers of the lines. The first line has the given
number. -/
def references (grammar : Grammar) (number : Nat) : List (List Char) → List (Nat × String)
  | [] => []
  | text :: rest =>
      ((read? number text).toList.flatMap (Statement.references grammar)).map (number, ·) ++
        references grammar (number + 1) rest

/-- The labels whose places in the record are open, with the number of its line. -/
def OpenRecord.references (record : OpenRecord) : List (Nat × String) :=
  record.fixups.map fun fixup => (record.place.number, fixup.label)

/-- The name is none of a label. -/
def isUndefined (symbols : SymbolTable) (name : String) : Bool :=
  (symbols.label? name).isNone

/-- The label that is to be filled in, with the number of the line that refers to it. -/
def Pending.reference (pending : Pending) : Nat × String :=
  (pending.place.number, pending.fixup.label)

/-- Filling in labels that fit fails just at the first one that is undefined. -/
theorem fillAll_eq_error_iff {writer : Writer} {pending : List Pending} {fault : AssemblyError}
    (hfits : ∀ place ∈ pending, place.fixup.Fits writer.base writer.size) :
    fillAll symbols writer pending = .error fault ↔
      ∃ reference, (pending.map Pending.reference).find?
          (fun reference => isUndefined symbols reference.2) = some reference ∧
        fault = .undefinedLabel reference.2 reference.1 := by
  induction pending generalizing writer with
  | nil => simp [fillAll]
  | cons first rest ih =>
      obtain ⟨hfirst, hrest⟩ := List.forall_mem_cons.mp hfits
      cases hlabel : symbols.label? first.fixup.label with
      | none => simp [fillAll, hlabel, isUndefined, Pending.reference, eq_comm]
      | some address =>
          obtain ⟨after, hafter, hbase, hsize⟩ := Writer.patch_of_fits hfirst address
          rw [← hbase, ← hsize] at hrest
          simp only [fillAll, hlabel, hafter, ih hrest]
          simp [isUndefined, Pending.reference, hlabel]

/-- The places that are open in the buffer are those of the records. -/
theorem map_reference_pendingFrom (start : Nat) (records : List OpenRecord) :
    (pendingFrom start records).map Pending.reference = records.flatMap OpenRecord.references := by
  induction records generalizing start with
  | nil => rfl
  | cons record rest ih =>
      rw [pendingFrom, List.map_append, ih, List.flatMap_cons, List.map_map]
      rfl

/-- A record leaves the places of the labels open that its statement refers to. -/
theorem State.record_references {admitted : String → Prop} (hgrammar : grammar.WellFormed admitted)
    {place : Place} {mnemonic : String} {operands : List Token} {record : OpenRecord}
    (h : state.record grammar place mnemonic operands = .ok record) :
    record.references =
      ((Statement.instruction mnemonic operands).references grammar).map (place.number, ·) := by
  obtain ⟨bytes, rfl, _, rfl⟩ |
    ⟨instruction, arguments, bytes, fixups, _, hfound, htakes, hopens, rfl⟩ :=
    State.record_eq_ok_iff.mp h
  · simp [OpenRecord.references, Statement.references, hgrammar.get?_raw]
  · have hlabels := hopens.labels_eq
    simp only [htakes.label?_eq] at hlabels
    simp only [OpenRecord.references, Statement.references, hfound, Option.map_some,
      Option.getD_some, Instruction.references, ← hlabels, List.map_map]
    rfl

/-- All that a statement can leave for the lines behind it, and the record it writes. -/
inductive State.Leaves (grammar : Grammar) (state : State) (place : Place) :
    Statement → State → Option OpenRecord → Prop where
  | blank : Leaves grammar state place .blank state none
  | mark {given after} : state.symbols.define? given (.label state.address) = some after →
      Leaves grammar state place (.mark given) ⟨after, state.address⟩ none
  | label {given token address after} : state.symbols.define? given (.label address) = some after →
      Leaves grammar state place (.label given token) ⟨after, state.address⟩ none
  | constant {given token value after} :
      state.symbols.define? given (.constant value) = some after →
      Leaves grammar state place (.constant given token) ⟨after, state.address⟩ none
  | instruction {mnemonic operands record} :
      state.record grammar place mnemonic operands = .ok record →
      Leaves grammar state place (.instruction mnemonic operands)
        { state with address := record.writer.address } (some record)

/-- A statement that gives a name gives it if it is free. -/
theorem State.define_map_eq_ok {place : Place} {symbol : Symbol} {after : State}
    {record : Option OpenRecord}
    (h : (state.define place name symbol).map (·, none) = .ok (after, record)) :
    ∃ symbols, state.symbols.define? name symbol = some symbols ∧
      after = ⟨symbols, state.address⟩ ∧ record = none := by
  unfold State.define at h
  split at h
  · cases h
  · rename_i symbols hsymbols
    cases h
    exact ⟨symbols, hsymbols, rfl, rfl⟩

/-- A statement leaves one of the listed things. -/
theorem State.leaves_of_statement {place : Place} {statement : Statement} {after : State}
    {record : Option OpenRecord}
    (h : state.statement grammar place statement = .ok (after, record)) :
    state.Leaves grammar place statement after record := by
  cases statement with
  | blank =>
      cases h
      exact .blank
  | mark name =>
      obtain ⟨symbols, hsymbols, rfl, rfl⟩ := State.define_map_eq_ok h
      exact .mark hsymbols
  | label name token =>
      simp only [State.statement] at h
      split at h
      · cases h
      · obtain ⟨symbols, hsymbols, rfl, rfl⟩ := State.define_map_eq_ok h
        exact .label hsymbols
  | constant name token =>
      simp only [State.statement] at h
      split at h
      · cases h
      · obtain ⟨symbols, hsymbols, rfl, rfl⟩ := State.define_map_eq_ok h
        exact .constant hsymbols
  | instruction mnemonic operands =>
      simp only [State.statement] at h
      split at h
      · cases h
      · rename_i opened hopened
        cases h
        exact .instruction hopened

/-- A statement leaves the places of the labels open that it refers to. -/
theorem State.Leaves.references_eq {admitted : String → Prop}
    (hgrammar : grammar.WellFormed admitted) {place : Place} {statement : Statement} {after : State}
    {record : Option OpenRecord} (h : state.Leaves grammar place statement after record) :
    record.toList.flatMap OpenRecord.references =
      (statement.references grammar).map (place.number, ·) := by
  cases h with
  | instruction hrecord => simpa using State.record_references hgrammar hrecord
  | _ => rfl

/-- A name is a label after a statement just if it was one before or the statement defines it. -/
theorem State.Leaves.label?_iff {place : Place} {statement : Statement} {after : State}
    {record : Option OpenRecord} (h : state.Leaves grammar place statement after record) :
    (∃ address, after.symbols.label? name = some address) ↔
      (∃ address, state.symbols.label? name = some address) ∨ statement.label? = some name := by
  cases h with
  | blank => simp [Statement.label?]
  | instruction => simp [Statement.label?]
  | constant hafter => simp [Statement.label?, SymbolTable.label?_define?_constant hafter]
  | mark hafter =>
      rw [SymbolTable.label?_define?_label hafter]
      split <;> simp_all [Statement.label?, eq_comm]
  | label hafter =>
      rw [SymbolTable.label?_define?_label hafter]
      split <;> simp_all [Statement.label?, eq_comm]

/-- Lines leave the places of the labels open that they refer to. -/
theorem State.lines_references {admitted : String → Prop} (hgrammar : grammar.WellFormed admitted)
    {texts : List (List Char)} {opened : List OpenRecord}
    (h : state.lines grammar number texts = .ok (final, opened)) :
    opened.flatMap OpenRecord.references = references grammar number texts := by
  induction texts generalizing state number opened with
  | nil =>
      cases h
      rfl
  | cons text rest ih =>
      obtain ⟨statement, after, record, records, hreads, hstatement, hrest, rfl⟩ :=
        State.lines_cons_eq_ok_iff.mp h
      have hfirst := (State.leaves_of_statement hstatement).references_eq hgrammar
      rw [List.flatMap_append, hfirst, ih hrest, references, read?_eq_some_iff.mpr hreads]
      simp

/-- Lines leave the places open in the buffer of the labels that they refer to, and these can be
filled in. -/
theorem Draft.lines_references {admitted : String → Prop} (hgrammar : grammar.WellFormed admitted)
    {base : UInt32} {constants : Constants} {texts : List (List Char)} {draft : Draft}
    (h : (Draft.start base constants).lines grammar 1 texts = .ok draft) :
    draft.pending.map Pending.reference = references grammar 1 texts ∧
      ∀ pending ∈ draft.pending, pending.fixup.Fits draft.writer.base draft.writer.size := by
  obtain ⟨final, opened, hlines, rfl⟩ := Draft.lines_start_eq_ok_iff.mp h
  refine ⟨?_, fun pending hpending => ?_⟩
  · exact (map_reference_pendingFrom 0 opened).trans (State.lines_references hgrammar hlines)
  · have hfits := ((written_start base constants).lines hlines).laidOut.fits hpending
    rwa [Nat.zero_add] at hfits

/-- A name is a label after lines just if it was one before or one of them defines it. -/
theorem State.lines_label? {texts : List (List Char)} {opened : List OpenRecord}
    (h : state.lines grammar number texts = .ok (final, opened)) :
    (∃ address, final.symbols.label? name = some address) ↔
      (∃ address, state.symbols.label? name = some address) ∨
        ∃ index text statement, texts[index]? = some text ∧
          Reads (number + index) text statement ∧ statement.label? = some name := by
  induction texts generalizing state number opened with
  | nil =>
      cases h
      simp
  | cons text rest ih =>
      obtain ⟨statement, after, record, records, hreads, hstatement, hrest, rfl⟩ :=
        State.lines_cons_eq_ok_iff.mp h
      rw [ih hrest, (State.leaves_of_statement hstatement).label?_iff, or_assoc]
      refine or_congr_right ⟨?_, ?_⟩
      · rintro (hlabel | ⟨index, other, otherStatement, hother, hotherReads, hlabel⟩)
        · exact ⟨0, text, statement, rfl, hreads, hlabel⟩
        · refine ⟨index + 1, other, otherStatement, hother, ?_, hlabel⟩
          rwa [Nat.add_comm index, ← Nat.add_assoc]
      · rintro ⟨index, other, otherStatement, hother, hotherReads, hlabel⟩
        cases index with
        | zero =>
            cases hother
            exact .inl (hreads.unique hotherReads ▸ hlabel)
        | succ index =>
            rw [Nat.add_comm index, ← Nat.add_assoc] at hotherReads
            exact .inr ⟨index, other, otherStatement, hother, hotherReads, hlabel⟩

/-- In lines that can be gone through each statement leaves something. -/
theorem State.lines_leaves {texts : List (List Char)} {opened : List OpenRecord}
    (h : state.lines grammar number texts = .ok (final, opened)) {index : Nat} {text : List Char}
    {statement : Statement} (htext : texts[index]? = some text)
    (hreads : Reads (number + index) text statement) :
    ∃ (before after : State) (place : Place) (record : Option OpenRecord),
      before.Leaves grammar place statement after record := by
  induction texts generalizing state number opened index with
  | nil => simp at htext
  | cons first rest ih =>
      obtain ⟨firstStatement, after, record, records, hfirst, hstatement, hrest, rfl⟩ :=
        State.lines_cons_eq_ok_iff.mp h
      cases index with
      | zero =>
          cases htext
          obtain rfl := hfirst.unique hreads
          exact ⟨_, _, _, _, State.leaves_of_statement hstatement⟩
      | succ index =>
          rw [Nat.add_comm index, ← Nat.add_assoc] at hreads
          exact ih hrest htext hreads

/-- The references of lines are those of their statements. -/
theorem mem_references {texts : List (List Char)} {reference : Nat × String} :
    reference ∈ references grammar number texts ↔
      ∃ index text statement, texts[index]? = some text ∧ Reads (number + index) text statement ∧
        reference.1 = number + index ∧ reference.2 ∈ statement.references grammar := by
  induction texts generalizing number with
  | nil => simp [references]
  | cons first rest ih =>
      rw [references, List.mem_append, ih]
      constructor
      · rintro (hfirst | ⟨index, text, statement, htext, hreads, hnumber, hname⟩)
        · simp only [List.mem_map, List.mem_flatMap, Option.mem_toList] at hfirst
          obtain ⟨name, ⟨statement, hread, hname⟩, rfl⟩ := hfirst
          exact ⟨0, first, statement, rfl, read?_eq_some_iff.mp hread, rfl, hname⟩
        · refine ⟨index + 1, text, statement, htext, ?_, ?_, hname⟩
          · rwa [Nat.add_comm index, ← Nat.add_assoc]
          · omega
      · rintro ⟨index, text, statement, htext, hreads, hnumber, hname⟩
        cases index with
        | zero =>
            cases htext
            left
            simp only [List.mem_map, List.mem_flatMap, Option.mem_toList]
            exact ⟨reference.2, ⟨statement, read?_eq_some_iff.mpr hreads, hname⟩,
              Prod.ext hnumber.symm rfl⟩
        | succ index =>
            rw [Nat.add_comm index, ← Nat.add_assoc] at hreads hnumber
            exact .inr ⟨index, text, statement, htext, hreads, hnumber, hname⟩

/-- A record that can be written refers to the labels among its operands: each of them has a slot.
-/
theorem State.record_mem_references {admitted : String → Prop}
    (hgrammar : grammar.WellFormed admitted) {place : Place} {mnemonic : String}
    {operands : List Token} {record : OpenRecord}
    (h : state.record grammar place mnemonic operands = .ok record) :
    name ∈ (Statement.instruction mnemonic operands).references grammar ↔
      .label name ∈ operands := by
  obtain ⟨bytes, rfl, hbytes, _⟩ | ⟨instruction, arguments, _, _, _, hfound, htakes, _, _⟩ :=
    State.record_eq_ok_iff.mp h
  · simp only [Statement.references, hgrammar.get?_raw, Option.map_none, Option.getD_none,
      List.not_mem_nil, false_iff]
    exact label_not_mem_of_bytesOf (rawRecord_eq_ok_iff.mp hbytes).1
  · simp only [Statement.references, hfound, Option.map_some, Option.getD_some,
      Instruction.mem_references]
    constructor
    · rintro ⟨operand, width, _, hoperand⟩
      exact List.mem_of_getElem? hoperand
    · intro hname
      obtain ⟨operand, hkind, hoperand⟩ := htakes.exists_kind hname
      obtain ⟨width, hslot⟩ :=
        (hgrammar.offers_of_get? hfound).2.template.label_placed operand hkind
      exact ⟨operand, width, hslot, hoperand⟩

/-- A statement that leaves something refers to the labels among its operands. -/
theorem State.Leaves.mem_references_iff {admitted : String → Prop}
    (hgrammar : grammar.WellFormed admitted) {place : Place} {statement : Statement} {after : State}
    {record : Option OpenRecord} (h : state.Leaves grammar place statement after record) :
    name ∈ statement.references grammar ↔
      ∃ mnemonic operands, statement = .instruction mnemonic operands ∧ .label name ∈ operands := by
  cases h with
  | @instruction mnemonic operands record hrecord =>
      rw [State.record_mem_references hgrammar hrecord]
      constructor
      · intro hname
        exact ⟨mnemonic, operands, rfl, hname⟩
      · rintro ⟨_, _, heq, hname⟩
        cases heq
        exact hname
  | _ => simp [Statement.references]

variable {script : String} {base : UInt32} {constants : Constants} {opened : List OpenRecord}

/-- The lines of a script are counted from one. -/
theorem statementAt_iff {statement : Statement} :
    StatementAt script number statement ↔
      ∃ index text, (linesOf script)[index]? = some text ∧ Reads (1 + index) text statement ∧
        number = 1 + index := by
  constructor
  · rintro ⟨index, text, rfl, htext, hreads⟩
    rw [Nat.add_comm] at hreads
    exact ⟨index, text, htext, hreads, Nat.add_comm ..⟩
  · rintro ⟨index, text, htext, hreads, rfl⟩
    exact ⟨index, text, Nat.add_comm .., htext, hreads⟩

/-- A line of the script defines the name as a label. -/
def DefinesLabel (script : String) (name : String) : Prop :=
  ∃ number statement, StatementAt script number statement ∧ statement.label? = some name

/-- After the lines of a script just the names are undefined that no line defines as a label. -/
theorem isUndefined_iff
    (h : (State.start base constants).lines grammar 1 (linesOf script) = .ok (final, opened)) :
    isUndefined final.symbols name = true ↔ ¬ DefinesLabel script name := by
  have hstart : ¬ ∃ address, (State.start base constants).symbols.label? name = some address := by
    rintro ⟨address, haddress⟩
    rw [SymbolTable.label?_eq_some_iff, State.start, SymbolTable.get?_ofConstants,
      Option.map_eq_some_iff] at haddress
    obtain ⟨_, _, heq⟩ := haddress
    cases heq
  have hnone : isUndefined final.symbols name = true ↔
      ¬ ∃ address, final.symbols.label? name = some address := by
    rw [isUndefined, Option.isNone_iff_eq_none, Option.eq_none_iff_forall_ne_some, not_exists]
  rw [hnone, State.lines_label? h, or_iff_right hstart, not_iff_not]
  constructor
  · rintro ⟨index, text, statement, htext, hreads, hlabel⟩
    exact ⟨1 + index, statement, statementAt_iff.mpr ⟨index, text, htext, hreads, rfl⟩, hlabel⟩
  · rintro ⟨number, statement, hat, hlabel⟩
    obtain ⟨index, text, htext, hreads, _⟩ := statementAt_iff.mp hat
    exact ⟨index, text, statement, htext, hreads, hlabel⟩

/-- The references of a script whose lines can be gone through are the labels among the operands of
its instructions. -/
theorem mem_references_iff {admitted : String → Prop} (hgrammar : grammar.WellFormed admitted)
    (h : (State.start base constants).lines grammar 1 (linesOf script) = .ok (final, opened)) :
    (number, name) ∈ references grammar 1 (linesOf script) ↔
      ∃ mnemonic operands, StatementAt script number (.instruction mnemonic operands) ∧
        .label name ∈ operands := by
  rw [mem_references]
  constructor
  · rintro ⟨index, text, statement, htext, hreads, hnumber, hname⟩
    obtain ⟨_, _, _, _, hleaves⟩ := State.lines_leaves h htext hreads
    obtain ⟨mnemonic, operands, rfl, hoperand⟩ := (hleaves.mem_references_iff hgrammar).mp hname
    exact ⟨mnemonic, operands, statementAt_iff.mpr ⟨index, text, htext, hreads, hnumber⟩, hoperand⟩
  · rintro ⟨mnemonic, operands, hat, hoperand⟩
    obtain ⟨index, text, htext, hreads, hnumber⟩ := statementAt_iff.mp hat
    obtain ⟨_, _, _, _, hleaves⟩ := State.lines_leaves h htext hreads
    exact ⟨index, text, _, htext, hreads, hnumber,
      (hleaves.mem_references_iff hgrammar).mpr ⟨mnemonic, operands, rfl, hoperand⟩⟩

end Assembly

end EventScript
