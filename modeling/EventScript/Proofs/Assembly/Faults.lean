import EventScript.Proofs.Assembly.References

/-!
# Faults of assembling

Which faults assembling a script can end with. Going through the lines, a fault of encoding is one
that the operands or the address of an instruction cause (`EncodeError.Reachable`); those that a
template could cause are excluded when it is read, and an undefined label is not noticed yet
(`lines_eq_error`). Filling in the labels fails only with an undefined label, the first one that the
script refers to (`fillAll_eq_error_iff_firstUndefined`). `faults_of_assemble` puts this together.
-/

namespace EventScript

/-- The faults that encoding an instruction of a script can have: a number that is too large for its
place, and either a place with a wrong address or, in a raw record, a wrong length byte. -/
inductive EncodeError.Reachable (mnemonic : String) : EncodeError → Prop where
  | fieldOverflow {value width} : Reachable mnemonic (.fieldOverflow value width)
  | misaligned {address width} : mnemonic ≠ Grammar.rawMnemonic →
      Reachable mnemonic (.stream (.misaligned address width))
  | framing {size declared} : mnemonic = Grammar.rawMnemonic →
      Reachable mnemonic (.framing size declared)

/-- The fault is found in the tokens and names of a line, before anything is encoded. -/
def AssemblyError.isReading : AssemblyError → Bool
  | .encode .. => false
  | .undefinedLabel .. => false
  | _ => true

namespace Statement

variable {place : Place} {symbols : SymbolTable} {fault : AssemblyError}

theorem valueOf_eq_error {expected : String} {token : Token}
    (h : valueOf place symbols expected token = .error fault) : fault.isReading = true := by
  cases token with
  | number value => cases h
  | symbol name =>
      simp only [valueOf] at h
      split at h <;> cases h
      rfl
  | _ =>
      cases h
      rfl

theorem argumentOf_eq_error {kind : OperandKind} {token : Token}
    (h : argumentOf place symbols kind token = .error fault) : fault.isReading = true := by
  unfold argumentOf at h
  split at h
  · split at h
    · rename_i hvalue
      cases h
      exact valueOf_eq_error hvalue
    · cases h
  · split at h <;> cases h
    rfl
  · cases h
  · cases h
    rfl

theorem arguments_eq_error {kinds : List OperandKind} {tokens : List Token}
    (h : arguments place symbols kinds tokens = .error fault) : fault.isReading = true := by
  fun_induction arguments place symbols kinds tokens with
  | case1 => cases h
  | case2 | case3 =>
      cases h
      rfl
  | case4 kind kinds token tokens other hargument =>
      cases h
      exact argumentOf_eq_error hargument
  | case5 kind kinds token tokens argument _ other hrest ih =>
      cases h
      exact ih hrest
  | case6 => cases h

theorem ofTokens_eq_error {tokens : List Token} (h : ofTokens place tokens = .error fault) :
    fault.isReading = true := by
  unfold ofTokens at h
  split at h
  · cases h
  · split at h <;> cases h <;> rfl
  · split at h <;> cases h <;> rfl
  · cases h
  · cases h
    rfl

theorem TakesAll.length_eq {kinds : List OperandKind} {tokens : List Token} {taken : List Argument}
    (h : TakesAll symbols kinds tokens taken) : taken.length = kinds.length := by
  induction h with
  | nil => rfl
  | cons _ _ ih => rw [List.length_cons, List.length_cons, ih]

/-- The bytes of a raw record are read, or one of them is too large. -/
theorem bytesOf_eq_error {tokens : List Token} (h : bytesOf place symbols tokens = .error fault) :
    fault.isReading = true ∨ ∃ value, fault = .encode place (.fieldOverflow value .byte) := by
  fun_induction bytesOf place symbols tokens with
  | case1 => cases h
  | case2 token tokens other hvalue =>
      cases h
      exact .inl (valueOf_eq_error hvalue)
  | case3 token tokens value _ _ other hrest ih =>
      cases h
      exact ih hrest
  | case4 => cases h
  | case5 token tokens value =>
      cases h
      exact .inr ⟨value, rfl⟩

theorem rawRecord_eq_error {tokens : List Token}
    (h : rawRecord place symbols tokens = .error fault) :
    fault.isReading = true ∨
      ∃ cause, fault = .encode place cause ∧ cause.Reachable Grammar.rawMnemonic := by
  unfold rawRecord at h
  split at h
  · rename_i hbytes
    cases h
    rcases bytesOf_eq_error hbytes with hreading | ⟨value, rfl⟩
    · exact .inl hreading
    · exact .inr ⟨_, rfl, .fieldOverflow⟩
  · simp only at h
    split at h
    · cases h
    · cases h
      exact .inr ⟨_, rfl, .framing rfl⟩

end Statement

namespace Instruction

variable {arguments : List Argument} {writer after : Writer} {cause : EncodeError}
  {mnemonic : String}

theorem putNumber_eq_error {width : Width} {value : UInt32}
    (h : putNumber writer width value = (after, .error cause)) :
    cause = .stream (.misaligned writer.address width) := by
  unfold putNumber Writer.put at h
  by_cases haligned : width.aligned writer.address = true
  · simp [haligned] at h
  · rw [if_neg haligned] at h
    cases h
    rfl

/-- A field that holds one of the arguments fails because of its value or its address. -/
theorem encodeField_eq_error {field : Field} (hmnemonic : mnemonic ≠ Grammar.rawMnemonic)
    (hdeclared : ∀ operand width, field = .slot operand width → operand < arguments.length)
    (h : encodeField arguments writer field = (after, .error cause)) :
    cause.Reachable mnemonic := by
  cases field with
  | literal byte => cases h
  | slot operand width =>
      have hlt := hdeclared operand width rfl
      simp only [encodeField] at h
      split at h
      · rename_i hnone
        rw [List.getElem?_eq_getElem hlt] at hnone
        cases hnone
      · split at h
        · rename_i hput
          cases h
          rw [putNumber_eq_error hput]
          exact .misaligned hmnemonic
        · cases h
      · split at h
        · split at h
          · rename_i hput
            cases h
            rw [putNumber_eq_error hput]
            exact .misaligned hmnemonic
          · cases h
        · cases h
          exact .fieldOverflow

/-- Fields that hold arguments fail because of a value or an address. -/
theorem encodeFields_eq_error {fields : List Field} (hmnemonic : mnemonic ≠ Grammar.rawMnemonic)
    (hdeclared : ∀ operand width, Field.slot operand width ∈ fields → operand < arguments.length)
    (h : encodeFields arguments writer fields = (after, .error cause)) :
    cause.Reachable mnemonic := by
  induction fields generalizing writer with
  | nil => cases h
  | cons field rest ih =>
      simp only [encodeFields] at h
      split at h
      · rename_i hfield
        cases h
        refine encodeField_eq_error hmnemonic (fun operand width heq => ?_) hfield
        exact hdeclared operand width (heq ▸ List.mem_cons_self)
      · split at h
        · rename_i hrest
          cases h
          exact ih
            (fun operand width hslot => hdeclared operand width (List.mem_cons_of_mem _ hslot))
            hrest
        · cases h

end Instruction

namespace Assembly

open Text Statement

variable {grammar : Grammar} {admitted : String → Prop} {state : State} {fault : AssemblyError}

theorem State.define_eq_error {place : Place} {name : String} {symbol : Symbol}
    (h : (state.define place name symbol).map (·, (none : Option OpenRecord)) = .error fault) :
    fault.isReading = true := by
  unfold State.define at h
  split at h <;> cases h
  rfl

/-- A record fails before it is encoded, or because of its operands or its address. -/
theorem State.record_eq_error (hgrammar : grammar.WellFormed admitted) {place : Place}
    {mnemonic : String} {operands : List Token}
    (h : state.record grammar place mnemonic operands = .error fault) :
    fault.isReading = true ∨ ∃ cause, fault = .encode place cause ∧ cause.Reachable mnemonic := by
  unfold State.record at h
  split at h
  · rename_i hwrite
    cases h
    unfold write at hwrite
    split at hwrite
    · rename_i hraw
      split at hwrite
      · rename_i hrecord
        cases hwrite
        rw [hraw]
        exact rawRecord_eq_error hrecord
      · cases hwrite
    · rename_i hmnemonic
      split at hwrite
      · cases hwrite
        exact .inl rfl
      · rename_i instruction hfound
        split at hwrite
        · rename_i harguments
          cases hwrite
          exact .inl (arguments_eq_error harguments)
        · rename_i arguments harguments
          split at hwrite
          · rename_i cause hencode
            cases hwrite
            -- The slots of the template hold operands of the instruction, and each is there.
            have hlength := (arguments_eq_ok_iff.mp harguments).length_eq
            have htemplate := (hgrammar.offers_of_get? hfound).2.template
            refine .inr ⟨cause, rfl, Instruction.encodeFields_eq_error hmnemonic ?_ hencode⟩
            intro operand width hslot
            rw [hlength]
            exact htemplate.declared operand width hslot
          · cases hwrite
  · cases h

/-- A statement fails before it is encoded, or is an instruction whose operands or address are at
fault. -/
theorem State.statement_eq_error (hgrammar : grammar.WellFormed admitted) {place : Place}
    {statement : Statement} (h : state.statement grammar place statement = .error fault) :
    fault.isReading = true ∨
      ∃ mnemonic operands cause, statement = .instruction mnemonic operands ∧
        fault = .encode place cause ∧ cause.Reachable mnemonic := by
  cases statement with
  | blank => cases h
  | mark name => exact .inl (State.define_eq_error h)
  | label name token | constant name token =>
      simp only [State.statement] at h
      split at h
      · rename_i hvalue
        cases h
        exact .inl (valueOf_eq_error hvalue)
      · exact .inl (State.define_eq_error h)
  | instruction mnemonic operands =>
      simp only [State.statement] at h
      split at h
      · rename_i hrecord
        cases h
        refine (State.record_eq_error hgrammar hrecord).imp_right ?_
        rintro ⟨cause, rfl, hcause⟩
        exact ⟨mnemonic, operands, cause, rfl, rfl, hcause⟩
      · cases h

/-- A line fails before it is encoded, or is an instruction whose operands or address are at fault.
-/
theorem State.line_eq_error (hgrammar : grammar.WellFormed admitted) {number : Nat}
    {text : List Char} (h : state.line grammar number text = .error fault) :
    fault.isReading = true ∨
      ∃ mnemonic operands cause, Reads number text (.instruction mnemonic operands) ∧
        fault = .encode ⟨number, String.ofList (trim text)⟩ cause ∧ cause.Reachable mnemonic := by
  unfold State.line at h
  split at h
  · cases h
    exact .inl rfl
  · rename_i tokens htokens
    simp only at h
    split at h
    · rename_i hstatement
      cases h
      exact .inl (ofTokens_eq_error hstatement)
    · rename_i statement hstatement
      refine (State.statement_eq_error hgrammar h).imp_right ?_
      rintro ⟨mnemonic, operands, cause, rfl, rfl, hcause⟩
      exact ⟨mnemonic, operands, cause, ⟨tokens, htokens, hstatement⟩, rfl, hcause⟩

/-- Going through lines fails before anything is encoded, or at an instruction whose operands or
address are at fault. -/
theorem State.lines_eq_error (hgrammar : grammar.WellFormed admitted) {number : Nat}
    {texts : List (List Char)} (h : state.lines grammar number texts = .error fault) :
    fault.isReading = true ∨
      ∃ index text mnemonic operands cause, texts[index]? = some text ∧
        Reads (number + index) text (.instruction mnemonic operands) ∧
        fault = .encode ⟨number + index, String.ofList (trim text)⟩ cause ∧
        cause.Reachable mnemonic := by
  induction texts generalizing state number with
  | nil => cases h
  | cons text rest ih =>
      simp only [State.lines] at h
      split at h
      · rename_i hline
        cases h
        refine (State.line_eq_error hgrammar hline).imp_right ?_
        rintro ⟨mnemonic, operands, cause, hreads, rfl, hcause⟩
        exact ⟨0, text, mnemonic, operands, cause, rfl, hreads, rfl, hcause⟩
      · split at h
        · rename_i hrest
          cases h
          refine (ih hrest).imp_right ?_
          rintro ⟨index, other, mnemonic, operands, cause, hother, hreads, rfl, hcause⟩
          rw [Nat.add_assoc, Nat.add_comm 1] at hreads
          rw [Nat.add_assoc, Nat.add_comm 1]
          exact ⟨index + 1, other, mnemonic, operands, cause, hother, hreads, rfl, hcause⟩
        · cases h

variable {base : UInt32} {constants : Constants} {script : String} {final : State}
  {opened : List OpenRecord} {draft : Draft}

/-- The reference, a line and a name, is the first of the script to a name that no line defines as a
label. -/
def FirstUndefined (grammar : Grammar) (script : String) (reference : Nat × String) : Prop :=
  ∃ front rest, references grammar 1 (linesOf script) = front ++ reference :: rest ∧
    (∀ other ∈ front, DefinesLabel script other.2) ∧ ¬ DefinesLabel script reference.2

/-- The first undefined reference is the one that is found first in the table of the end. -/
theorem find?_isUndefined_eq_some_iff
    (h : (State.start base constants).lines grammar 1 (linesOf script) = .ok (final, opened))
    {reference : Nat × String} :
    (references grammar 1 (linesOf script)).find?
        (fun reference => isUndefined final.symbols reference.2) = some reference ↔
      FirstUndefined grammar script reference := by
  have hdefined : ∀ other : Nat × String,
      (!isUndefined final.symbols other.2) = true ↔ DefinesLabel script other.2 := by
    intro other
    rw [Bool.not_eq_true', ← Bool.not_eq_true, isUndefined_iff h, not_not]
  rw [List.find?_eq_some_iff_append, isUndefined_iff h, FirstUndefined]
  simp only [hdefined]
  constructor
  · rintro ⟨hundefined, front, rest, hsplit, hfront⟩
    exact ⟨front, rest, hsplit, hfront, hundefined⟩
  · rintro ⟨front, rest, hsplit, hfront, hundefined⟩
    exact ⟨hundefined, front, rest, hsplit, hfront⟩

/-- Filling in the labels fails just at the first reference that is undefined. -/
theorem fillAll_eq_error_iff_firstUndefined (hgrammar : grammar.WellFormed admitted)
    (h : (Draft.start base constants).lines grammar 1 (linesOf script) = .ok draft) :
    fillAll draft.symbols draft.writer draft.pending = .error fault ↔
      ∃ reference, fault = .undefinedLabel reference.2 reference.1 ∧
        FirstUndefined grammar script reference := by
  obtain ⟨hreferences, hfits⟩ := Draft.lines_references hgrammar h
  obtain ⟨final, opened, hlines, rfl⟩ := Draft.lines_start_eq_ok_iff.mp h
  rw [fillAll_eq_error_iff hfits, hreferences]
  refine exists_congr fun reference => ?_
  rw [Draft.symbols_ofRecords, find?_isUndefined_eq_some_iff hlines, and_comm]

/-- Assembling fails while it goes through the lines or while it fills in the labels. -/
theorem assemble_eq_error_iff :
    assemble grammar base constants script = .error fault ↔
      (Draft.start base constants).lines grammar 1 (linesOf script) = .error fault ∨
        ∃ draft, (Draft.start base constants).lines grammar 1 (linesOf script) = .ok draft ∧
          fillAll draft.symbols draft.writer draft.pending = .error fault := by
  unfold assemble
  cases (Draft.start base constants).lines grammar 1 (linesOf script) with
  | error other => simp
  | ok draft =>
      cases hfill : fillAll draft.symbols draft.writer draft.pending <;> simp [hfill]

/-- Assembling reports an undefined label just if the lines could be gone through and it is the
first one. -/
theorem assemble_eq_undefinedLabel_iff (hgrammar : grammar.WellFormed admitted) {number : Nat}
    {name : String} :
    assemble grammar base constants script = .error (.undefinedLabel name number) ↔
      (∃ draft, (Draft.start base constants).lines grammar 1 (linesOf script) = .ok draft) ∧
        FirstUndefined grammar script (number, name) := by
  rw [assemble_eq_error_iff]
  constructor
  · rintro (hlines | ⟨draft, hlines, hfill⟩)
    · rw [Draft.lines_start_eq_error_iff] at hlines
      rcases State.lines_eq_error hgrammar hlines with hreading | ⟨_, _, _, _, _, _, _, heq, _⟩
      · cases hreading
      · cases heq
    · obtain ⟨other, heq, hfirst⟩ :=
        (fillAll_eq_error_iff_firstUndefined hgrammar hlines).mp hfill
      cases heq
      exact ⟨⟨draft, hlines⟩, hfirst⟩
  · rintro ⟨⟨draft, hlines⟩, hfirst⟩
    exact .inr ⟨draft, hlines,
      (fillAll_eq_error_iff_firstUndefined hgrammar hlines).mpr ⟨_, rfl, hfirst⟩⟩

/-- A script has a first undefined reference just if it has an operand that is an undefined label.
-/
theorem exists_firstUndefined_iff (hgrammar : grammar.WellFormed admitted)
    (h : (State.start base constants).lines grammar 1 (linesOf script) = .ok (final, opened)) :
    (∃ reference, FirstUndefined grammar script reference) ↔
      ∃ number mnemonic operands name,
        StatementAt script number (.instruction mnemonic operands) ∧ .label name ∈ operands ∧
          ¬ DefinesLabel script name := by
  constructor
  · rintro ⟨⟨number, name⟩, front, rest, hsplit, _, hundefined⟩
    have hmem : (number, name) ∈ references grammar 1 (linesOf script) := by simp [hsplit]
    obtain ⟨mnemonic, operands, hat, hname⟩ := (mem_references_iff hgrammar h).mp hmem
    exact ⟨number, mnemonic, operands, name, hat, hname, hundefined⟩
  · rintro ⟨number, mnemonic, operands, name, hat, hname, hundefined⟩
    have hmem := (mem_references_iff hgrammar h).mpr ⟨mnemonic, operands, hat, hname⟩
    -- Among the references that are undefined one is the first.
    have hsome : ((references grammar 1 (linesOf script)).find? fun reference =>
        isUndefined final.symbols reference.2).isSome := by
      rw [List.find?_isSome]
      exact ⟨_, hmem, (isUndefined_iff h).mpr hundefined⟩
    obtain ⟨reference, hreference⟩ := Option.isSome_iff_exists.mp hsome
    exact ⟨reference, (find?_isUndefined_eq_some_iff h).mp hreference⟩

/-- The faults that assembling a script can end with. A fault of encoding is found on the line of an
instruction, and is a number that is too large or, for a raw record, a wrong length byte and
otherwise a wrong address. Once the lines have been gone through, filling in the labels can only
fail with an undefined label; all places fit. It fails just if an operand is a label that no line
defines, and then with the first one in the order of lines and slots. -/
theorem faults_of_assemble (hgrammar : Grammar.Built (fun _ => True) grammar) (base : UInt32)
    (constants : Constants) (script : String) :
    (∀ place cause, assemble grammar base constants script = .error (.encode place cause) →
      ∃ index text mnemonic operands, (linesOf script)[index]? = some text ∧
        place = ⟨1 + index, String.ofList (trim text)⟩ ∧
        Reads place.number text (.instruction mnemonic operands) ∧ cause.Reachable mnemonic) ∧
    (∀ draft, (Draft.start base constants).lines grammar 1 (linesOf script) = .ok draft →
      (∀ fault, fillAll draft.symbols draft.writer draft.pending = .error fault ↔
        ∃ reference, fault = .undefinedLabel reference.2 reference.1 ∧
          FirstUndefined grammar script reference) ∧
      ∀ pending ∈ draft.pending, ∀ writer : Writer,
        writer.base = draft.writer.base → writer.size = draft.writer.size →
        ∀ address, ∃ after, writer.patch pending.fixup.offset address = (after, .ok ()) ∧
          after.base = writer.base ∧ after.size = writer.size) ∧
    (∀ number name, assemble grammar base constants script = .error (.undefinedLabel name number) ↔
      (∃ draft, (Draft.start base constants).lines grammar 1 (linesOf script) = .ok draft) ∧
        FirstUndefined grammar script (number, name)) ∧
    ((∃ number name, assemble grammar base constants script =
        .error (.undefinedLabel name number)) ↔
      (∃ draft, (Draft.start base constants).lines grammar 1 (linesOf script) = .ok draft) ∧
        ∃ number mnemonic operands name,
          StatementAt script number (.instruction mnemonic operands) ∧ .label name ∈ operands ∧
            ¬ DefinesLabel script name) := by
  have hwell := hgrammar.wellFormed fun _ _ => trivial
  refine ⟨fun place cause h => ?_, fun draft hlines => ⟨fun fault => ?_, ?_⟩,
    fun number name => assemble_eq_undefinedLabel_iff hwell, ?_⟩
  · rcases assemble_eq_error_iff.mp h with hlines | ⟨draft, hlines, hfill⟩
    · rw [Draft.lines_start_eq_error_iff] at hlines
      rcases State.lines_eq_error hwell hlines with
        hreading | ⟨index, text, mnemonic, operands, other, htext, hreads, heq, hcause⟩
      · cases hreading
      · injection heq with hplace hother
        subst hplace hother
        exact ⟨index, text, mnemonic, operands, htext, rfl, hreads, hcause⟩
    · obtain ⟨reference, heq, _⟩ := (fillAll_eq_error_iff_firstUndefined hwell hlines).mp hfill
      cases heq
  · exact fillAll_eq_error_iff_firstUndefined hwell hlines
  · intro pending hpending writer hbase hsize address
    have hfits := (Draft.lines_references hwell hlines).2 pending hpending
    rw [← hbase, ← hsize] at hfits
    exact Writer.patch_of_fits hfits address
  · constructor
    · rintro ⟨number, name, h⟩
      obtain ⟨⟨draft, hdraft⟩, hfirst⟩ := (assemble_eq_undefinedLabel_iff hwell).mp h
      obtain ⟨final, opened, hlines, _⟩ := Draft.lines_start_eq_ok_iff.mp hdraft
      exact ⟨⟨draft, hdraft⟩, (exists_firstUndefined_iff hwell hlines).mp ⟨_, hfirst⟩⟩
    · rintro ⟨⟨draft, hdraft⟩, hundefined⟩
      obtain ⟨final, opened, hlines, _⟩ := Draft.lines_start_eq_ok_iff.mp hdraft
      obtain ⟨⟨number, name⟩, hfirst⟩ := (exists_firstUndefined_iff hwell hlines).mpr hundefined
      exact ⟨number, name, (assemble_eq_undefinedLabel_iff hwell).mpr ⟨⟨draft, hdraft⟩, hfirst⟩⟩

/-- An instruction with two labels, of which the second one has the first slot and is reported, and
the same instruction at an address that is no multiple of four. -/
theorem faults_of_assemble_swappedSlots :
    ∃ grammar,
      Grammar.empty.define "pair" (some [.label, .label]) "05 0c 00 00 $1 $0" = .ok grammar ∧
      assemble grammar 0x8000000 .empty ".here:\npair .gone .lost" =
        .error (.undefinedLabel "lost" 2) ∧
      FirstUndefined grammar ".here:\npair .gone .lost" (2, "lost") ∧
      assemble grammar 0x8000002 .empty "pair .gone .lost" =
        .error (.encode ⟨1, "pair .gone .lost"⟩ (.stream (.misaligned 0x8000006 .word))) ∧
      ∃ text mnemonic operands, Reads 1 text (.instruction mnemonic operands) ∧
        (EncodeError.stream (.misaligned 0x8000006 .word)).Reachable mnemonic := by
  have hdefine : Grammar.empty.define "pair" (some [.label, .label]) "05 0c 00 00 $1 $0" =
      .ok ⟨⟨[("pair", ⟨"pair", some [.label, .label],
        ⟨[.literal 5, .literal 12, .literal 0, .literal 0, .slot 1 .word, .slot 0 .word]⟩⟩)]⟩⟩ := by
    decide +kernel
  have hbuilt : Grammar.Built (fun _ => True) _ := .define .empty trivial hdefine
  have hundefined : assemble
      ⟨⟨[("pair", ⟨"pair", some [.label, .label],
        ⟨[.literal 5, .literal 12, .literal 0, .literal 0, .slot 1 .word, .slot 0 .word]⟩⟩)]⟩⟩
      0x8000000 .empty ".here:\npair .gone .lost" = .error (.undefinedLabel "lost" 2) := by
    decide +kernel
  have hmisaligned : assemble
      ⟨⟨[("pair", ⟨"pair", some [.label, .label],
        ⟨[.literal 5, .literal 12, .literal 0, .literal 0, .slot 1 .word, .slot 0 .word]⟩⟩)]⟩⟩
      0x8000002 .empty "pair .gone .lost" =
        .error (.encode ⟨1, "pair .gone .lost"⟩ (.stream (.misaligned 0x8000006 .word))) := by
    decide +kernel
  obtain ⟨_, _, hfirst, _⟩ := faults_of_assemble hbuilt 0x8000000 .empty ".here:\npair .gone .lost"
  obtain ⟨hencode, _⟩ := faults_of_assemble hbuilt 0x8000002 .empty "pair .gone .lost"
  obtain ⟨_, text, mnemonic, operands, _, _, hreads, hcause⟩ := hencode _ _ hmisaligned
  exact ⟨_, hdefine, hundefined, ((hfirst 2 "lost").mp hundefined).2, hmisaligned, text, mnemonic,
    operands, hreads, hcause⟩

end Assembly

end EventScript
