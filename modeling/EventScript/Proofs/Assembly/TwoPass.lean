import EventScript.Proofs.Assembly.Meaning

/-!
# Two passes give a script its meaning

`Progress` says that the lines done so far are assembled to what they mean. A statement keeps it
(`Progress.step`), hence so does a run (`Progress.run`). For a whole script the names are those of
all lines and the labels those of the final table, and `meaning_of_assemble` says what an assembled
script then is.
-/

namespace EventScript.Assembly

open Text EventScript.Field Statement

variable {grammar : Grammar} {script : String} {constants : Constants} {base : UInt32}
  {labels : String → Option UInt32} {number : Nat} {records : List Record}

/-- Every slot of an encoding has a value. -/
theorem exists_value_of_slot {value? : Nat → Option UInt32} {fields : List Field} {bytes : Bytes}
    (h : Encodes value? fields bytes) {operand : Nat} {width : Width}
    (hslot : Field.slot operand width ∈ fields) : ∃ value, value? operand = some value := by
  induction h with
  | nil => simp at hslot
  | literal _ ih =>
      rcases List.mem_cons.mp hslot with heq | hslot
      · cases heq
      · exact ih hslot
  | slot hvalue _ _ ih =>
      rcases List.mem_cons.mp hslot with heq | hslot
      · cases heq
        exact ⟨_, hvalue⟩
      · exact ih hslot

/-- Operands whose labels all have addresses have values, which are those of their arguments. -/
theorem exists_operandValues {symbols : SymbolTable} {denotes : Token → UInt32 → Prop}
    {kinds : List OperandKind} {tokens : List Token} {arguments : List Argument}
    (h : TakesAll symbols kinds tokens arguments)
    (hdenotes : ∀ token value, symbols.value? token = some value → denotes token value)
    (hlabels : ∀ (operand : Nat) name, arguments[operand]? = some (.label name) →
      ∃ address, labels name = some address) :
    ∃ values, OperandValues denotes labels kinds tokens values ∧
      ∀ operand, Argument.valueAt? labels arguments operand = values[operand]? := by
  induction h with
  | nil => exact ⟨[], .nil, by simp [Argument.valueAt?]⟩
  | @cons kind kinds token tokens argument arguments htakes _ ih =>
      obtain ⟨values, hvalues, hvalueAt⟩ :=
        ih fun operand name hname => hlabels (operand + 1) name hname
      have hfirst : ∃ value, OperandValue denotes labels kind token value ∧
          Argument.value? labels argument = some value := by
        cases htakes with
        | value hvalue => exact ⟨_, .value (hdenotes _ _ hvalue), rfl⟩
        | keyword hvalue => exact ⟨_, .keyword hvalue, rfl⟩
        | label =>
            obtain ⟨address, haddress⟩ := hlabels 0 _ rfl
            exact ⟨address, .label haddress, haddress⟩
      obtain ⟨value, hvalue, hargument⟩ := hfirst
      refine ⟨value :: values, .cons hvalue hvalues, fun operand => ?_⟩
      cases operand with
      | zero => simp [Argument.valueAt?, hargument]
      | succ operand =>
          have := hvalueAt operand
          simpa [Argument.valueAt?] using this

/-- What is encoded directly has the bytes that it means. -/
theorem encoded_of_direct {admitted : String → Prop} (hgrammar : grammar.WellFormed admitted)
    {symbols : SymbolTable} {denotes : Token → UInt32 → Prop} {address : UInt32} {mnemonic : String}
    {operands : List Token} {bytes : Bytes}
    (h : Direct grammar symbols labels address mnemonic operands bytes)
    (hdenotes : ∀ token value, symbols.value? token = some value → denotes token value) :
    Encoded grammar denotes labels mnemonic operands bytes := by
  cases h with
  | raw hvalues _ =>
      rw [Encoded, if_pos rfl]
      exact hvalues.imp fun token byte hvalue => hdenotes token _ hvalue
  | @template _ _ instruction arguments _ hraw hfound htakes _ hencodes =>
      rw [Encoded, if_neg hraw]
      have htemplate := (hgrammar.offers_of_get? hfound).2.template
      -- A label has a slot, and what stands in a slot has a value.
      have hlabels : ∀ (operand : Nat) name, arguments[operand]? = some (.label name) →
          ∃ address, labels name = some address := by
        intro operand name hname
        obtain ⟨width, hslot⟩ := htemplate.label_placed operand (htakes.kind_of_label hname)
        obtain ⟨value, hvalue⟩ := exists_value_of_slot hencodes hslot
        exact ⟨value, by simpa [Argument.valueAt?, hname, Argument.value?] using hvalue⟩
      obtain ⟨values, hvalues, hvalueAt⟩ := exists_operandValues htakes hdenotes hlabels
      exact ⟨instruction, values, hfound, hvalues, funext hvalueAt ▸ hencodes⟩

/-- The lines above the given one are assembled to what they mean. -/
structure Progress (grammar : Grammar) (script : String) (constants : Constants) (base : UInt32)
    (labels : String → Option UInt32) (number : Nat) (state : State) (records : List Record) :
    Prop where
  named : Named script constants base records number state.symbols
  recorded : Recorded grammar script constants base labels number records
  address : state.address =
    base + UInt32.ofNat (records.map fun record => record.bytes.length).sum

/-- The address of the next record is that of a mark on the next line. -/
theorem Progress.address_eq_sizeAbove {state : State}
    (h : Progress grammar script constants base labels number state records) :
    state.address = base + UInt32.ofNat (sizeAbove records number) := by
  rw [h.address, sizeAbove_eq_sum h.recorded.above]

/-- A statement is assembled to what it means. -/
theorem Progress.step {admitted : String → Prop} (hgrammar : grammar.WellFormed admitted)
    {state after : State} {statement : Statement} {first : List Record}
    (h : Progress grammar script constants base labels number state records)
    (hat : StatementAt script number statement)
    (hstep : Step grammar labels number state statement after first) :
    Progress grammar script constants base labels (number + 1) after (records ++ first) := by
  cases hstep with
  | blank =>
      rw [List.append_nil]
      exact ⟨h.named.skip hat rfl, h.recorded.skip hat (by simp), h.address⟩
  | @mark name _ hdefine =>
      rw [List.append_nil]
      rw [h.address_eq_sizeAbove] at hdefine
      refine ⟨h.named.define hat (fun other => ?_) hdefine,
        h.recorded.skip hat (by simp), h.address⟩
      constructor
      · intro hgives
        cases hgives
        rfl
      · rintro rfl
        exact .mark
  | @label name token value _ hvalue hdefine =>
      rw [List.append_nil]
      refine ⟨h.named.define hat (fun other => ?_) hdefine,
        h.recorded.skip hat (by simp), h.address⟩
      constructor
      · intro hgives
        cases hgives with
        | label hdenotes =>
            rw [h.named.value?_eq_some_iff.mpr hdenotes] at hvalue
            rw [Option.some.inj hvalue]
      · rintro rfl
        exact .label (h.named.value?_eq_some_iff.mp hvalue)
  | @constant name token value _ hvalue hdefine =>
      rw [List.append_nil]
      refine ⟨h.named.define hat (fun other => ?_) hdefine,
        h.recorded.skip hat (by simp), h.address⟩
      constructor
      · intro hgives
        cases hgives with
        | constant hdenotes =>
            rw [h.named.value?_eq_some_iff.mpr hdenotes] at hvalue
            rw [Option.some.inj hvalue]
      · rintro rfl
        exact .constant (h.named.value?_eq_some_iff.mp hvalue)
  | @instruction mnemonic operands bytes hdirect =>
      have hencoded := encoded_of_direct hgrammar hdirect fun token value hvalue =>
        h.named.value?_eq_some_iff.mp hvalue
      refine ⟨(h.named.append (by simp)).skip hat rfl, h.recorded.concat hat h.address hencoded, ?_⟩
      rw [List.map_append, List.sum_append_nat, add_ofNat_add, ← h.address]
      simp

/-- Lines are assembled to what they mean: the first of them follows `count` lines of the script. -/
theorem Progress.run {admitted : String → Prop} (hgrammar : grammar.WellFormed admitted)
    {count : Nat} {state final : State} {texts : List (List Char)} {more : List Record}
    (hrun : Run grammar labels number state texts final more) (hnumber : number = count + 1)
    (htexts : texts = (linesOf script).drop count)
    (h : Progress grammar script constants base labels number state records) :
    Progress grammar script constants base labels (number + texts.length) final
      (records ++ more) := by
  -- What is left to do are the lines of the script behind the first `count`, so each text is a line
  -- of it.
  induction hrun generalizing count records with
  | nil =>
      rw [List.append_nil]
      exact h
  | @cons number state text rest statement after final first more hreads hstep _ ih =>
      have hline : (linesOf script)[count]? = some text := by
        rw [← List.head?_drop, ← htexts, List.head?_cons]
      have hrest : rest = (linesOf script).drop (count + 1) := by
        rw [← List.drop_drop, ← htexts, List.drop_one, List.tail_cons]
      have hat : StatementAt script number statement := ⟨count, text, hnumber, hline, hreads⟩
      have hnext := ih (by omega) hrest (h.step hgrammar hat hstep)
      rw [List.append_assoc] at hnext
      rw [List.length_cons, Nat.add_comm rest.length, ← Nat.add_assoc]
      exact hnext

/-- Every line of a run is read as a statement. -/
theorem Run.reads {state final : State} {texts : List (List Char)}
    (hrun : Run grammar labels number state texts final records) {index : Nat} {text : List Char}
    (htext : texts[index]? = some text) : ∃ statement, Reads (number + index) text statement := by
  induction hrun generalizing index with
  | nil => simp at htext
  | @cons number _ _ _ statement _ _ _ _ hreads _ _ ih =>
      cases index with
      | zero =>
          cases htext
          exact ⟨statement, hreads⟩
      | succ index =>
          obtain ⟨other, hother⟩ := ih htext
          rw [Nat.add_assoc, Nat.add_comm 1] at hother
          exact ⟨other, hother⟩

/-- Only the lines of the script are read as statements. -/
theorem StatementAt.lt {statement : Statement} (h : StatementAt script number statement) :
    number < 1 + (linesOf script).length := by
  obtain ⟨index, text, rfl, htext, _⟩ := h
  have := (List.getElem?_eq_some_iff.mp htext).1
  omega

/-- What a script is assembled to. -/
structure Meaning (grammar : Grammar) (base : UInt32) (constants : Constants) (script : String)
    (assembly : Assembly) : Prop where
  base_eq : assembly.base = base
  /-- Every line can be read. -/
  readable : ∀ number, 1 ≤ number → number ≤ (linesOf script).length →
    ∃ statement, StatementAt script number statement
  /-- The records are in the order of their lines. -/
  sorted : (assembly.records.map Record.line).Pairwise (· < ·)
  /-- Just the instructions have records. -/
  complete : ∀ number, (∃ record ∈ assembly.records, record.line = number) ↔
    ∃ mnemonic operands, StatementAt script number (.instruction mnemonic operands)
  /-- The records stand one after the other from the base on. -/
  contiguous : Contiguous base assembly.records
  /-- A record has the bytes of its instruction, with the addresses of all labels. -/
  encoded : ∀ record ∈ assembly.records, ∃ operands,
    StatementAt script record.line (.instruction record.mnemonic operands) ∧
      Encoded grammar (Denotes script constants record.line) assembly.labels.get? record.mnemonic
        operands record.bytes
  /-- No name is given on two lines. -/
  once : ∀ first second statement other name, StatementAt script first statement →
    StatementAt script second other → statement.name? = some name → other.name? = some name →
    first = second
  /-- No name is given from outside and on a line. -/
  fresh : ∀ number statement name, StatementAt script number statement →
    statement.name? = some name → constants.get? name = none
  /-- A token denotes at most one value. -/
  denotes_unique : ∀ number token first second, Denotes script constants number token first →
    Denotes script constants number token second → first = second
  /-- The labels are those that lines define, as the address behind the records above or as a value.
  -/
  labels_eq : ∀ name address, assembly.labels.get? name = some address ↔
    (∃ number, StatementAt script number (.mark name) ∧
      address = base + UInt32.ofNat (sizeAbove assembly.records number)) ∨
    ∃ number token, StatementAt script number (.label name token) ∧
      Denotes script constants number token address
  labels_nodup : assembly.labels.keys.Nodup

/-- A token denotes at most one value if no name is given twice. -/
theorem Denotes.unique
    (honce : ∀ first second statement other name, StatementAt script first statement →
      StatementAt script second other → statement.name? = some name → other.name? = some name →
      first = second)
    (hfresh : ∀ number statement name, StatementAt script number statement →
      statement.name? = some name → constants.get? name = none)
    {token : Token} {first second : UInt32} (h : Denotes script constants number token first)
    (hsecond : Denotes script constants number token second) : first = second := by
  induction h generalizing second with
  | number =>
      cases hsecond
      rfl
  | given hvalue =>
      cases hsecond with
      | given hother => exact Option.some.inj (hvalue.symm.trans hother)
      | defined hat _ _ =>
          rw [hfresh _ _ _ hat rfl] at hvalue
          cases hvalue
  | defined hat _ _ ih =>
      cases hsecond with
      | given hother =>
          rw [hfresh _ _ _ hat rfl] at hother
          cases hother
      | defined hother _ hdenotes =>
          obtain rfl := honce _ _ _ _ _ hat hother rfl rfl
          cases hat.unique hother
          exact ih hdenotes

/-- An assembled script is what its lines mean: two passes give every record the bytes that it has
with the final addresses of all labels. -/
theorem meaning_of_assemble {assembly : Assembly} (hgrammar : Grammar.Built (fun _ => True) grammar)
    (h : assemble grammar base constants script = .ok assembly) :
    Meaning grammar base constants script assembly := by
  have hwell := hgrammar.wellFormed fun _ _ => trivial
  obtain ⟨final, hrun, hbase, hlabels⟩ := (assemble_eq_ok_iff hwell).mp h
  have hstart : Progress grammar script constants base final.symbols.label? 1
      (.start base constants) [] :=
    ⟨named_start script constants base, recorded_start .., by simp [State.start]⟩
  have hprogress := Progress.run hwell hrun rfl rfl hstart
  rw [List.nil_append] at hprogress
  obtain ⟨hnamed, hrecorded, _⟩ := hprogress
  have hget : assembly.labels.get? = final.symbols.label? := by
    rw [hlabels]
    exact funext hnamed.lists.get?_labels
  have honce : ∀ first second statement other name, StatementAt script first statement →
      StatementAt script second other → statement.name? = some name → other.name? = some name →
      first = second :=
    fun first second statement other name hfirst hsecond =>
      hnamed.once first hfirst.lt second hsecond.lt statement other name hfirst hsecond
  have hfresh : ∀ number statement name, StatementAt script number statement →
      statement.name? = some name → constants.get? name = none :=
    fun number statement name hat => hnamed.fresh number hat.lt statement name hat
  constructor
  · exact hbase
  · intro number hpos hle
    obtain ⟨index, rfl⟩ : ∃ index, number = index + 1 := ⟨number - 1, by omega⟩
    have htext := List.getElem?_eq_getElem (Nat.lt_of_succ_le hle)
    obtain ⟨statement, hreads⟩ := hrun.reads htext
    rw [Nat.add_comm] at hreads
    exact ⟨statement, index, _, rfl, htext, hreads⟩
  · exact hrecorded.sorted
  · intro number
    constructor
    · rintro ⟨record, hrecord, rfl⟩
      obtain ⟨operands, hat, _⟩ := hrecorded.encoded record hrecord
      exact ⟨record.mnemonic, operands, hat⟩
    · rintro ⟨mnemonic, operands, hat⟩
      exact hrecorded.complete number hat.lt mnemonic operands hat
  · exact hrecorded.contiguous
  · rw [hget]
    exact hrecorded.encoded
  · exact honce
  · exact hfresh
  · intro number token first second hfirst hsecond
    exact hfirst.unique honce hfresh hsecond
  · intro name address
    rw [hget, SymbolTable.label?_eq_some_iff, hnamed.get?]
    constructor
    · rintro (⟨value, _, heq⟩ | ⟨number, _, statement, hat, hgives⟩)
      · cases heq
      · cases hgives with
        | mark => exact .inl ⟨number, hat, rfl⟩
        | label hdenotes => exact .inr ⟨number, _, hat, hdenotes⟩
    · rintro (⟨number, hat, rfl⟩ | ⟨number, token, hat, hdenotes⟩)
      · exact .inr ⟨number, hat.lt, _, hat, .mark⟩
      · exact .inr ⟨number, hat.lt, _, hat, .label hdenotes⟩
  · rw [hlabels]
    exact hnamed.lists.nodup

/-- A script that jumps forward and back over a raw record and to a label with a value, with a
constant from outside, is assembled to what it means. -/
theorem meaning_of_assemble_jumps :
    ∃ grammar script assembly,
      Grammar.empty.define "jump" (some [.label]) "0c 08 ff ff $(U:0)" = .ok grammar ∧
      script = ".top: ; the start\n jump .end\n%size 4\n db %op %size 1 2\n.far 0x8001234\n" ++
        " jump .top\n jump .far\n.end:\n" ∧
      assemble grammar 0x8000000 ⟨[("op", 0xfe)]⟩ script = .ok assembly ∧
      assembly.bytes = [0x0c, 8, 0xff, 0xff, 0x1c, 0, 0, 8, 0xfe, 4, 1, 2,
        0x0c, 8, 0xff, 0xff, 0, 0, 0, 8, 0x0c, 8, 0xff, 0xff, 0x34, 0x12, 0, 8] ∧
      assembly.labels = ⟨[("end", 0x800001c), ("far", 0x8001234), ("top", 0x8000000)]⟩ ∧
      Meaning grammar 0x8000000 ⟨[("op", 0xfe)]⟩ script assembly := by
  have hdefine : Grammar.empty.define "jump" (some [.label]) "0c 08 ff ff $(U:0)" =
      .ok ⟨⟨[("jump", ⟨"jump", some [.label],
        ⟨[.literal 0x0c, .literal 8, .literal 0xff, .literal 0xff, .slot 0 .word]⟩⟩)]⟩⟩ := by
    decide +kernel
  have hassemble : assemble
      ⟨⟨[("jump", ⟨"jump", some [.label],
        ⟨[.literal 0x0c, .literal 8, .literal 0xff, .literal 0xff, .slot 0 .word]⟩⟩)]⟩⟩
      0x8000000 ⟨[("op", 0xfe)]⟩
      (".top: ; the start\n jump .end\n%size 4\n db %op %size 1 2\n.far 0x8001234\n" ++
        " jump .top\n jump .far\n.end:\n") =
      .ok ⟨0x8000000,
        [⟨0x8000000, 2, "jump", [0x0c, 8, 0xff, 0xff, 0x1c, 0, 0, 8]⟩,
          ⟨0x8000008, 4, "db", [0xfe, 4, 1, 2]⟩,
          ⟨0x800000c, 6, "jump", [0x0c, 8, 0xff, 0xff, 0, 0, 0, 8]⟩,
          ⟨0x8000014, 7, "jump", [0x0c, 8, 0xff, 0xff, 0x34, 0x12, 0, 8]⟩],
        ⟨[("end", 0x800001c), ("far", 0x8001234), ("top", 0x8000000)]⟩⟩ := by
    decide +kernel
  exact ⟨_, _, _, hdefine, rfl, hassemble, rfl, rfl,
    meaning_of_assemble (.define .empty trivial hdefine) hassemble⟩

end EventScript.Assembly
