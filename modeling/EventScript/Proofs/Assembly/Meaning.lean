import Mathlib.Algebra.Ring.Nat
import EventScript.Proofs.Assembly.Direct
import EventScript.Proofs.Assembly.Symbols

/-!
# What an assembled script means

`Denotes`, `OperandValues` and `Encoded` give the meaning of a script without its passes: values of
tokens from the constants above them, values of operands from all labels wherever they stand, and
records from these values. `Named` says that a table holds the names given above a line, and
`Recorded` that records are those of the lines above it; each comes with a lemma for every kind of
statement.
-/

namespace EventScript

/-- The name that a statement gives. -/
def Statement.name? : Statement → Option String
  | .mark name => some name
  | .label name _ => some name
  | .constant name _ => some name
  | _ => none

namespace Assembly

open Text EventScript.Field

/-- The line of the script with the given number, counted from one, is read as the statement. -/
def StatementAt (script : String) (number : Nat) (statement : Statement) : Prop :=
  ∃ index text, number = index + 1 ∧ (linesOf script)[index]? = some text ∧
    Reads number text statement

/-- The value of a token on a line: of a number, of a constant that is given from outside, or of one
that is defined on a line above. -/
inductive Denotes (script : String) (constants : Constants) : Nat → Token → UInt32 → Prop where
  | number {line value} : Denotes script constants line (.number value) value
  | given {line name value} : constants.get? name = some value →
      Denotes script constants line (.symbol name) value
  | defined {line above name token value} : StatementAt script above (.constant name token) →
      above < line → Denotes script constants above token value →
      Denotes script constants line (.symbol name) value

/-- The value of an operand of the given kind, where tokens have values and labels have addresses.
-/
inductive OperandValue (denotes : Token → UInt32 → Prop) (labels : String → Option UInt32) :
    OperandKind → Token → UInt32 → Prop where
  | value {token value} : denotes token value → OperandValue denotes labels .value token value
  | keyword {set word byte} : KeywordSet.valueOf? set word = some byte →
      OperandValue denotes labels (.keyword set) (.keyword word) byte.toUInt32
  | label {name address} : labels name = some address →
      OperandValue denotes labels .label (.label name) address

/-- The values of the operands of an instruction. -/
inductive OperandValues (denotes : Token → UInt32 → Prop) (labels : String → Option UInt32) :
    List OperandKind → List Token → List UInt32 → Prop where
  | nil : OperandValues denotes labels [] [] []
  | cons {kind kinds token tokens value values} : OperandValue denotes labels kind token value →
      OperandValues denotes labels kinds tokens values →
      OperandValues denotes labels (kind :: kinds) (token :: tokens) (value :: values)

/-- The bytes are those of the instruction: the values of the operands themselves for a raw record,
and otherwise the fields of the template with the values of the operands in its slots. -/
def Encoded (grammar : Grammar) (denotes : Token → UInt32 → Prop) (labels : String → Option UInt32)
    (mnemonic : String) (operands : List Token) (bytes : Bytes) : Prop :=
  if mnemonic = Grammar.rawMnemonic then
    List.Forall₂ (fun token (byte : UInt8) => denotes token byte.toUInt32) operands bytes
  else
    ∃ instruction values, grammar.get? mnemonic = some instruction ∧
      OperandValues denotes labels instruction.kinds operands values ∧
      Encodes (values[·]?) instruction.template.fields bytes

/-- The records stand one after the other from the address on. -/
def Contiguous : UInt32 → List Record → Prop
  | _, [] => True
  | address, record :: rest =>
      record.address = address ∧ Contiguous (address + UInt32.ofNat record.bytes.length) rest

/-- The number of bytes of the records that lines above the given one write. -/
def sizeAbove (records : List Record) (number : Nat) : Nat :=
  ((records.filter fun record => record.line < number).map fun record => record.bytes.length).sum

variable {script : String} {constants : Constants} {base : UInt32} {records : List Record}
  {number : Nat} {statement : Statement}

/-- A line is read as at most one statement. -/
theorem StatementAt.unique {other : Statement} (h : StatementAt script number statement)
    (hother : StatementAt script number other) : statement = other := by
  obtain ⟨index, text, rfl, htext, hreads⟩ := h
  obtain ⟨otherIndex, otherText, hindex, hotherText, hotherReads⟩ := hother
  obtain rfl : index = otherIndex := by omega
  obtain rfl := Option.some.inj (htext.symm.trans hotherText)
  exact hreads.unique hotherReads

/-- Lines are counted from one. -/
theorem StatementAt.pos (h : StatementAt script number statement) : 1 ≤ number := by
  obtain ⟨index, text, rfl, _⟩ := h
  omega

/-- What a statement on a line gives its name. A mark is the address behind the records above it. -/
inductive Gives (script : String) (constants : Constants) (base : UInt32) (records : List Record)
    (number : Nat) : Statement → String → Symbol → Prop where
  | mark {name} : Gives script constants base records number (.mark name) name
      (.label (base + UInt32.ofNat (sizeAbove records number)))
  | label {name token value} : Denotes script constants number token value →
      Gives script constants base records number (.label name token) name (.label value)
  | constant {name token value} : Denotes script constants number token value →
      Gives script constants base records number (.constant name token) name (.constant value)

theorem Gives.name? {name : String} {symbol : Symbol}
    (h : Gives script constants base records number statement name symbol) :
    statement.name? = some name := by
  cases h <;> rfl

/-- The table holds the names that are given from outside or on the lines above the given one, each
once. -/
structure Named (script : String) (constants : Constants) (base : UInt32) (records : List Record)
    (number : Nat) (symbols : SymbolTable) : Prop where
  get? : ∀ name symbol, symbols.symbols.get? name = some symbol ↔
    (∃ value, constants.get? name = some value ∧ symbol = .constant value) ∨
      ∃ line < number, ∃ statement, StatementAt script line statement ∧
        Gives script constants base records line statement name symbol
  /-- A name that a line gives is taken. -/
  taken : ∀ line < number, ∀ statement name, StatementAt script line statement →
    statement.name? = some name → symbols.symbols.get? name ≠ none
  /-- No name is given from outside and on a line. -/
  fresh : ∀ line < number, ∀ statement name, StatementAt script line statement →
    statement.name? = some name → constants.get? name = none
  /-- No name is given on two lines. -/
  once : ∀ first < number, ∀ second < number, ∀ statement other name,
    StatementAt script first statement → StatementAt script second other →
    statement.name? = some name → other.name? = some name → first = second
  lists : symbols.Lists

variable {symbols after : SymbolTable}

/-- Before the first line there are the names given from outside. -/
theorem named_start (script : String) (constants : Constants) (base : UInt32) :
    Named script constants base [] 1 (State.start base constants).symbols := by
  have hnone : ∀ line < 1, ∀ statement, ¬ StatementAt script line statement :=
    fun line hline statement hat => Nat.not_le_of_lt hline hat.pos
  constructor
  · intro name symbol
    have hlines : ¬ ∃ line < 1, ∃ statement, StatementAt script line statement ∧
        Gives script constants base [] line statement name symbol :=
      fun ⟨line, hline, statement, hat, _⟩ => hnone line hline statement hat
    simp only [State.start, SymbolTable.get?_ofConstants, Option.map_eq_some_iff, hlines, or_false]
    exact exists_congr fun value => and_congr_right fun _ => eq_comm
  · intro line hline statement name hat
    exact absurd hat (hnone line hline statement)
  · intro line hline statement name hat
    exact absurd hat (hnone line hline statement)
  · intro first hfirst second _ statement other name hat
    exact absurd hat (hnone first hfirst statement)
  · exact SymbolTable.lists_ofConstants constants

/-- A token has a value in the table just if it denotes it. -/
theorem Named.value?_eq_some_iff (h : Named script constants base records number symbols)
    {token : Token} {value : UInt32} :
    symbols.value? token = some value ↔ Denotes script constants number token value := by
  cases token with
  | number other =>
      constructor
      · intro hvalue
        cases hvalue
        exact .number
      · intro hdenotes
        cases hdenotes
        rfl
  | symbol name =>
      rw [SymbolTable.value?, SymbolTable.constant?_eq_some_iff, h.get?]
      constructor
      · rintro (⟨other, hother, heq⟩ | ⟨line, hline, statement, hat, hgives⟩)
        · cases heq
          exact .given hother
        · cases hgives with
          | constant hdenotes => exact .defined hat hline hdenotes
      · intro hdenotes
        cases hdenotes with
        | given hvalue => exact .inl ⟨value, hvalue, rfl⟩
        | defined hat hline hdenotes =>
            exact .inr ⟨_, hline, _, hat, .constant hdenotes⟩
  | _ =>
      constructor
      · intro hvalue
        cases hvalue
      · intro hdenotes
        cases hdenotes

/-- A statement without a name leaves the names. -/
theorem Named.skip (h : Named script constants base records number symbols)
    (hat : StatementAt script number statement) (hname : statement.name? = none) :
    Named script constants base records (number + 1) symbols := by
  -- The line that was done gives no name, so every line that does stands above it.
  have habove : ∀ {line other name}, line < number + 1 → StatementAt script line other →
      other.name? = some name → line < number := by
    intro line other name hline hother hothername
    rcases Nat.lt_succ_iff_lt_or_eq.mp hline with hlt | rfl
    · exact hlt
    · rw [hat.unique hother, hothername] at hname
      cases hname
  constructor
  · intro name symbol
    rw [h.get?]
    refine or_congr_right ⟨?_, ?_⟩
    · rintro ⟨line, hline, hgiven⟩
      exact ⟨line, Nat.lt_succ_of_lt hline, hgiven⟩
    · rintro ⟨line, hline, other, hother, hgives⟩
      exact ⟨line, habove hline hother hgives.name?, other, hother, hgives⟩
  · intro line hline other name hother hothername
    exact h.taken line (habove hline hother hothername) other name hother hothername
  · intro line hline other name hother hothername
    exact h.fresh line (habove hline hother hothername) other name hother hothername
  · intro first hfirst second hsecond one other name hone hother honename hothername
    exact h.once first (habove hfirst hone honename) second (habove hsecond hother hothername)
      one other name hone hother honename hothername
  · exact h.lists

/-- A statement that gives a free name adds it. -/
theorem Named.define {name : String} {symbol : Symbol}
    (h : Named script constants base records number symbols)
    (hat : StatementAt script number statement)
    (hgives : ∀ other, Gives script constants base records number statement name other ↔
      other = symbol)
    (hdefine : symbols.define? name symbol = some after) :
    Named script constants base records (number + 1) after := by
  have hget := SymbolTable.get?_of_define? hdefine
  have hfree := (SymbolTable.define?_eq_some_iff.mp hdefine).1
  have hname : statement.name? = some name := ((hgives symbol).mpr rfl).name?
  -- The name was free, so it is neither given from outside nor on a line above.
  have houtside : constants.get? name = none := by
    cases hvalue : constants.get? name with
    | none => rfl
    | some value =>
        rw [(h.get? name (.constant value)).mpr (.inl ⟨value, hvalue, rfl⟩)] at hfree
        cases hfree
  have hhere : ∀ {line other}, line < number + 1 → StatementAt script line other →
      other.name? = some name → line = number := by
    intro line other hline hother hothername
    rcases Nat.lt_succ_iff_lt_or_eq.mp hline with hlt | rfl
    · exact absurd hfree (h.taken line hlt other name hother hothername)
    · rfl
  have habove : ∀ {line other given}, line < number + 1 → StatementAt script line other →
      other.name? = some given → given ≠ name → line < number := by
    intro line other given hline hother hothername hgiven
    rcases Nat.lt_succ_iff_lt_or_eq.mp hline with hlt | rfl
    · exact hlt
    · rw [← hat.unique hother, hname] at hothername
      exact absurd (Option.some.inj hothername).symm hgiven
  constructor
  · intro given other
    rw [hget]
    by_cases hgiven : given = name
    · subst hgiven
      rw [if_pos rfl]
      constructor
      · intro hother
        cases hother
        exact .inr ⟨number, Nat.lt_succ_self _, statement, hat, (hgives symbol).mpr rfl⟩
      · rintro (⟨value, hvalue, _⟩ | ⟨line, hline, one, hone, hgivesOne⟩)
        · rw [houtside] at hvalue
          cases hvalue
        · obtain rfl := hhere hline hone hgivesOne.name?
          rw [← hat.unique hone] at hgivesOne
          rw [(hgives other).mp hgivesOne]
    · rw [if_neg hgiven, h.get?]
      refine or_congr_right ⟨?_, ?_⟩
      · rintro ⟨line, hline, hgives⟩
        exact ⟨line, Nat.lt_succ_of_lt hline, hgives⟩
      · rintro ⟨line, hline, one, hone, hgivesOne⟩
        exact ⟨line, habove hline hone hgivesOne.name? hgiven, one, hone, hgivesOne⟩
  · intro line hline one given hone honename
    rw [hget]
    by_cases hgiven : given = name
    · rw [if_pos hgiven]
      exact Option.some_ne_none symbol
    · rw [if_neg hgiven]
      exact h.taken line (habove hline hone honename hgiven) one given hone honename
  · intro line hline one given hone honename
    by_cases hgiven : given = name
    · rw [hgiven, houtside]
    · exact h.fresh line (habove hline hone honename hgiven) one given hone honename
  · intro first hfirst second hsecond one other given hone hother honename hothername
    by_cases hgiven : given = name
    · subst hgiven
      rw [hhere hfirst hone honename, hhere hsecond hother hothername]
    · exact h.once first (habove hfirst hone honename hgiven) second
        (habove hsecond hother hothername hgiven) one other given hone hother honename hothername
  · exact h.lists.define hdefine

/-- Records of later lines do not change what is above a line. -/
theorem sizeAbove_append {more : List Record} {line : Nat}
    (hmore : ∀ record ∈ more, line ≤ record.line) :
    sizeAbove (records ++ more) line = sizeAbove records line := by
  have hnone : more.filter (fun record => record.line < line) = [] := by
    apply List.filter_eq_nil_iff.mpr
    intro record hrecord
    have := hmore record hrecord
    simpa using this
  simp [sizeAbove, hnone]

/-- Above a line that comes after all records are all of them. -/
theorem sizeAbove_eq_sum {line : Nat} (h : ∀ record ∈ records, record.line < line) :
    sizeAbove records line = (records.map fun record => record.bytes.length).sum := by
  have hall : records.filter (fun record => record.line < line) = records := by
    apply List.filter_eq_self.mpr
    intro record hrecord
    simpa using h record hrecord
  rw [sizeAbove, hall]

/-- Records of later lines leave the names. -/
theorem Named.append (h : Named script constants base records number symbols) {more : List Record}
    (hmore : ∀ record ∈ more, number ≤ record.line) :
    Named script constants base (records ++ more) number symbols := by
  refine ⟨fun name symbol => ?_, h.taken, h.fresh, h.once, h.lists⟩
  have hgives : ∀ line < number, ∀ statement,
      Gives script constants base (records ++ more) line statement name symbol ↔
        Gives script constants base records line statement name symbol := by
    intro line hline statement
    have hsize : sizeAbove (records ++ more) line = sizeAbove records line :=
      sizeAbove_append fun record hrecord =>
        Nat.le_trans (Nat.le_of_lt hline) (hmore record hrecord)
    constructor
    · intro hgives
      cases hgives with
      | mark =>
          rw [hsize]
          exact .mark
      | label hdenotes => exact .label hdenotes
      | constant hdenotes => exact .constant hdenotes
    · intro hgives
      cases hgives with
      | mark =>
          rw [← hsize]
          exact .mark
      | label hdenotes => exact .label hdenotes
      | constant hdenotes => exact .constant hdenotes
  rw [h.get?]
  refine or_congr_right (exists_congr fun line => and_congr_right fun hline => ?_)
  exact exists_congr fun statement => and_congr_right fun _ => (hgives line hline statement).symm

variable {grammar : Grammar} {labels : String → Option UInt32}

/-- The records of the lines above the given one. -/
structure Recorded (grammar : Grammar) (script : String) (constants : Constants) (base : UInt32)
    (labels : String → Option UInt32) (number : Nat) (records : List Record) : Prop where
  contiguous : Contiguous base records
  sorted : (records.map Record.line).Pairwise (· < ·)
  above : ∀ record ∈ records, record.line < number
  complete : ∀ line < number, ∀ mnemonic operands,
    StatementAt script line (.instruction mnemonic operands) →
    ∃ record ∈ records, record.line = line
  encoded : ∀ record ∈ records, ∃ operands,
    StatementAt script record.line (.instruction record.mnemonic operands) ∧
      Encoded grammar (Denotes script constants record.line) labels record.mnemonic operands
        record.bytes

/-- Before the first line there are no records. -/
theorem recorded_start (grammar : Grammar) (script : String) (constants : Constants) (base : UInt32)
    (labels : String → Option UInt32) : Recorded grammar script constants base labels 1 [] := by
  refine ⟨trivial, List.Pairwise.nil, by simp, fun line hline _ _ hat => ?_, by simp⟩
  exact absurd hat.pos (Nat.not_le_of_lt hline)

/-- A statement that is no instruction leaves the records. -/
theorem Recorded.skip (h : Recorded grammar script constants base labels number records)
    (hat : StatementAt script number statement)
    (hother : ∀ mnemonic operands, statement ≠ .instruction mnemonic operands) :
    Recorded grammar script constants base labels (number + 1) records := by
  refine ⟨h.contiguous, h.sorted, fun record hrecord => Nat.lt_succ_of_lt (h.above record hrecord),
    ?_, h.encoded⟩
  intro line hline mnemonic operands hinstruction
  rcases Nat.lt_succ_iff_lt_or_eq.mp hline with hlt | rfl
  · exact h.complete line hlt mnemonic operands hinstruction
  · exact absurd (hat.unique hinstruction) (hother mnemonic operands)

/-- A record may be put behind others if it starts where they end. -/
theorem Contiguous.concat {address : UInt32} {record : Record} (h : Contiguous address records)
    (haddress : record.address =
      address + UInt32.ofNat (records.map fun record => record.bytes.length).sum) :
    Contiguous address (records ++ [record]) := by
  induction records generalizing address with
  | nil => exact ⟨by simpa using haddress, trivial⟩
  | cons first rest ih =>
      refine ⟨h.1, ih h.2 ?_⟩
      rw [haddress, List.map_cons, List.sum_cons, add_ofNat_add]

/-- An instruction adds its record. -/
theorem Recorded.concat {mnemonic : String} {operands : List Token} {bytes : Bytes}
    {address : UInt32} (h : Recorded grammar script constants base labels number records)
    (hat : StatementAt script number (.instruction mnemonic operands))
    (haddress : address = base + UInt32.ofNat (records.map fun record => record.bytes.length).sum)
    (hencoded : Encoded grammar (Denotes script constants number) labels mnemonic operands bytes) :
    Recorded grammar script constants base labels (number + 1)
      (records ++ [⟨address, number, mnemonic, bytes⟩]) := by
  constructor
  · exact h.contiguous.concat haddress
  · rw [List.map_append, List.pairwise_append]
    refine ⟨h.sorted, List.pairwise_singleton .., ?_⟩
    intro line hline other hother
    obtain ⟨record, hrecord, rfl⟩ := List.mem_map.mp hline
    obtain rfl : other = number := by simpa using hother
    exact h.above record hrecord
  · intro record hrecord
    rcases List.mem_append.mp hrecord with hold | hnew
    · exact Nat.lt_succ_of_lt (h.above record hold)
    · obtain rfl := List.mem_singleton.mp hnew
      exact Nat.lt_succ_self number
  · intro line hline other tokens hother
    rcases Nat.lt_succ_iff_lt_or_eq.mp hline with hlt | rfl
    · obtain ⟨record, hrecord, hrecordLine⟩ := h.complete line hlt other tokens hother
      exact ⟨record, List.mem_append_left _ hrecord, hrecordLine⟩
    · exact ⟨_, List.mem_append_right _ (List.mem_singleton_self _), rfl⟩
  · intro record hrecord
    rcases List.mem_append.mp hrecord with hold | hnew
    · exact h.encoded record hold
    · obtain rfl := List.mem_singleton.mp hnew
      exact ⟨operands, hat, hencoded⟩

end Assembly

end EventScript
