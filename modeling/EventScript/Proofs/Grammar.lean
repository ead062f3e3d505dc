import EventScript.Grammar.Builtin
import EventScript.Proofs.Dictionary
import EventScript.Proofs.Text

/-!
# What a grammar promises

A template that was read from text is well formed: its slots hold declared operands, labels have
slots and these are four bytes wide, and the second field tells the size of the record.
`Template.parse_eq_ok_iff` says what reading it takes. `Built` says that a grammar arose from the
empty or the built-in one by adding instructions, and `Built.wellFormed` gives what every such
grammar promises: each instruction is found under its mnemonic, which is not the one of raw records,
and has a well-formed template. The order in which instructions are added has no part in the grammar
(`defineAll_perm`).
-/

namespace EventScript

/-- What holds of every template that can be read for the given operands. -/
structure Template.WellFormed (operands : List OperandKind) (template : Template) : Prop where
  /-- Slots hold declared operands. -/
  declared : ∀ operand width, Field.slot operand width ∈ template.fields → operand < operands.length
  /-- Slots of labels are four bytes wide. -/
  label_width : ∀ operand width, Field.slot operand width ∈ template.fields →
    operands[operand]? = some .label → width = .word
  /-- Every label has a slot. -/
  label_placed : ∀ operand, operands[operand]? = some .label →
    ∃ width, Field.slot operand width ∈ template.fields
  /-- The second field is a fixed byte that tells the size. -/
  framed : ∃ byte : UInt8, template.fields[1]? = some (.literal byte) ∧ byte.toNat = template.size

namespace Field

variable {operands : List OperandKind} {field : Field} {item index : List Char}
  {marked : Option Width}

/-- The field can be read for the operands: a slot holds one of these, with four bytes if it is a
label, and its index is not too large. -/
def Admitted (operands : List OperandKind) : Field → Prop
  | .literal _ => True
  | .slot operand width =>
      operand ≤ maxIndex ∧ ∃ kind, operands[operand]? = some kind ∧ (kind = .label → width = .word)

/-- The width of a slot suits the kind of its operand. -/
theorem slotWidth_label {index : Nat} {kind : OperandKind} {width : Width}
    (h : slotWidth index kind marked = .ok width) (hkind : kind = .label) : width = .word := by
  subst hkind
  cases marked with
  | none => simpa [slotWidth] using h.symm
  | some other => cases other <;> simp_all [slotWidth]

/-- A slot that was read is admitted. -/
theorem admitted_of_slotOf (h : slotOf operands item marked index = .ok field) :
    Admitted operands field := by
  unfold slotOf at h
  split at h
  · cases h
  · rename_i operand hread
    split at h
    · cases h
    · rename_i kind hkind
      split at h
      · cases h
      · rename_i width hwidth
        cases h
        exact ⟨Text.Numeral.read?_le hread, kind, hkind, slotWidth_label hwidth⟩

/-- The field that an item stands for is admitted. -/
theorem admitted_of_ofItem (h : ofItem operands item = .ok field) : Admitted operands field := by
  unfold ofItem at h
  split at h
  · split at h
    · exact admitted_of_slotOf h
    · split at h
      · cases h
      · split at h
        · cases h
        · exact admitted_of_slotOf h
  · split at h
    · cases h
    · cases h
      trivial

end Field

namespace Template

variable {operands : List OperandKind} {fields : List Field} {template : Template}

/-- The fields that items stand for are admitted. -/
theorem admitted_of_fieldsOf {items : List (List Char)} (h : fieldsOf operands items = .ok fields) :
    ∀ field ∈ fields, field.Admitted operands := by
  induction items generalizing fields with
  | nil =>
      cases h
      exact fun field hfield => absurd hfield List.not_mem_nil
  | cons item rest ih =>
      simp only [fieldsOf] at h
      split at h
      · cases h
      · rename_i first hfirst
        split at h
        · cases h
        · rename_i more hmore
          cases h
          exact List.forall_mem_cons.mpr ⟨Field.admitted_of_ofItem hfirst, ih hmore⟩

/-- Some field is a slot of the operand. -/
theorem any_holds_iff {operand : Nat} :
    fields.any (Field.holds operand) = true ↔ ∃ width, Field.slot operand width ∈ fields := by
  rw [List.any_eq_true]
  constructor
  · rintro ⟨field, hfield, hholds⟩
    cases field with
    | literal byte => cases hholds
    | slot other width =>
        have hsame : other = operand := by simpa [Field.holds] using hholds
        exact ⟨width, hsame ▸ hfield⟩
  · rintro ⟨width, hslot⟩
    exact ⟨_, hslot, by simp [Field.holds]⟩

/-- No label is without a slot just if every label has one. -/
theorem unplaced?_eq_none_iff {start : Nat} :
    unplaced? fields start operands = none ↔
      ∀ operand, operands[operand]? = some .label → ∃ width,
        Field.slot (start + operand) width ∈ fields := by
  induction operands generalizing start with
  | nil => simp [unplaced?]
  | cons kind rest ih =>
      have hfirst : (∀ operand, (kind :: rest)[operand]? = some .label →
          ∃ width, Field.slot (start + operand) width ∈ fields) ↔
          (kind = .label → ∃ width, Field.slot start width ∈ fields) ∧
            ∀ operand, rest[operand]? = some .label → ∃ width,
              Field.slot (start + 1 + operand) width ∈ fields := by
        constructor
        · intro h
          refine ⟨fun hlabel => h 0 (congrArg some hlabel), fun operand hlabel => ?_⟩
          have hslot := h (operand + 1) hlabel
          rwa [← Nat.add_assoc, Nat.add_right_comm] at hslot
        · rintro ⟨hzero, hrest⟩ (_ | operand) hlabel
          · exact hzero (Option.some.inj hlabel)
          · have hslot := hrest operand hlabel
            rwa [Nat.add_right_comm, Nat.add_assoc] at hslot
      rw [hfirst, ← ih, ← any_holds_iff, unplaced?]
      split
      · rename_i hunplaced
        simp [hunplaced]
      · rename_i hplaced
        have hkind : kind = .label → fields.any (Field.holds start) = true := fun hlabel => by
          simpa [hlabel] using hplaced
        exact ⟨fun hrest => ⟨hkind, hrest⟩, And.right⟩

/-- A template is framed if its second field tells its size. -/
theorem framed_iff :
    template.framed = true ↔
      ∃ byte : UInt8, template.fields[1]? = some (.literal byte) ∧ byte.toNat = template.size := by
  rw [framed, beq_iff_eq, declared]
  split
  · rename_i byte hbyte
    simp [hbyte]
  · rename_i hother
    simp only [Option.map_none, reduceCtorEq, false_iff, not_exists, not_and]
    exact fun byte hbyte => absurd hbyte (hother byte)

/-- What it takes to read a template: its fields are those of the items, its labels have slots, and
it is framed. -/
theorem parse_eq_ok_iff {text : String} :
    parse text operands = .ok template ↔
      fieldsOf operands (Text.words text.toList) = .ok template.fields ∧
        (∀ operand, operands[operand]? = some .label → ∃ width,
          Field.slot operand width ∈ template.fields) ∧
        ∃ byte : UInt8, template.fields[1]? = some (.literal byte) ∧
          byte.toNat = template.size := by
  have hplaced :
      (∀ operand, operands[operand]? = some .label → ∃ width,
        Field.slot operand width ∈ template.fields) ↔
      unplaced? template.fields 0 operands = none := by
    simp [unplaced?_eq_none_iff]
  rw [hplaced, ← framed_iff, parse]
  constructor
  · intro h
    split at h
    · cases h
    · rename_i fields hfields
      split at h
      · cases h
      · rename_i hnone
        simp only at h
        split at h
        · rename_i hframed
          cases h
          exact ⟨hfields, hnone, hframed⟩
        · cases h
  · rintro ⟨hfields, hnone, hframed⟩
    simp only [hfields, hnone, hframed, if_true]

/-- A template that was read is well formed. -/
theorem parse_wellFormed {text : String} (h : parse text operands = .ok template) :
    template.WellFormed operands := by
  obtain ⟨hfields, hplaced, hframed⟩ := parse_eq_ok_iff.mp h
  have hadmitted := admitted_of_fieldsOf hfields
  refine ⟨?_, ?_, hplaced, hframed⟩
  · intro operand width hslot
    obtain ⟨_, kind, hkind, _⟩ := hadmitted _ hslot
    exact (List.getElem?_eq_some_iff.mp hkind).1
  · intro operand width hslot hlabel
    obtain ⟨_, kind, hkind, hwidth⟩ := hadmitted _ hslot
    exact hwidth (Option.some.inj (hkind.symm.trans hlabel))

end Template

namespace Grammar

/-- Grammars that arise from the empty or the built-in one by adding instructions with admitted
mnemonics. -/
inductive Built (admitted : String → Prop) : Grammar → Prop where
  | empty : Built admitted Grammar.empty
  | builtin : Built admitted Grammar.builtin
  | define {grammar extended : Grammar} {mnemonic : String} {operands : Option (List OperandKind)}
      {template : String} :
      Built admitted grammar → admitted mnemonic →
      grammar.define mnemonic operands template = .ok extended → Built admitted extended

/-- What every grammar promises whose mnemonics are admitted. -/
structure WellFormed (admitted : String → Prop) (grammar : Grammar) : Prop where
  /-- No mnemonic occurs twice. -/
  keys : (grammar.instructions.entries.map Prod.fst).Nodup
  /-- Instructions stand under their mnemonics. -/
  mnemonic : ∀ entry ∈ grammar.instructions.entries, entry.2.mnemonic = entry.1
  /-- The mnemonics are admitted. -/
  admitted : ∀ entry ∈ grammar.instructions.entries, admitted entry.1
  /-- No instruction has the mnemonic of raw records. -/
  not_raw : ∀ entry ∈ grammar.instructions.entries, entry.1 ≠ rawMnemonic
  /-- Templates are well formed for the operands of their instruction. -/
  template : ∀ entry ∈ grammar.instructions.entries,
    entry.2.template.WellFormed entry.2.kinds

variable {admitted : String → Prop} {grammar extended : Grammar} {mnemonic : String}
  {operands : Option (List OperandKind)} {template : String}

/-- What adding an instruction does: its mnemonic was free, and its entry joins the others. -/
theorem define_eq_ok (h : grammar.define mnemonic operands template = .ok extended) :
    ∃ parsed, Template.parse template (operands.getD []) = .ok parsed ∧
      grammar.instructions.get? mnemonic = none ∧ mnemonic ≠ rawMnemonic ∧
      extended = ⟨grammar.instructions.insert mnemonic ⟨mnemonic, operands, parsed⟩⟩ := by
  unfold define at h
  split at h
  · cases h
  · rename_i hfree
    simp only [Dictionary.contains, Bool.or_eq_true, not_or, Bool.not_eq_true,
      Option.isSome_eq_false_iff, Option.isNone_iff_eq_none, beq_eq_false_iff_ne, ne_eq] at hfree
    unfold Instruction.define at h
    split at h
    · cases h
    · rename_i instruction hinstruction
      split at hinstruction
      · cases hinstruction
      · rename_i parsed hparsed
        cases hinstruction
        cases h
        exact ⟨parsed, hparsed, hfree.1, hfree.2, rfl⟩

/-- Adding an instruction with an admitted mnemonic keeps the promises. -/
theorem WellFormed.define (hgrammar : grammar.WellFormed admitted) (hadmitted : admitted mnemonic)
    (h : grammar.define mnemonic operands template = .ok extended) :
    extended.WellFormed admitted := by
  obtain ⟨parsed, hparsed, hnew, hraw, rfl⟩ := define_eq_ok h
  have hperm := Dictionary.insertEntry_perm hnew
    (⟨mnemonic, operands, parsed⟩ : Instruction)
  -- What holds of the new entry and of those before holds of all entries.
  have hall : ∀ {P : String × Instruction → Prop}, P (mnemonic, ⟨mnemonic, operands, parsed⟩) →
      (∀ entry ∈ grammar.instructions.entries, P entry) →
      ∀ entry ∈ Dictionary.insertEntry mnemonic ⟨mnemonic, operands, parsed⟩
        grammar.instructions.entries, P entry := by
    intro P hfirst hothers entry hentry
    rcases List.mem_cons.mp (hperm.mem_iff.mp hentry) with rfl | hentry
    · exact hfirst
    · exact hothers entry hentry
  refine ⟨?_, hall rfl hgrammar.mnemonic, hall hadmitted hgrammar.admitted,
    hall hraw hgrammar.not_raw, hall (Template.parse_wellFormed hparsed) hgrammar.template⟩
  refine (hperm.map Prod.fst).nodup_iff.mpr (List.nodup_cons.mpr ⟨?_, hgrammar.keys⟩)
  exact Dictionary.find?_eq_none_iff.mp hnew

/-- Adding instructions in order keeps the promises. -/
theorem WellFormed.defineAll {descriptions : List Description}
    (hgrammar : grammar.WellFormed admitted)
    (hadmitted : ∀ description ∈ descriptions, admitted description.mnemonic)
    (h : grammar.defineAll descriptions = .ok extended) : extended.WellFormed admitted := by
  induction descriptions generalizing grammar with
  | nil =>
      cases h
      exact hgrammar
  | cons description rest ih =>
      simp only [Grammar.defineAll] at h
      split at h
      · cases h
      · rename_i next hnext
        refine ih (hgrammar.define (hadmitted description List.mem_cons_self) hnext) ?_ h
        intro other hother
        exact hadmitted other (List.mem_cons_of_mem _ hother)

/-- The empty grammar keeps every promise. -/
theorem wellFormed_empty : Grammar.empty.WellFormed admitted :=
  ⟨List.nodup_nil, by simp [Grammar.empty, Dictionary.empty],
    by simp [Grammar.empty, Dictionary.empty], by simp [Grammar.empty, Dictionary.empty],
    by simp [Grammar.empty, Dictionary.empty]⟩

/-- Every grammar that arises by adding instructions keeps its promises. -/
theorem Built.wellFormed (hbuiltin : ∀ description ∈ descriptions, admitted description.mnemonic)
    (h : Built admitted grammar) : grammar.WellFormed admitted := by
  induction h with
  | empty => exact wellFormed_empty
  | builtin => exact wellFormed_empty.defineAll hbuiltin builtin_eq_ok
  | define _ hadmitted hdefine ih => exact ih.define hadmitted hdefine

/-- What holds of an instruction of a grammar. -/
structure Offers (grammar : Grammar) (admitted : String → Prop) (instruction : Instruction) :
    Prop where
  /-- The instruction is found under its mnemonic. -/
  found : grammar.get? instruction.mnemonic = some instruction
  admitted : admitted instruction.mnemonic
  not_raw : instruction.mnemonic ≠ rawMnemonic
  template : instruction.template.WellFormed instruction.kinds

/-- What holds of the instructions that are listed. -/
theorem WellFormed.offers_of_mem (hgrammar : grammar.WellFormed admitted)
    {instruction : Instruction} (h : instruction ∈ grammar.toList) :
    grammar.Offers admitted instruction := by
  obtain ⟨⟨key, found⟩, hentry, rfl⟩ := List.mem_map.mp h
  obtain rfl : found.mnemonic = key := hgrammar.mnemonic _ hentry
  exact ⟨Dictionary.find?_of_mem hgrammar.keys hentry, hgrammar.admitted _ hentry,
    hgrammar.not_raw _ hentry, hgrammar.template _ hentry⟩

/-- What holds of the instruction that is found under a mnemonic. -/
theorem WellFormed.offers_of_get? (hgrammar : grammar.WellFormed admitted)
    {instruction : Instruction} (h : grammar.get? mnemonic = some instruction) :
    instruction.mnemonic = mnemonic ∧ grammar.Offers admitted instruction := by
  have hentry := Dictionary.mem_of_find? h
  have hmnemonic : instruction.mnemonic = mnemonic := hgrammar.mnemonic _ hentry
  exact ⟨hmnemonic, hgrammar.offers_of_mem (List.mem_map.mpr ⟨_, hentry, rfl⟩)⟩

/-- The listed instructions have different mnemonics. -/
theorem WellFormed.nodup_mnemonics (hgrammar : grammar.WellFormed admitted) :
    (grammar.toList.map Instruction.mnemonic).Nodup := by
  have hkeys :
      grammar.toList.map Instruction.mnemonic = grammar.instructions.entries.map Prod.fst := by
    rw [toList, Dictionary.values, List.map_map]
    exact List.map_congr_left hgrammar.mnemonic
  rw [hkeys]
  exact hgrammar.keys

/-- An instruction can be added just if its template can be read and its mnemonic is free. -/
theorem define_eq_ok_iff :
    grammar.define mnemonic operands template = .ok extended ↔
      ∃ parsed, Template.parse template (operands.getD []) = .ok parsed ∧
        grammar.instructions.get? mnemonic = none ∧ mnemonic ≠ rawMnemonic ∧
        extended = ⟨grammar.instructions.insert mnemonic ⟨mnemonic, operands, parsed⟩⟩ := by
  refine ⟨define_eq_ok, ?_⟩
  rintro ⟨parsed, hparsed, hfree, hraw, rfl⟩
  simp [define, Dictionary.contains, hfree, hraw, Instruction.define, hparsed]

/-- Instructions are added one after the other. -/
theorem defineAll_cons_eq_ok_iff {description : Description} {rest : List Description} :
    grammar.defineAll (description :: rest) = .ok extended ↔
      ∃ next,
        grammar.define description.mnemonic description.operands description.template = .ok next ∧
        next.defineAll rest = .ok extended := by
  simp only [defineAll]
  cases grammar.define description.mnemonic description.operands description.template <;> simp

/-- Two instructions can be added one way or the other. -/
theorem define_comm {next : Grammar} {first second : Description}
    (hordered : grammar.instructions.Ordered)
    (hfirst : grammar.define first.mnemonic first.operands first.template = .ok next)
    (hsecond : next.define second.mnemonic second.operands second.template = .ok extended) :
    ∃ other, grammar.define second.mnemonic second.operands second.template = .ok other ∧
      other.define first.mnemonic first.operands first.template = .ok extended := by
  obtain ⟨parsed, hparsed, hfree, hraw, rfl⟩ := define_eq_ok_iff.mp hfirst
  obtain ⟨parsedSecond, hparsedSecond, hfreeSecond, hrawSecond, rfl⟩ := define_eq_ok_iff.mp hsecond
  rw [Dictionary.get?_insert] at hfreeSecond
  have hne : second.mnemonic ≠ first.mnemonic := by
    intro heq
    rw [if_pos heq] at hfreeSecond
    cases hfreeSecond
  rw [if_neg hne] at hfreeSecond
  refine ⟨_, define_eq_ok_iff.mpr ⟨parsedSecond, hparsedSecond, hfreeSecond, hrawSecond, rfl⟩,
    define_eq_ok_iff.mpr ⟨parsed, hparsed, ?_, hraw, ?_⟩⟩
  · rw [Dictionary.get?_insert, if_neg hne.symm, hfree]
  · rw [hordered.insert_comm hne.symm]

/-- Instructions can be added in any order, and the grammar is the same. -/
theorem defineAll_perm {entered others : List Description} (hperm : entered.Perm others)
    (hordered : grammar.instructions.Ordered) (h : grammar.defineAll entered = .ok extended) :
    grammar.defineAll others = .ok extended := by
  induction hperm generalizing grammar with
  | nil => exact h
  | cons description _ ih =>
      obtain ⟨next, hnext, hrest⟩ := defineAll_cons_eq_ok_iff.mp h
      have hkept : next.instructions.Ordered := by
        obtain ⟨_, _, _, _, rfl⟩ := define_eq_ok_iff.mp hnext
        exact hordered.insert ..
      exact defineAll_cons_eq_ok_iff.mpr ⟨next, hnext, ih hkept hrest⟩
  | swap second first rest =>
      obtain ⟨next, hfirst, hnext⟩ := defineAll_cons_eq_ok_iff.mp h
      obtain ⟨last, hsecond, hrest⟩ := defineAll_cons_eq_ok_iff.mp hnext
      obtain ⟨other, hother, hlast⟩ := define_comm hordered hfirst hsecond
      exact defineAll_cons_eq_ok_iff.mpr
        ⟨other, hother, defineAll_cons_eq_ok_iff.mpr ⟨last, hlast, hrest⟩⟩
  | trans _ _ ih ihNext => exact ihNext hordered (ih hordered h)

/-- The listed instructions are the one that was added and those before. -/
theorem mem_toList_define (h : grammar.define mnemonic operands template = .ok extended)
    {instruction : Instruction} :
    instruction ∈ extended.toList ↔
      Instruction.define mnemonic operands template = .ok instruction ∨
      instruction ∈ grammar.toList := by
  obtain ⟨parsed, hparsed, hfree, _, rfl⟩ := define_eq_ok_iff.mp h
  have hperm :=
    (Dictionary.insertEntry_perm hfree (⟨mnemonic, operands, parsed⟩ : Instruction)).map Prod.snd
  have hdefine :
      Instruction.define mnemonic operands template = .ok ⟨mnemonic, operands, parsed⟩ := by
    rw [Instruction.define, hparsed]
  rw [hdefine, Except.ok.injEq, eq_comm]
  exact hperm.mem_iff.trans List.mem_cons

/-- The listed instructions are those that were added and those before. -/
theorem mem_toList_defineAll {entered : List Description}
    (h : grammar.defineAll entered = .ok extended) {instruction : Instruction} :
    instruction ∈ extended.toList ↔ instruction ∈ grammar.toList ∨ ∃ description ∈ entered,
      Instruction.define description.mnemonic description.operands description.template =
        .ok instruction := by
  induction entered generalizing grammar with
  | nil =>
      cases h
      simp
  | cons description rest ih =>
      obtain ⟨next, hnext, hrest⟩ := defineAll_cons_eq_ok_iff.mp h
      rw [ih hrest, mem_toList_define hnext, List.exists_mem_cons_iff,
        or_comm (a := _ = _), or_assoc]

end Grammar

end EventScript
