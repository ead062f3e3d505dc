import EventScript.Proofs.Listing.Recovery

/-!
# Which instruction a record is listed as

An instruction accounts for a record if some operands of its kinds are encoded as this record
(`Spells`). Matching a record against the template of an instruction decides this
(`isSome_match?_iff`): an operand that no slot holds can be chosen freely, and one with several
slots must have the same value in all of them. Instructions are tried from the most to the fewest
fixed bytes and then by name, so the first one that accounts for a record is the preferred one
(`decode_cases`).
-/

namespace EventScript.Listing

open EventScript.Field

/-- The operand stands for the value: a number for itself, a keyword for its byte, and a label for
its address. -/
inductive Shows : OperandKind → Operand → UInt32 → Prop where
  | value {number} : Shows .value (.value number) number
  | keyword {set word byte} : (word, byte) ∈ KeywordSet.choices set →
      Shows (.keyword set) (.word word) byte.toUInt32
  | label {address} : Shows .label (.target address) address

/-- The operands stand for the values. -/
inductive ShowsAll : List OperandKind → List Operand → List UInt32 → Prop where
  | nil : ShowsAll [] [] []
  | cons {kind kinds operand operands value values} :
      Shows kind operand value → ShowsAll kinds operands values →
      ShowsAll (kind :: kinds) (operand :: operands) (value :: values)

/-- The instruction with these operands is encoded as the record at the address. The address of a
label is encoded as a number. -/
def Spells (address : UInt32) (record : Bytes) (instruction : Instruction)
    (operands : List Operand) : Prop :=
  ∃ values, ShowsAll instruction.kinds operands values ∧
    instruction.encode (values.map Argument.value) (.start address) = (⟨address, record⟩, .ok [])

/-- The instruction is encoded as the record at the address, for some operands. -/
def AccountsFor (address : UInt32) (record : Bytes) (instruction : Instruction) : Prop :=
  ∃ operands, Spells address record instruction operands

variable {address : UInt32} {record bytes : Bytes} {instruction : Instruction} {fields : List Field}
  {values : List UInt32} {kind : OperandKind} {kinds : List OperandKind}
  {noted : List (Option UInt32)}

/-- Numbers leave no label open: what is written are the direct encodings, where all slots are
aligned. -/
theorem opens_values_iff {base : UInt32} {offset : Nat} {fixups : List Fixup} :
    Opens (values.map Argument.value) base offset fields bytes fixups ↔
      fixups = [] ∧ AlignedAt (base + UInt32.ofNat offset) fields ∧
      Encodes (values[·]?) fields bytes := by
  constructor
  · intro h
    induction h with
    | nil => exact ⟨rfl, trivial, .nil⟩
    | literal _ ih =>
        obtain ⟨rfl, haligned, hencodes⟩ := ih
        rw [add_ofNat_add] at haligned
        exact ⟨rfl, haligned, .literal hencodes⟩
    | @value offset operand width value fields bytes fixups hargument hfits hslot _ ih =>
        obtain ⟨rfl, haligned, hencodes⟩ := ih
        rw [add_ofNat_add] at haligned
        have hvalue : values[operand]? = some value := by simpa using hargument
        exact ⟨rfl, ⟨hslot, haligned⟩, .slot hvalue hfits hencodes⟩
    | label hargument => simp at hargument
  · rintro ⟨rfl, haligned, hencodes⟩
    induction hencodes generalizing offset with
    | nil => exact .nil
    | literal _ ih =>
        refine .literal (ih ?_)
        rw [add_ofNat_add]
        exact haligned
    | @slot operand width value fields bytes hvalue hfits _ ih =>
        have hargument : (values.map Argument.value)[operand]? = some (.value value) := by
          simp [hvalue]
        refine .value hargument hfits haligned.1 (ih ?_)
        rw [add_ofNat_add]
        exact haligned.2

/-- An instruction is encoded from numbers if these fit into aligned slots. -/
theorem encode_values_iff :
    instruction.encode (values.map Argument.value) (.start address) = (⟨address, record⟩, .ok []) ↔
      AlignedAt address instruction.template.fields ∧
      Encodes (values[·]?) instruction.template.fields record := by
  have hstart : address + UInt32.ofNat 0 = address := UInt32.add_zero address
  rw [Instruction.encode, Instruction.encodeFields_eq_ok_iff]
  constructor
  · rintro ⟨written, hwriter, hopens⟩
    obtain rfl : record = written := congrArg Writer.bytes hwriter
    obtain ⟨_, haligned, hencodes⟩ := opens_values_iff.mp hopens
    exact ⟨hstart ▸ haligned, hencodes⟩
  · rintro ⟨haligned, hencodes⟩
    exact ⟨record, rfl, opens_values_iff.mpr ⟨rfl, hstart.symm ▸ haligned, hencodes⟩⟩

/-- A listed operand stands for the value that was noted for it. -/
theorem shows_of_operand? {value? : Option UInt32} {operand : Operand}
    (h : operand? kind value? = some operand) :
    ∃ value, Shows kind operand value ∧ ∀ number, value? = some number → value = number := by
  cases kind with
  | value =>
      cases h
      refine ⟨value?.getD 0, .value, ?_⟩
      rintro number rfl
      rfl
  | label =>
      obtain ⟨target, rfl, rfl⟩ := Option.map_eq_some_iff.mp h
      exact ⟨target, .label, fun _ hnumber => Option.some.inj hnumber⟩
  | keyword set =>
      cases value? with
      | none =>
          obtain ⟨choice, hchoice, rfl⟩ := Option.map_eq_some_iff.mp h
          exact ⟨choice.2.toUInt32, .keyword (List.mem_of_head? hchoice),
            fun _ hnumber => by cases hnumber⟩
      | some value =>
          simp only [operand?] at h
          split at h
          · rename_i hfits
            obtain ⟨word, hword, rfl⟩ := Option.map_eq_some_iff.mp h
            obtain ⟨choice, hfind, rfl⟩ := Option.map_eq_some_iff.mp hword
            have hbyte : choice.2 = value.toUInt8 := by simpa using List.find?_some hfind
            have hmem : (choice.1, value.toUInt8) ∈ set.choices :=
              hbyte ▸ List.mem_of_find?_eq_some hfind
            refine ⟨value.toUInt8.toUInt32, .keyword hmem, fun number hnumber => ?_⟩
            rw [Width.toUInt32_toUInt8_of_fits hfits, Option.some.inj hnumber]
          · cases h

/-- Listed operands stand for the values that were noted for them. -/
theorem showsAll_of_operands? {operands : List Operand} (hlength : noted.length = kinds.length)
    (h : operands? kinds noted = some operands) :
    ∃ values, ShowsAll kinds operands values ∧
      ∀ (index : Nat) (number : UInt32), noted[index]?.join = some number →
        values[index]? = some number := by
  induction kinds generalizing noted operands with
  | nil =>
      obtain rfl : noted = [] := List.eq_nil_of_length_eq_zero hlength
      cases h
      exact ⟨[], .nil, fun _ _ hnumber => by simp at hnumber⟩
  | cons kind kinds ih =>
      cases noted with
      | nil => cases hlength
      | cons value? noted =>
          simp only [operands?] at h
          split at h
          · cases h
          · rename_i operand hoperand
            split at h
            · cases h
            · rename_i rest hrest
              cases h
              obtain ⟨value, hshows, hvalue⟩ := shows_of_operand? hoperand
              obtain ⟨values, hshowsAll, hvalues⟩ := ih (by simpa using hlength) hrest
              refine ⟨value :: values, .cons hshows hshowsAll, fun index number hnumber => ?_⟩
              cases index with
              | zero => exact congrArg some (hvalue number (by simpa using hnumber))
              | succ index => exact hvalues index number (by simpa using hnumber)

/-- A line that was found for a record spells it. -/
theorem spells_of_match? {line : Line} (h : match? address record instruction = some line) :
    ∃ operands, line = ⟨address, instruction.mnemonic, operands⟩ ∧
      Spells address record instruction operands := by
  obtain ⟨hsize, noted, operands, hnoted, hoperands, rfl⟩ := match?_eq_some_iff.mp h
  obtain ⟨haligned, _, hlength, hencodes⟩ := readFields?_eq_some hnoted hsize
  obtain ⟨values, hshows, hvalues⟩ := showsAll_of_operands? (by simpa using hlength) hoperands
  exact ⟨operands, rfl, values, hshows, encode_values_iff.mpr ⟨haligned, hencodes.mono hvalues⟩⟩

/-- An operand can be listed for a value it stands for, and for no value unless it is a label. -/
theorem exists_operand? {operand : Operand} {value : UInt32} {value? : Option UInt32}
    (h : Shows kind operand value)
    (hnoted : ∀ number, value? = some number → number = value)
    (hlabel : kind = .label → value? ≠ none) :
    ∃ listed, operand? kind value? = some listed := by
  cases value? with
  | some number =>
      obtain rfl := hnoted number rfl
      cases h with
      | value => exact ⟨_, rfl⟩
      | @keyword set word byte hmem =>
          have hword : set.valueOf? word = some byte := by
            rw [KeywordSet.valueOf?, find?_choice hmem, Option.map_some]
          exact ⟨.word word, by simp [operand?, wordFor?_of_valueOf? hword]⟩
      | label => exact ⟨_, rfl⟩
  | none =>
      cases h with
      | value => exact ⟨_, rfl⟩
      | @keyword set word byte hmem => cases set <;> exact ⟨_, rfl⟩
      | label => exact absurd rfl (hlabel rfl)

/-- Operands can be listed for what was noted of their values, if that of every label was. -/
theorem exists_operands? {operands : List Operand} (h : ShowsAll kinds operands values)
    (hagrees : Agrees (values[·]?) noted)
    (hlabels : ∀ index : Nat, kinds[index]? = some OperandKind.label →
      ∃ value, noted[index]? = some (some value)) :
    ∃ listed, operands? kinds noted = some listed := by
  induction h generalizing noted with
  | nil => exact ⟨[], by simp [operands?]⟩
  | @cons kind kinds operand operands value values hshows _ ih =>
      cases noted with
      | nil => exact ⟨[], by simp [operands?]⟩
      | cons value? noted =>
          have hnoted : ∀ number, value? = some number → number = value := by
            intro number hnumber
            have hvalue : (value :: values)[0]? = some number :=
              hagrees 0 number (by simp [hnumber])
            exact (Option.some.inj hvalue).symm
          have hlabel : kind = .label → value? ≠ none := by
            intro hkind hnone
            obtain ⟨address, haddress⟩ := hlabels 0 (by simp [hkind])
            simp [hnone] at haddress
          have hrestAgrees : Agrees (values[·]?) noted := fun index number hnumber =>
            hagrees (index + 1) number hnumber
          obtain ⟨first, hfirst⟩ := exists_operand? hshows hnoted hlabel
          obtain ⟨rest, hrest⟩ := ih hrestAgrees fun index hkind => hlabels (index + 1) hkind
          exact ⟨first :: rest, by simp [operands?, hfirst, hrest]⟩

/-- A record that an instruction accounts for matches its template. -/
theorem exists_match? (htemplate : instruction.template.WellFormed instruction.kinds)
    (h : AccountsFor address record instruction) :
    ∃ line, match? address record instruction = some line := by
  obtain ⟨operands, values, hshows, hencode⟩ := h
  obtain ⟨haligned, hencodes⟩ := encode_values_iff.mp hencode
  obtain ⟨noted, hread, hagrees, hslots⟩ :=
    readFields?_of_encodes hencodes haligned (agrees_nothing _ _)
    fun operand width hslot => by simpa using htemplate.declared operand width hslot
  have hlabels : ∀ index : Nat, instruction.kinds[index]? = some OperandKind.label →
      ∃ value, noted[index]? = some (some value) := by
    intro index hkind
    obtain ⟨width, hslot⟩ := htemplate.label_placed index hkind
    exact hslots index width hslot
  obtain ⟨listed, hlisted⟩ := exists_operands? hshows hagrees hlabels
  exact ⟨_, match?_eq_some_iff.mpr ⟨hencodes.length_eq.symm, noted, listed, hread, hlisted, rfl⟩⟩

/-- Matching decides whether an instruction accounts for a record. -/
theorem isSome_match?_iff (htemplate : instruction.template.WellFormed instruction.kinds) :
    (match? address record instruction).isSome = true ↔ AccountsFor address record instruction := by
  rw [Option.isSome_iff_exists]
  constructor
  · rintro ⟨line, hline⟩
    obtain ⟨operands, _, hspells⟩ := spells_of_match? hline
    exact ⟨operands, hspells⟩
  · exact exists_match? htemplate

variable {instructions : List Instruction}

/-- Among the instructions that account for a record, this one has the most fixed bytes and, among
those, the smallest name. -/
structure Preferred (instructions : List Instruction) (address : UInt32) (record : Bytes)
    (best : Instruction) :
    Prop where
  mem : best ∈ instructions
  accounts : AccountsFor address record best
  most : ∀ other ∈ instructions, AccountsFor address record other →
    other.template.literals ≤ best.template.literals
  smallest : ∀ other ∈ instructions, AccountsFor address record other →
    other.template.literals = best.template.literals → best.mnemonic ≤ other.mnemonic

/-- The first instruction that matches a record is the preferred one, and its line is the one that
is found. -/
theorem preferred_of_findSome?
    (htemplates : ∀ other ∈ instructions, other.template.WellFormed other.kinds)
    {line : Line} (h : (candidates instructions).findSome? (match? address record) = some line) :
    ∃ best, Preferred instructions address record best ∧
      match? address record best = some line := by
  obtain ⟨before, best, after, hsplit, hmatch, hbefore⟩ := List.findSome?_eq_some_iff.mp h
  have hmem : ∀ other, other ∈ candidates instructions ↔ other ∈ instructions :=
    fun _ => List.mem_mergeSort
  have hbest : best ∈ instructions := (hmem best).mp (by simp [hsplit])
  -- What accounts for the record is not tried before the first match.
  have hfirst : ∀ other ∈ instructions, AccountsFor address record other →
      triedBefore best other = true := by
    intro other hother haccounts
    obtain ⟨found, hfound⟩ := exists_match? (htemplates other hother) haccounts
    have hcandidate := (hmem other).mpr hother
    have hpairwise := pairwise_candidates instructions
    rw [hsplit] at hcandidate hpairwise
    rcases List.mem_append.mp hcandidate with hmember | hmember
    · rw [hbefore other hmember] at hfound
      cases hfound
    · rcases List.mem_cons.mp hmember with rfl | hlater
      · simpa using triedBefore_total other other
      · exact (List.pairwise_cons.mp (List.pairwise_append.mp hpairwise).2.1).1 other hlater
  obtain ⟨operands, _, hspells⟩ := spells_of_match? hmatch
  refine ⟨best, ⟨hbest, ⟨operands, hspells⟩, ?_, ?_⟩, hmatch⟩
  · intro other hother haccounts
    rcases triedBefore_iff.mp (hfirst other hother haccounts) with hlt | ⟨heq, _⟩ <;> omega
  · intro other hother haccounts hsame
    rcases triedBefore_iff.mp (hfirst other hother haccounts) with hlt | ⟨_, hle⟩
    · omega
    · exact hle

/-- A record is decoded with the preferred instruction, or byte by byte if none accounts for it. -/
theorem decode_cases (htemplates : ∀ other ∈ instructions, other.template.WellFormed other.kinds) :
    (∃ best, Preferred instructions address record best ∧ ∃ operands,
      Spells address record best operands ∧
        decode (candidates instructions) address record = ⟨address, best.mnemonic, operands⟩) ∨
      (∀ other ∈ instructions, ¬ AccountsFor address record other) ∧
        decode (candidates instructions) address record = rawLine address record := by
  unfold decode
  cases hfound : (candidates instructions).findSome? (match? address record) with
  | none =>
      refine .inr ⟨fun other hother haccounts => ?_, rfl⟩
      obtain ⟨line, hline⟩ := exists_match? (htemplates other hother) haccounts
      rw [List.findSome?_eq_none_iff.mp hfound other (List.mem_mergeSort.mpr hother)] at hline
      cases hline
  | some line =>
      obtain ⟨best, hbest, hmatch⟩ := preferred_of_findSome? htemplates hfound
      obtain ⟨operands, hline, hspells⟩ := spells_of_match? hmatch
      exact .inl ⟨best, hbest, operands, hspells, hline⟩

/-- Instructions may be added to a grammar in any order and be listed in any order. A record is
decoded with the one that has the most fixed bytes among those that account for it, and among these
with the one that has the smallest name; just if there is none it is listed as `db` with all its
bytes. Matching decides which instructions account for the record: some operands of their kinds are
encoded as this record. -/
theorem decode_preferred {entered : List Grammar.Description} {grammar : Grammar}
    (hgrammar : Grammar.empty.defineAll entered = .ok grammar) {instructions : List Instruction}
    (hinstructions : instructions.Perm grammar.toList) (address : UInt32) (record : Bytes) :
    (∀ others : List Grammar.Description, others.Perm entered →
      Grammar.empty.defineAll others = .ok grammar) ∧
      (∀ instruction, instruction ∈ instructions ↔ ∃ description ∈ entered,
        Instruction.define description.mnemonic description.operands description.template =
          .ok instruction) ∧
      candidates instructions = candidates grammar.toList ∧
      (∀ instruction ∈ instructions,
        (match? address record instruction).isSome = true ↔
          AccountsFor address record instruction) ∧
      ((∃ instruction ∈ instructions, AccountsFor address record instruction) →
        ∃ best, Preferred instructions address record best ∧ ∃ operands,
          Spells address record best operands ∧
          decode (candidates instructions) address record = ⟨address, best.mnemonic, operands⟩) ∧
      ((decode (candidates instructions) address record).mnemonic = "db" ↔
        ∀ instruction ∈ instructions, ¬ AccountsFor address record instruction) ∧
      ((∀ instruction ∈ instructions, ¬ AccountsFor address record instruction) →
        decode (candidates instructions) address record =
          ⟨address, "db", record.map fun byte => .value byte.toUInt32⟩) := by
  have hwell : grammar.WellFormed fun _ => True :=
    Grammar.wellFormed_empty.defineAll (fun _ _ => trivial) hgrammar
  have hoffers : ∀ instruction ∈ instructions, grammar.Offers (fun _ => True) instruction :=
    fun instruction hmem => hwell.offers_of_mem (hinstructions.mem_iff.mp hmem)
  have htemplates : ∀ instruction ∈ instructions,
      instruction.template.WellFormed instruction.kinds :=
    fun instruction hmem => (hoffers instruction hmem).template
  refine ⟨fun others hothers => ?_, fun instruction => ?_, ?_, fun instruction hmem => ?_,
    ?_, ?_, ?_⟩
  · exact Grammar.defineAll_perm hothers.symm Dictionary.ordered_empty hgrammar
  · rw [hinstructions.mem_iff, Grammar.mem_toList_defineAll hgrammar]
    simp [Grammar.empty, Grammar.toList, Dictionary.empty, Dictionary.values]
  · exact candidates_perm hinstructions hwell.nodup_mnemonics
  · exact isSome_match?_iff (htemplates instruction hmem)
  · rintro ⟨instruction, hmem, haccounts⟩
    rcases decode_cases htemplates with hbest | ⟨hnone, _⟩
    · exact hbest
    · exact absurd haccounts (hnone instruction hmem)
  · rcases decode_cases htemplates with ⟨best, hbest, operands, _, hline⟩ | ⟨hnone, hraw⟩
    · -- The line of an instruction has its name, which is not the one of raw records.
      refine ⟨fun hraw => ?_, fun hnone => absurd hbest.accounts (hnone best hbest.mem)⟩
      rw [hline] at hraw
      exact absurd hraw (hoffers best hbest.mem).not_raw
    · exact ⟨fun _ => hnone, fun _ => congrArg Line.mnemonic hraw⟩
  · intro hnone
    rcases decode_cases htemplates with ⟨best, hbest, _⟩ | ⟨_, hraw⟩
    · exact absurd hbest.accounts (hnone best hbest.mem)
    · exact hraw

/-- Three instructions that account for common records. Two of them have as many fixed bytes. -/
def overlapping : List Grammar.Description :=
  [⟨"put", some [.value], "10 04 $0 ff"⟩, ⟨"any", some [.value, .value], "10 04 $0 $1"⟩,
    ⟨"jump", some [.keyword .jumpCondition], "10 04 $0 ff"⟩]

/-- The three instructions in the order in which they are tried. -/
def overlappingInstructions : List Instruction :=
  [⟨"jump", some [.keyword .jumpCondition],
    ⟨[.literal 0x10, .literal 4, .slot 0 .byte, .literal 0xff]⟩⟩,
    ⟨"put", some [.value], ⟨[.literal 0x10, .literal 4, .slot 0 .byte, .literal 0xff]⟩⟩,
    ⟨"any", some [.value, .value], ⟨[.literal 0x10, .literal 4, .slot 0 .byte, .slot 1 .byte]⟩⟩]

/-- The grammar of the three instructions. -/
def overlappingGrammar : Grammar :=
  ⟨.ofList (overlappingInstructions.map fun instruction => (instruction.mnemonic, instruction))⟩

/-- A record that all three instructions account for is decoded with the one of the two tied
instructions that has the smaller name, and one that none of them accounts for is listed with all
its bytes. -/
theorem decode_preferred_tied :
    Grammar.empty.defineAll overlapping = .ok overlappingGrammar ∧
      overlappingInstructions.Perm overlappingGrammar.toList ∧
      (∃ best, Preferred overlappingInstructions 0x8000000 [0x10, 4, 2, 0xff] best ∧
        ∃ operands, Spells 0x8000000 [0x10, 4, 2, 0xff] best operands ∧
          decode (candidates overlappingInstructions) 0x8000000 [0x10, 4, 2, 0xff] =
            ⟨0x8000000, best.mnemonic, operands⟩) ∧
      decode (candidates overlappingInstructions) 0x8000000 [0x10, 4, 2, 0xff] =
        ⟨0x8000000, "jump", [.word "jz"]⟩ ∧
      decode (candidates overlappingInstructions) 0x8000000 [0x10, 3, 0xfe] =
        ⟨0x8000000, "db", [.value 0x10, .value 3, .value 0xfe]⟩ := by
  have hgrammar : Grammar.empty.defineAll overlapping = .ok overlappingGrammar := by decide +kernel
  have hperm : overlappingInstructions.Perm overlappingGrammar.toList := by decide +kernel
  have haccounts : ∃ instruction ∈ overlappingInstructions,
      AccountsFor 0x8000000 [0x10, 4, 2, 0xff] instruction :=
    ⟨_, List.mem_cons_of_mem _ List.mem_cons_self, [.value 2], [2], .cons .value .nil,
      by decide +kernel⟩
  have hcandidates : candidates overlappingInstructions = overlappingInstructions :=
    List.mergeSort_of_pairwise (by decide +kernel)
  obtain ⟨_, _, _, _, hchoice, _, _⟩ :=
    decode_preferred hgrammar hperm 0x8000000 [0x10, 4, 2, 0xff]
  obtain ⟨_, _, _, hmatches, _, _, hfallback⟩ :=
    decode_preferred hgrammar hperm 0x8000000 [0x10, 3, 0xfe]
  refine ⟨hgrammar, hperm, hchoice haccounts, ?_, hfallback fun instruction hmem haccount => ?_⟩
  · rw [hcandidates]
    decide +kernel
  · have hunmatched : overlappingInstructions.all
        (fun other => (match? 0x8000000 [0x10, 3, 0xfe] other).isNone) = true := by
      decide +kernel
    have hnone := List.all_eq_true.mp hunmatched instruction hmem
    have hsome := (hmatches instruction hmem).mpr haccount
    rw [Option.isNone_iff_eq_none.mp hnone] at hsome
    cases hsome

end EventScript.Listing
