import EventScript.Proofs.Assembly.Move
import EventScript.Proofs.Relocator

/-!
# Scripts are relocatable

Where a script is assembled at two addresses, `Moved` says how the results are related. The places
that a record leaves open are slots of labels (`State.fixesLabels_of_lines`), so outside these the
bytes are equal; and labels are what lines say (`labelled_of_assemble`), so marks move along and
values stay. `assemble_relocatable` is the whole statement, with what it means for the free space
that a relocator gives away.
-/

namespace EventScript

/-- In records with the mnemonic, the byte with the index is one of the slot of a label. -/
def Grammar.LabelByte (grammar : Grammar) (mnemonic : String) (index : Nat) : Prop :=
  mnemonic ≠ rawMnemonic ∧ ∃ instruction before operand width after,
    grammar.get? mnemonic = some instruction ∧
    instruction.template.fields = before ++ .slot operand width :: after ∧
    instruction.kinds[operand]? = some .label ∧
    Field.totalSize before ≤ index ∧ index < Field.totalSize before + width.size

/-- The places that fields leave open are their slots of labels. -/
theorem Field.Opens.exists_slot {arguments : List Argument} {base : UInt32} {offset : Nat}
    {fields : List Field} {bytes : Bytes} {fixups : List Fixup}
    (h : Opens arguments base offset fields bytes fixups) (hwide : LabelsWide arguments fields)
    {fixup : Fixup} (hfixup : fixup ∈ fixups) :
    ∃ before operand after, fields = before ++ .slot operand .word :: after ∧
      arguments[operand]? = some (.label fixup.label) ∧
      fixup.offset = offset + totalSize before := by
  induction h with
  | nil => simp at hfixup
  | @literal offset byte fields _ _ _ ih =>
      obtain ⟨before, operand, after, rfl, hlabel, hoffset⟩ := ih hwide.tail hfixup
      refine ⟨.literal byte :: before, operand, after, rfl, hlabel, ?_⟩
      rw [hoffset, totalSize, Field.size, Nat.add_assoc]
  | @value offset other width _ fields _ _ _ _ _ _ ih =>
      obtain ⟨before, operand, after, rfl, hlabel, hoffset⟩ := ih hwide.tail hfixup
      refine ⟨.slot other width :: before, operand, after, rfl, hlabel, ?_⟩
      rw [hoffset, totalSize, Field.size, Nat.add_assoc]
  | @label offset other width name fields _ _ hother _ _ ih =>
      obtain rfl := hwide other width name List.mem_cons_self hother
      rcases List.mem_cons.mp hfixup with rfl | hfixup
      · exact ⟨[], other, fields, rfl, hother, rfl⟩
      · obtain ⟨before, operand, after, rfl, hlabel, hoffset⟩ := ih hwide.tail hfixup
        refine ⟨.slot other .word :: before, operand, after, rfl, hlabel, ?_⟩
        rw [hoffset, totalSize, Field.size, Nat.add_assoc]
        rfl

namespace Assembly

open EventScript.Field Statement

variable {grammar : Grammar} {admitted : String → Prop} {distance : UInt32}

/-- The places that a record leaves open are slots of labels. -/
def OpenRecord.FixesLabels (grammar : Grammar) (record : OpenRecord) : Prop :=
  ∀ fixup ∈ record.fixups, ∀ index, fixup.Covers index → grammar.LabelByte record.mnemonic index

/-- An instruction leaves slots of labels open only. -/
theorem State.fixesLabels_of_record (hgrammar : grammar.WellFormed admitted) {state : State}
    {place : Place} {mnemonic : String} {operands : List Token} {opened : OpenRecord}
    (h : state.record grammar place mnemonic operands = .ok opened) :
    opened.FixesLabels grammar := by
  obtain ⟨bytes, _, _, rfl⟩ |
      ⟨instruction, arguments, bytes, fixups, hraw, hfound, htakes, hopens, rfl⟩ :=
    State.record_eq_ok_iff.mp h
  · intro fixup hfixup
    cases hfixup
  · intro fixup hfixup index hindex
    have hwide := labelsWide_of_takesAll htakes (hgrammar.offers_of_get? hfound).2.template
    obtain ⟨before, operand, after, hfields, hlabel, hoffset⟩ := hopens.exists_slot hwide hfixup
    rw [Nat.zero_add] at hoffset
    refine ⟨hraw, instruction, before, operand, .word, after, hfound, hfields,
      htakes.kind_of_label hlabel, ?_⟩
    rw [← hoffset]
    exact hindex

/-- A statement leaves slots of labels open only. -/
theorem State.fixesLabels_of_statement (hgrammar : grammar.WellFormed admitted)
    {state after : State} {place : Place} {statement : Statement} {opened : OpenRecord}
    (h : state.statement grammar place statement = .ok (after, some opened)) :
    opened.FixesLabels grammar := by
  have hdefine : ∀ name symbol,
      (state.define place name symbol).map (·, none) ≠ .ok (after, some opened) := by
    intro name symbol hdefine
    cases hresult : state.define place name symbol <;> rw [hresult] at hdefine <;> cases hdefine
  cases statement with
  | blank => cases h
  | mark name => exact absurd h (hdefine _ _)
  | label name token =>
      simp only [State.statement] at h
      split at h
      · cases h
      · exact absurd h (hdefine _ _)
  | constant name token =>
      simp only [State.statement] at h
      split at h
      · cases h
      · exact absurd h (hdefine _ _)
  | instruction mnemonic operands =>
      simp only [State.statement] at h
      split at h
      · cases h
      · rename_i hrecord
        cases h
        exact State.fixesLabels_of_record hgrammar hrecord

/-- Lines leave slots of labels open only. -/
theorem State.fixesLabels_of_lines (hgrammar : grammar.WellFormed admitted) {state final : State}
    {number : Nat} {texts : List (List Char)} {opened : List OpenRecord}
    (h : state.lines grammar number texts = .ok (final, opened)) :
    ∀ record ∈ opened, record.FixesLabels grammar := by
  induction texts generalizing state number opened with
  | nil =>
      cases h
      simp
  | cons text rest ih =>
      obtain ⟨statement, after, written, records, _, hstatement, hrest, rfl⟩ :=
        State.lines_cons_eq_ok_iff.mp h
      intro record hrecord
      rcases List.mem_append.mp hrecord with hfirst | hlater
      · rw [Option.mem_toList.mp hfirst] at hstatement
        exact State.fixesLabels_of_statement hgrammar hstatement
      · exact ih hrest record hlater

/-- The second record is the first one `distance` further on: it has the same bytes outside slots of
labels. -/
structure Record.Moves (grammar : Grammar) (distance : UInt32) (first second : Record) : Prop where
  address_eq : second.address = first.address + distance
  line_eq : second.line = first.line
  mnemonic_eq : second.mnemonic = first.mnemonic
  length_eq : second.bytes.length = first.bytes.length
  kept : ∀ index, ¬ grammar.LabelByte first.mnemonic index →
    second.bytes[index]? = first.bytes[index]?

/-- A record that is closed in two places has the same bytes outside slots of labels. -/
theorem Closes.moves {opened : OpenRecord} {first second : Record} (h : Closes opened first)
    (hthere : Closes (opened.move distance) second) (hfixes : opened.FixesLabels grammar) :
    Record.Moves grammar distance first second := by
  refine ⟨?_, hthere.line_eq.trans h.line_eq.symm, hthere.mnemonic_eq.trans h.mnemonic_eq.symm,
    hthere.length_eq.trans h.length_eq.symm, fun index hindex => ?_⟩
  · rw [hthere.address_eq, h.address_eq]
    rfl
  · rw [h.mnemonic_eq] at hindex
    have houtside : ∀ fixup ∈ opened.fixups, ¬ fixup.Covers index :=
      fun fixup hfixup hcovers => hindex (hfixes fixup hfixup index hcovers)
    exact (hthere.kept index houtside).trans (h.kept index houtside).symm

/-- Records that are closed in two places have the same bytes outside slots of labels. -/
theorem moves_of_closes {opened : List OpenRecord} {first second : List Record}
    (h : List.Forall₂ Closes opened first)
    (hthere : List.Forall₂ Closes (opened.map (OpenRecord.move distance)) second)
    (hfixes : ∀ record ∈ opened, record.FixesLabels grammar) :
    List.Forall₂ (Record.Moves grammar distance) first second := by
  induction h generalizing second with
  | nil =>
      cases hthere
      exact .nil
  | cons hcloses _ ih =>
      cases hthere with
      | cons hother hrest =>
          exact .cons (hcloses.moves hother (hfixes _ List.mem_cons_self))
            (ih hrest fun record hrecord => hfixes record (List.mem_cons_of_mem _ hrecord))

/-- As many bytes stand above a line wherever the records stand. -/
theorem sizeAbove_eq_of_moves {first second : List Record}
    (h : List.Forall₂ (Record.Moves grammar distance) first second) (number : Nat) :
    sizeAbove second number = sizeAbove first number := by
  unfold sizeAbove
  induction h with
  | nil => rfl
  | @cons one other _ _ hmoves _ ih =>
      by_cases habove : one.line < number
      · simp [hmoves.line_eq, habove, hmoves.length_eq, ih]
      · simp [hmoves.line_eq, habove, ih]

variable {script : String} {constants : Constants} {base : UInt32}

/-- What the labels of an assembled script stand for. -/
structure Labelled (script : String) (constants : Constants) (assembly : Assembly) : Prop where
  mark : ∀ number name, StatementAt script number (.mark name) → assembly.labels.get? name =
    some (assembly.base + UInt32.ofNat (sizeAbove assembly.records number))
  label : ∀ number name token, StatementAt script number (.label name token) →
    ∃ value, Denotes script constants number token value ∧ assembly.labels.get? name = some value
  /-- A token denotes at most one value. -/
  unique : ∀ number token first second, Denotes script constants number token first →
    Denotes script constants number token second → first = second

/-- The labels of an assembled script are those that its lines give. -/
theorem labelled_of_assemble (hgrammar : grammar.WellFormed admitted) {assembly : Assembly}
    (h : assemble grammar base constants script = .ok assembly) :
    Labelled script constants assembly := by
  obtain ⟨final, hrun, hbase, hlabels⟩ := (assemble_eq_ok_iff hgrammar).mp h
  have hstart : Progress grammar script constants base final.symbols.label? 1
      (.start base constants) [] :=
    ⟨named_start script constants base, recorded_start .., by simp [State.start]⟩
  have hnamed := (Progress.run hgrammar hrun rfl rfl hstart).named
  rw [List.nil_append] at hnamed
  have hget : ∀ name address, assembly.labels.get? name = some address ↔
      final.symbols.symbols.get? name = some (.label address) := by
    intro name address
    rw [hlabels, hnamed.lists.get?_labels, SymbolTable.label?_eq_some_iff]
  refine ⟨fun number name hat => ?_, fun number name token hat => ?_, ?_⟩
  · rw [hget, hnamed.get?, hbase]
    exact .inr ⟨number, hat.lt, _, hat, .mark⟩
  · obtain ⟨symbol, hsymbol⟩ :=
      Option.ne_none_iff_exists'.mp (hnamed.taken number hat.lt _ name hat rfl)
    obtain ⟨_, hgiven, _⟩ | ⟨line, hline, statement, hother, hgives⟩ :=
      (hnamed.get? name symbol).mp hsymbol
    · rw [hnamed.fresh number hat.lt _ name hat rfl] at hgiven
      cases hgiven
    · -- The name is given on one line only, which is the one that defines the label.
      obtain rfl := hnamed.once line hline number hat.lt _ _ name hother hat hgives.name? rfl
      obtain rfl := hat.unique hother
      cases hgives with
      | label hdenotes => exact ⟨_, hdenotes, (hget name _).mpr hsymbol⟩
  · intro number token first second hfirst hsecond
    refine hfirst.unique ?_ ?_ hsecond
    · exact fun one other statement two name hone hother =>
        hnamed.once one hone.lt other hother.lt statement two name hone hother
    · exact fun line statement name hat => hnamed.fresh line hat.lt statement name hat

/-- The second assembly of a script is the first one `distance` further on. -/
structure Moved (grammar : Grammar) (script : String) (distance : UInt32)
    (first second : Assembly) :
    Prop where
  base_eq : second.base = first.base + distance
  records : List.Forall₂ (Record.Moves grammar distance) first.records second.records
  size_eq : second.size = first.size
  names : second.labels.keys = first.labels.keys
  /-- Labels that mark a place move along. -/
  marks : ∀ number name, StatementAt script number (.mark name) → ∃ address,
    first.labels.get? name = some address ∧ second.labels.get? name = some (address + distance)
  /-- Labels that are given a value keep it. -/
  values : ∀ number name token, StatementAt script number (.label name token) → ∃ address,
    first.labels.get? name = some address ∧ second.labels.get? name = some address

/-- The second one of two assemblies of a script is the first one further on, labels included. -/
theorem moved_of_assemble (hgrammar : grammar.WellFormed admitted) {first second : Assembly}
    {there : UInt32} (h : assemble grammar base constants script = .ok first)
    (hthere : assemble grammar there constants script = .ok second) :
    Moved grammar script (there - base) first second := by
  obtain ⟨final, opened, hlines, hfirst, hsecond, hkeys⟩ := shifted_of_assemble h hthere
  have hrecords := moves_of_closes hfirst hsecond (State.fixesLabels_of_lines hgrammar hlines)
  have hlabels := labelled_of_assemble hgrammar h
  have hlabelsThere := labelled_of_assemble hgrammar hthere
  have hbase : second.base = first.base + (there - base) := by
    rw [assemble_base h, assemble_base hthere, UInt32.add_comm, UInt32.sub_add_cancel]
  refine ⟨hbase, hrecords, size_eq_of_assemble h hthere, hkeys, fun number name hat => ?_,
    fun number name token hat => ?_⟩
  · refine ⟨_, hlabels.mark number name hat, ?_⟩
    rw [hlabelsThere.mark number name hat, sizeAbove_eq_of_moves hrecords, hbase, UInt32.add_assoc,
      UInt32.add_comm (there - base), UInt32.add_assoc]
  · obtain ⟨value, hvalue, hget⟩ := hlabels.label number name token hat
    obtain ⟨other, hother, hgetThere⟩ := hlabelsThere.label number name token hat
    rw [hlabels.unique number token other value hother hvalue] at hgetThere
    exact ⟨value, hget, hgetThere⟩

end Assembly

namespace Relocator

/-- What comes of an event that is assembled where it is to stand. -/
inductive Settles (layout : Layout) (assembly : Assembly) : Except BuildError Assembly → Prop where
  | noted : layout.loadBase ≤ assembly.base → Settles layout assembly (.ok assembly)
  | outside {fault} : layout.toOffset assembly.base = .error fault →
      Settles layout assembly (.error (.image fault))

/-- What comes of placing an event, and what is left of the free space then. -/
inductive Takes (relocator : Relocator) (table : PointerTable) (id : UInt32) (capacity : Nat)
    (script : String) (constants : Constants) : Except BuildError Assembly → FreeSpace → Prop where
  /-- It was to be placed before, and takes nothing. -/
  | again : (table.name, id) ∈ relocator.placed →
      Takes relocator table id capacity script constants
        (.error (.allocation (.alreadyPlaced (unitName table.name id)))) relocator.space
  /-- It is refused, and takes nothing. -/
  | refused {fault} : (table.name, id) ∉ relocator.placed →
      relocator.Refuses table id capacity script constants fault →
      Takes relocator table id capacity script constants (.error fault) relocator.space
  /-- It fits in its place, and takes nothing. -/
  | stays {current inPlace result} : (table.name, id) ∉ relocator.placed →
      table.get id = .ok current →
      assemble relocator.grammar current constants script = .ok inPlace → inPlace.size ≤ capacity →
      Settles relocator.layout inPlace result →
      Takes relocator table id capacity script constants result relocator.space
  /-- It does not fit, and takes as much as it has bytes at the address that it gets. -/
  | moves {current inPlace address space moved result} : (table.name, id) ∉ relocator.placed →
      table.get id = .ok current →
      assemble relocator.grammar current constants script = .ok inPlace → capacity < inPlace.size →
      assemble relocator.grammar address constants script = .ok moved → moved.size = inPlace.size →
      relocator.space.allocate (unitName table.name id) (UInt64.ofNat moved.size) =
        .ok (address, space) →
      Settles relocator.layout moved result →
      Takes relocator table id capacity script constants result space
  /-- It does not fit, and cannot use what it gets. -/
  | wasted {current inPlace address space fault} : (table.name, id) ∉ relocator.placed →
      table.get id = .ok current →
      assemble relocator.grammar current constants script = .ok inPlace → capacity < inPlace.size →
      relocator.space.allocate (unitName table.name id) (UInt64.ofNat inPlace.size) =
        .ok (address, space) →
      relocator.Wastes table id script constants address fault →
      Takes relocator table id capacity script constants (.error fault) space

variable {relocator after : Relocator} {table changed : PointerTable} {id : UInt32} {capacity : Nat}
  {script : String} {constants : Constants}

/-- What an event is refused for does not depend on the events that were to be placed before. -/
theorem Refuses.of_mark {key : String × UInt32} {fault : BuildError}
    (h : (relocator.mark key).Refuses table id capacity script constants fault) :
    relocator.Refuses table id capacity script constants fault := by
  cases h with
  | unlisted hnone => exact .unlisted hnone
  | unassembled hcurrent hfault => exact .unassembled hcurrent hfault
  | full hcurrent hinPlace hlarge hfull => exact .full hcurrent hinPlace hlarge hfull

/-- The reason why free space is wasted does not depend on them either. -/
theorem Wastes.of_mark {key : String × UInt32} {address : UInt32} {fault : BuildError}
    (h : (relocator.mark key).Wastes table id script constants address fault) :
    relocator.Wastes table id script constants address fault := by
  cases h with
  | unassembled hfault => exact .unassembled hfault
  | unlisted hnone => exact .unlisted hnone

/-- A located event takes free space in the size that it has there. -/
theorem takes_of_located {relocated : Bool} {assembly : Assembly}
    {result : Except BuildError Assembly} (hfree : (table.name, id) ∉ relocator.placed)
    (hlocated : Located (relocator.mark (table.name, id)) table id capacity script constants after
      changed (.ok (relocated, assembly)))
    (hsettles : Settles relocator.layout assembly result) :
    relocator.Takes table id capacity script constants result after.space := by
  cases hlocated with
  | stays hcurrent hinPlace hfits => exact .stays hfree hcurrent hinPlace hfits hsettles
  | moves hcurrent hinPlace hlarge hallocate hmoved _ =>
      have hsize := Assembly.size_eq_of_assemble hinPlace hmoved
      rw [← hsize] at hallocate
      exact .moves hfree hcurrent hinPlace hlarge hmoved hsize hallocate hsettles

/-- Free space is taken in the size of the event that is put there. -/
theorem takes_of_place {result : Except BuildError Assembly}
    (h : relocator.place table id capacity script constants = (after, changed, result)) :
    relocator.Takes table id capacity script constants result after.space := by
  cases placed_of_place h with
  | again hplaced => exact .again hplaced
  | failed hfree hlocated =>
      cases hlocated with
      | refused hrefuses => exact .refused hfree hrefuses.of_mark
      | wasted hcurrent hinPlace hlarge hallocate hwastes =>
          exact .wasted hfree hcurrent hinPlace hlarge hallocate hwastes.of_mark
  | outside hfree hlocated hoffset =>
      rw [hlocated.layout_eq] at hoffset
      exact takes_of_located hfree hlocated (.outside hoffset)
  | noted hfree hlocated hbase =>
      exact (takes_of_located hfree hlocated (.noted (hlocated.layout_eq ▸ hbase)) :)

end Relocator

/-- Scripts are relocatable: whether one can be assembled depends on its address up to multiples of
four only, and wherever it is assembled it has the same records and labels, moved along. So an event
takes just as much free space as it needs there. -/
theorem assemble_relocatable {grammar : Grammar} (hgrammar : Grammar.Built (fun _ => True) grammar)
    (constants : Constants) (script : String) (here there : UInt32) :
    (here.toNat % 4 = there.toNat % 4 →
      ((∃ first, assemble grammar here constants script = .ok first) ↔
        ∃ second, assemble grammar there constants script = .ok second)) ∧
    (∀ first second, assemble grammar here constants script = .ok first →
      assemble grammar there constants script = .ok second →
      Assembly.Moved grammar script (there - here) first second) ∧
    ∀ (relocator after : Relocator) table changed id capacity result,
      relocator.place table id capacity script constants = (after, changed, result) →
      relocator.Takes table id capacity script constants result after.space := by
  have hmove : ∀ {one other : UInt32}, one.toNat % 4 = other.toNat % 4 →
      (∃ first, assemble grammar one constants script = .ok first) →
      ∃ second, assemble grammar other constants script = .ok second := by
    rintro one other hmod ⟨first, hfirst⟩
    have hzero : (other - one).toNat % 4 = 0 := by
      have hone := one.toNat_lt
      have hother := other.toNat_lt
      rw [UInt32.toNat_sub]
      omega
    obtain ⟨second, hsecond, _⟩ := Assembly.assemble_move hfirst (.inl hzero)
    rw [UInt32.add_comm, UInt32.sub_add_cancel] at hsecond
    exact ⟨second, hsecond⟩
  refine ⟨fun hmod => ⟨hmove hmod, hmove hmod.symm⟩, fun first second hfirst hsecond => ?_, ?_⟩
  · exact Assembly.moved_of_assemble (hgrammar.wellFormed fun _ _ => trivial) hfirst hsecond
  · intro relocator after table changed id capacity result hplace
    exact Relocator.takes_of_place hplace

/-- In a script with jumps to a mark and to a fixed address, only the mark moves along. Its sixteen
bytes are too many for a place of twelve, so they take sixteen bytes of free space; in a place of
sixteen they take none. -/
theorem assemble_relocatable_jumps :
    ∃ (grammar : Grammar) (script : String) (first second : Assembly) (relocator : Relocator)
        (table : PointerTable),
      Grammar.empty.define "jump" (some [.label]) "0c 08 ff ff $(U:0)" = .ok grammar ∧
      script = ".far 0x1000\njump .end\njump .far\n.end:" ∧
      assemble grammar 0x8000000 .empty script = .ok first ∧
      first.bytes = [0x0c, 8, 0xff, 0xff, 0x10, 0, 0, 8, 0x0c, 8, 0xff, 0xff, 0, 0x10, 0, 0] ∧
      assemble grammar 0x8001000 .empty script = .ok second ∧
      second.bytes = [0x0c, 8, 0xff, 0xff, 0x10, 0x10, 0, 8, 0x0c, 8, 0xff, 0xff, 0, 0x10, 0, 0] ∧
      Assembly.Moved grammar script 0x1000 first second ∧
      relocator = .start grammar ⟨0x8000000, 0x8000ffe, 0x100⟩ ∧
      table = ⟨"t", 0, 0, [0x8000000], false⟩ ∧
      (relocator.place table 0 12 script .empty).2.2 = .ok second ∧
      (relocator.place table 0 12 script .empty).1.space.allocations =
        [⟨"t[0x0]", 0x8001000, 16⟩] ∧
      relocator.Takes table 0 12 script .empty (.ok second)
        (relocator.place table 0 12 script .empty).1.space ∧
      (relocator.place table 0 16 script .empty).2.2 = .ok first ∧
      (relocator.place table 0 16 script .empty).1.space.allocations = [] := by
  have hdefine : Grammar.empty.define "jump" (some [.label]) "0c 08 ff ff $(U:0)" =
      .ok ⟨⟨[("jump", ⟨"jump", some [.label],
        ⟨[.literal 0x0c, .literal 8, .literal 0xff, .literal 0xff, .slot 0 .word]⟩⟩)]⟩⟩ := by
    decide +kernel
  have hfirst : assemble
      ⟨⟨[("jump", ⟨"jump", some [.label],
        ⟨[.literal 0x0c, .literal 8, .literal 0xff, .literal 0xff, .slot 0 .word]⟩⟩)]⟩⟩
      0x8000000 .empty ".far 0x1000\njump .end\njump .far\n.end:" =
      .ok ⟨0x8000000,
        [⟨0x8000000, 2, "jump", [0x0c, 8, 0xff, 0xff, 0x10, 0, 0, 8]⟩,
          ⟨0x8000008, 3, "jump", [0x0c, 8, 0xff, 0xff, 0, 0x10, 0, 0]⟩],
        ⟨[("end", 0x8000010), ("far", 0x1000)]⟩⟩ := by
    decide +kernel
  have hsecond : assemble
      ⟨⟨[("jump", ⟨"jump", some [.label],
        ⟨[.literal 0x0c, .literal 8, .literal 0xff, .literal 0xff, .slot 0 .word]⟩⟩)]⟩⟩
      0x8001000 .empty ".far 0x1000\njump .end\njump .far\n.end:" =
      .ok ⟨0x8001000,
        [⟨0x8001000, 2, "jump", [0x0c, 8, 0xff, 0xff, 0x10, 0x10, 0, 8]⟩,
          ⟨0x8001008, 3, "jump", [0x0c, 8, 0xff, 0xff, 0, 0x10, 0, 0]⟩],
        ⟨[("end", 0x8001010), ("far", 0x1000)]⟩⟩ := by
    decide +kernel
  obtain ⟨_, hmoved, htakes⟩ := assemble_relocatable (.define .empty trivial hdefine) .empty
    ".far 0x1000\njump .end\njump .far\n.end:" 0x8000000 0x8001000
  have hplace : ((Relocator.start ⟨⟨[("jump", ⟨"jump", some [.label],
        ⟨[.literal 0x0c, .literal 8, .literal 0xff, .literal 0xff, .slot 0 .word]⟩⟩)]⟩⟩
      ⟨0x8000000, 0x8000ffe, 0x100⟩).place ⟨"t", 0, 0, [0x8000000], false⟩ 0 12
      ".far 0x1000\njump .end\njump .far\n.end:" .empty).2.2 =
      .ok ⟨0x8001000,
        [⟨0x8001000, 2, "jump", [0x0c, 8, 0xff, 0xff, 0x10, 0x10, 0, 8]⟩,
          ⟨0x8001008, 3, "jump", [0x0c, 8, 0xff, 0xff, 0, 0x10, 0, 0]⟩],
        ⟨[("end", 0x8001010), ("far", 0x1000)]⟩⟩ := by
    decide +kernel
  exact ⟨_, _, _, _, _, _, hdefine, rfl, hfirst, rfl, hsecond, rfl, hmoved _ _ hfirst hsecond, rfl,
    rfl, hplace, by decide +kernel, hplace ▸ htakes _ _ _ _ _ _ _ rfl, by decide +kernel,
    by decide +kernel⟩

end EventScript
