import EventScript.Proofs.Assembly.TwoPass

/-!
# Assembling at another address

A script is assembled at two addresses in the same steps: tokens have the same values, records are
written with the same bytes and the same open places (`State.lines_move`), and only what is filled
in there can differ (`closes_of_closeAll`). Alignment is all that can keep a script from being
assembled elsewhere, so that it can be assembled a multiple of four away (`assemble_move`). Its size
does not depend on the address (`size_eq_of_assemble`).
-/

namespace EventScript

/-- What a name stands for if a script is moved: a label moves along or stays. -/
inductive Symbol.Moves (distance : UInt32) : Symbol → Symbol → Prop where
  | constant {value} : Moves distance (.constant value) (.constant value)
  | stays {address} : Moves distance (.label address) (.label address)
  | goes {address} : Moves distance (.label address) (.label (address + distance))

namespace SymbolTable

/-- The tables have the same names, of which labels move along or stay. -/
def Moves (distance : UInt32) (first second : SymbolTable) : Prop :=
  first.symbols.Matches (Symbol.Moves distance) second.symbols

variable {distance : UInt32} {first second after : SymbolTable} {name : String}

/-- A table of constants does not move. -/
theorem moves_ofConstants (distance : UInt32) (constants : Constants) :
    Moves distance (ofConstants constants) (ofConstants constants) := by
  refine List.forall₂_same.mpr fun entry hentry => ⟨rfl, ?_⟩
  obtain ⟨given, _, rfl⟩ := List.mem_map.mp hentry
  exact .constant

/-- Numbers and constants keep their values. -/
theorem Moves.value?_eq (h : Moves distance first second) : second.value? = first.value? := by
  funext token
  cases token with
  | symbol name =>
      have hname := h.get? name
      simp only [value?, constant?]
      generalize first.symbols.get? name = one at hname ⊢
      generalize second.symbols.get? name = other at hname ⊢
      cases hname with
      | none => rfl
      | some hsymbol => cases hsymbol <;> rfl
  | _ => rfl

/-- A name that is free in one table is free in the other. -/
theorem Moves.define {symbol other : Symbol} (h : Moves distance first second)
    (hsymbol : Symbol.Moves distance symbol other)
    (hdefine : first.define? name symbol = some after) :
    ∃ given, second.define? name other = some given ∧ Moves distance after given := by
  obtain ⟨hfree, rfl⟩ := define?_eq_some_iff.mp hdefine
  have hname := h.get? name
  rw [hfree] at hname
  refine ⟨_, define?_eq_some_iff.mpr ⟨?_, rfl⟩, h.insert name hsymbol⟩
  generalize second.symbols.get? name = found at hname ⊢
  cases hname
  rfl

/-- A label of one table is a label of the other. -/
theorem Moves.label? {address : UInt32} (h : Moves distance first second)
    (hlabel : first.label? name = some address) : ∃ other, second.label? name = some other := by
  have hname := h.get? name
  rw [label?_eq_some_iff] at hlabel
  simp only [label?_eq_some_iff]
  rw [hlabel] at hname
  generalize second.symbols.get? name = found at hname ⊢
  cases hname with
  | some hsymbol =>
      cases hsymbol
      · exact ⟨_, rfl⟩
      · exact ⟨_, rfl⟩

/-- The labels have the same names. -/
theorem Moves.labels_keys (h : Moves distance first second) :
    second.labels.keys = first.labels.keys := by
  obtain ⟨⟨entries⟩⟩ := first
  obtain ⟨⟨others⟩⟩ := second
  simp only [Moves, Dictionary.Matches, labels, Dictionary.keys] at *
  induction h with
  | nil => rfl
  | @cons one other _ _ hentry _ ih =>
      obtain ⟨name, symbol⟩ := one
      obtain ⟨_, moved⟩ := other
      obtain ⟨rfl, hsymbol⟩ := hentry
      cases hsymbol <;> simp [ih]

end SymbolTable

namespace Field

variable {arguments : List Argument} {base distance : UInt32} {offset : Nat} {fields : List Field}
  {bytes : Bytes} {fixups : List Fixup}

/-- Fields that are written at an address are written in the same way at another one, if this is a
multiple of four away or they can be written there at all. -/
theorem Opens.move (h : Opens arguments base offset fields bytes fixups)
    (hreach : distance.toNat % 4 = 0 ∨
      ∃ written places, Opens arguments (base + distance) offset fields written places) :
    Opens arguments (base + distance) offset fields bytes fixups := by
  have hswap :
      ∀ count, base + distance + UInt32.ofNat count = base + UInt32.ofNat count + distance := by
    intro count
    rw [UInt32.add_assoc, UInt32.add_comm distance, UInt32.add_assoc]
  induction h with
  | nil => exact .nil
  | literal _ ih =>
      refine .literal (ih (hreach.imp_right ?_))
      rintro ⟨_, _, hother⟩
      cases hother with
      | literal hrest => exact ⟨_, _, hrest⟩
  | value hargument hfits haligned _ ih =>
      rcases hreach with hzero | ⟨_, _, hother⟩
      · refine .value hargument hfits ?_ (ih (.inl hzero))
        rw [hswap, Width.aligned_add _ hzero]
        exact haligned
      · cases hother with
        | value _ _ hthere hrest => exact .value hargument hfits hthere (ih (.inr ⟨_, _, hrest⟩))
        | label hlabel _ _ =>
            rw [hargument] at hlabel
            cases hlabel
  | label hargument haligned _ ih =>
      rcases hreach with hzero | ⟨_, _, hother⟩
      · refine .label hargument ?_ (ih (.inl hzero))
        rw [hswap, Width.aligned_add _ hzero]
        exact haligned
      · cases hother with
        | value hvalue _ _ _ =>
            rw [hargument] at hvalue
            cases hvalue
        | label _ hthere hrest => exact .label hargument hthere (ih (.inr ⟨_, _, hrest⟩))

end Field

/-- The byte with the index is one of the four that are to be filled in. -/
def Fixup.Covers (fixup : Fixup) (index : Nat) : Prop :=
  fixup.offset ≤ index ∧ index < fixup.offset + 4

namespace Writer

variable {writer after : Writer}

/-- The second writer has the bytes of the first one except where labels are filled in. -/
structure Fills (fixups : List Fixup) (writer after : Writer) : Prop where
  base_eq : after.base = writer.base
  size_eq : after.size = writer.size
  kept : ∀ index, (∀ fixup ∈ fixups, ¬ fixup.Covers index) →
    after.bytes[index]? = writer.bytes[index]?

/-- Replacing four bytes leaves the others. -/
theorem fills_of_patch {fixup : Fixup} {value : UInt32}
    (h : writer.patch fixup.offset value = (after, .ok ())) : Fills [fixup] writer after := by
  obtain ⟨hbase, hsize⟩ := base_size_of_patch h
  obtain ⟨_, hroom, rfl⟩ := patch_eq_ok_iff.mp h
  have hfront : (writer.bytes.take fixup.offset).length = fixup.offset := by
    rw [size] at hroom
    rw [List.length_take]
    omega
  refine ⟨hbase, hsize, fun index hindex => ?_⟩
  have houtside := hindex fixup List.mem_cons_self
  unfold Fixup.Covers at houtside
  by_cases hbefore : index < fixup.offset
  · rw [List.append_assoc, List.getElem?_append_left (by omega),
      List.getElem?_take_of_lt hbefore]
  · have hlength : (writer.bytes.take fixup.offset ++ LittleEndian.encode 4 value.toNat).length =
        fixup.offset + 4 := by
      rw [List.length_append, hfront, LittleEndian.length_encode]
    rw [List.getElem?_append_right (by omega), List.getElem?_drop, hlength]
    congr 1
    omega

/-- Filling in labels one after the other leaves all other bytes. -/
theorem Fills.cons {fixup : Fixup} {fixups : List Fixup} {final : Writer}
    (h : Fills [fixup] writer after) (hrest : Fills fixups after final) :
    Fills (fixup :: fixups) writer final := by
  refine ⟨hrest.base_eq.trans h.base_eq, hrest.size_eq.trans h.size_eq, fun index hindex => ?_⟩
  rw [hrest.kept index fun other hother => hindex other (List.mem_cons_of_mem _ hother)]
  refine h.kept index fun other hother => ?_
  rw [List.mem_singleton.mp hother]
  exact hindex fixup List.mem_cons_self

end Writer

namespace Statement

variable {symbols : SymbolTable} {kinds : List OperandKind} {tokens : List Token}

/-- Tokens stand for the same arguments wherever they have the same values. -/
theorem TakesAll.congr {other : SymbolTable} {taken : List Argument}
    (h : TakesAll symbols kinds tokens taken) (hvalue : other.value? = symbols.value?) :
    TakesAll other kinds tokens taken := by
  induction h with
  | nil => exact .nil
  | cons htakes _ ih =>
      refine .cons ?_ ih
      cases htakes with
      | value htoken => exact .value (hvalue ▸ htoken)
      | keyword hword => exact .keyword hword
      | label => exact .label

/-- Tokens stand for one list of arguments only. -/
theorem TakesAll.unique {taken others : List Argument} (h : TakesAll symbols kinds tokens taken)
    (hothers : TakesAll symbols kinds tokens others) : taken = others := by
  have hfirst : arguments ⟨0, ""⟩ symbols kinds tokens = .ok taken := arguments_eq_ok_iff.mpr h
  have hsecond : arguments ⟨0, ""⟩ symbols kinds tokens = .ok others :=
    arguments_eq_ok_iff.mpr hothers
  exact Except.ok.inj (hfirst.symm.trans hsecond)

end Statement

namespace Assembly

open EventScript.Field Statement

variable {grammar : Grammar} {distance : UInt32} {first second after : State} {place : Place}

/-- The record at another address, with the same places of labels left open. -/
def OpenRecord.move (distance : UInt32) (record : OpenRecord) : OpenRecord :=
  { record with writer := { record.writer with base := record.writer.base + distance } }

/-- The second state is the first one of a script that stands elsewhere. -/
structure State.Moves (distance : UInt32) (first second : State) : Prop where
  symbols : first.symbols.Moves distance second.symbols
  address : second.address = first.address + distance

/-- A record is written in the same way at another address, if this is a multiple of four away or it
can be written there at all. -/
theorem State.record_move {mnemonic : String} {operands : List Token} {opened : OpenRecord}
    (hstate : State.Moves distance first second)
    (h : first.record grammar place mnemonic operands = .ok opened)
    (hreach : distance.toNat % 4 = 0 ∨
      ∃ other, second.record grammar place mnemonic operands = .ok other) :
    second.record grammar place mnemonic operands = .ok (opened.move distance) := by
  have hvalue := hstate.symbols.value?_eq
  rw [State.record_eq_ok_iff] at h ⊢
  obtain ⟨bytes, hraw, hbytes, rfl⟩ |
    ⟨instruction, arguments, bytes, fixups, hraw, hfound, htakes, hopens, rfl⟩ := h
  · refine .inl ⟨bytes, hraw, ?_, by rw [OpenRecord.move, hstate.address]⟩
    rw [rawRecord_eq_ok_iff, bytesOf_eq_ok_iff] at hbytes ⊢
    rwa [hvalue]
  · have htakesOther := htakes.congr hvalue
    refine .inr ⟨instruction, arguments, bytes, fixups, hraw, hfound, htakesOther, ?_, ?_⟩
    · rw [hstate.address]
      refine hopens.move (hreach.imp_right ?_)
      rintro ⟨other, hother⟩
      obtain ⟨_, hotherRaw, _⟩ |
        ⟨_, _, written, places, _, hotherFound, hotherTakes, hotherOpens, _⟩ :=
        State.record_eq_ok_iff.mp hother
      · exact absurd hotherRaw hraw
      · obtain rfl := Option.some.inj (hfound.symm.trans hotherFound)
        obtain rfl := htakesOther.unique hotherTakes
        exact ⟨written, places, hstate.address ▸ hotherOpens⟩
    · rw [OpenRecord.move, hstate.address]

/-- A name is given in the same way in a script that stands elsewhere. -/
theorem State.define_move {name : String} {symbol other : Symbol} {record : Option OpenRecord}
    (hstate : State.Moves distance first second) (hsymbol : Symbol.Moves distance symbol other)
    (h : (first.define place name symbol).map (·, none) = .ok (after, record)) :
    ∃ final, (second.define place name other).map (·, none) =
        .ok (final, record.map (OpenRecord.move distance)) ∧ State.Moves distance after final := by
  unfold State.define at *
  cases hdefine : first.symbols.define? name symbol with
  | none =>
      rw [hdefine] at h
      cases h
  | some given =>
      rw [hdefine] at h
      cases h
      obtain ⟨moved, hmoved, hmoves⟩ := hstate.symbols.define hsymbol hdefine
      exact ⟨⟨moved, second.address⟩, by rw [hmoved]; rfl, hmoves, hstate.address⟩

/-- A token has the same value in a script that stands elsewhere. -/
theorem State.Moves.valueOf {expected : String} {token : Token} {value : UInt32}
    (h : State.Moves distance first second)
    (hvalue : Statement.valueOf place first.symbols expected token = .ok value) :
    Statement.valueOf place second.symbols expected token = .ok value := by
  rw [valueOf_eq_ok_iff] at hvalue ⊢
  rwa [h.symbols.value?_eq]

/-- A statement does the same at another address, if this is a multiple of four away or it can be
carried out there at all. -/
theorem State.statement_move {statement : Statement} {record : Option OpenRecord}
    (hstate : State.Moves distance first second)
    (h : first.statement grammar place statement = .ok (after, record))
    (hreach : distance.toNat % 4 = 0 ∨
      ∃ result, second.statement grammar place statement = .ok result) :
    ∃ final, second.statement grammar place statement =
        .ok (final, record.map (OpenRecord.move distance)) ∧ State.Moves distance after final := by
  cases statement with
  | blank =>
      cases h
      exact ⟨second, rfl, hstate⟩
  | mark name =>
      refine State.define_move hstate ?_ h
      rw [hstate.address]
      exact .goes
  | label name token =>
      simp only [State.statement] at h ⊢
      split at h
      · cases h
      · rename_i value hvalue
        rw [hstate.valueOf hvalue]
        exact State.define_move hstate .stays h
  | constant name token =>
      simp only [State.statement] at h ⊢
      split at h
      · cases h
      · rename_i value hvalue
        rw [hstate.valueOf hvalue]
        exact State.define_move hstate .constant h
  | instruction mnemonic operands =>
      simp only [State.statement] at h hreach ⊢
      split at h
      · cases h
      · rename_i opened hopened
        cases h
        have hmoved := State.record_move hstate hopened (hreach.imp_right ?_)
        · rw [hmoved]
          refine ⟨_, rfl, hstate.symbols, ?_⟩
          simp only [OpenRecord.move, Writer.address, Writer.size]
          rw [UInt32.add_assoc, UInt32.add_comm distance, UInt32.add_assoc]
        · rintro ⟨result, hresult⟩
          split at hresult
          · cases hresult
          · rename_i other hother
            exact ⟨other, hother⟩

/-- Lines do the same at another address, if this is a multiple of four away or they can be gone
through there at all. -/
theorem State.lines_move {final : State} {number : Nat} {texts : List (List Char)}
    {opened : List OpenRecord} (hstate : State.Moves distance first second)
    (h : first.lines grammar number texts = .ok (final, opened))
    (hreach : distance.toNat % 4 = 0 ∨ ∃ result, second.lines grammar number texts = .ok result) :
    ∃ last, second.lines grammar number texts = .ok (last, opened.map (OpenRecord.move distance)) ∧
      State.Moves distance final last := by
  induction texts generalizing first second number opened with
  | nil =>
      cases h
      exact ⟨second, rfl, hstate⟩
  | cons text rest ih =>
      obtain ⟨statement, after, record, records, hreads, hstatement, hrest, rfl⟩ :=
        State.lines_cons_eq_ok_iff.mp h
      -- Where the lines can be gone through, this line can be and so can the others behind it.
      have hthere : ∀ {result}, second.lines grammar number (text :: rest) = .ok result →
          ∃ next other,
            second.statement grammar ⟨number, String.ofList (Text.trim text)⟩ statement =
            .ok (next, other) ∧ ∃ others, next.lines grammar (number + 1) rest = .ok others := by
        rintro ⟨last, others⟩ hlast
        obtain ⟨other, next, opened, _, hotherReads, hotherStatement, hotherRest, _⟩ :=
          State.lines_cons_eq_ok_iff.mp hlast
        obtain rfl := hreads.unique hotherReads
        exact ⟨next, opened, hotherStatement, _, hotherRest⟩
      have hreachStatement : distance.toNat % 4 = 0 ∨ ∃ result,
          second.statement grammar ⟨number, String.ofList (Text.trim text)⟩ statement =
            .ok result := by
        refine hreach.imp_right fun ⟨_, hresult⟩ => ?_
        obtain ⟨next, other, hother, _⟩ := hthere hresult
        exact ⟨_, hother⟩
      obtain ⟨next, hnext, hmoves⟩ := State.statement_move hstate hstatement hreachStatement
      have hreachRest : distance.toNat % 4 = 0 ∨ ∃ result,
          next.lines grammar (number + 1) rest = .ok result := by
        refine hreach.imp_right fun ⟨_, hresult⟩ => ?_
        obtain ⟨other, _, hother, hotherRest⟩ := hthere hresult
        rw [hnext] at hother
        cases hother
        exact hotherRest
      obtain ⟨last, hlast, hfinal⟩ := ih hmoves hrest hreachRest
      refine ⟨last, State.lines_cons_eq_ok_iff.mpr
        ⟨statement, next, _, _, hreads, hnext, hlast, ?_⟩, hfinal⟩
      cases record <;> simp

variable {symbols moved : SymbolTable}

/-- Filling in labels changes their places only. -/
theorem fills_of_fill {writer closed : Writer} {fixups : List Fixup}
    (h : fill symbols place writer fixups = .ok closed) : writer.Fills fixups closed := by
  induction fixups generalizing writer with
  | nil =>
      cases h
      exact ⟨rfl, rfl, fun _ _ => rfl⟩
  | cons fixup rest ih =>
      obtain ⟨address, after, _, hpatch, hrest⟩ := fill_cons_eq_ok_iff.mp h
      exact (Writer.fills_of_patch hpatch).cons (ih hrest)

/-- Labels that can be filled in can be filled in a multiple of four away, if they are labels there
too. -/
theorem exists_fill_move {writer other closed : Writer} {fixups : List Fixup}
    (hzero : distance.toNat % 4 = 0)
    (hlabels : ∀ name address, symbols.label? name = some address →
      ∃ target, moved.label? name = some target)
    (hbase : other.base = writer.base + distance) (hsize : other.size = writer.size)
    (h : fill symbols place writer fixups = .ok closed) :
    ∃ final, fill moved place other fixups = .ok final := by
  induction fixups generalizing writer other with
  | nil => exact ⟨other, rfl⟩
  | cons fixup rest ih =>
      obtain ⟨address, after, haddress, hpatch, hrest⟩ := fill_cons_eq_ok_iff.mp h
      obtain ⟨target, htarget⟩ := hlabels _ _ haddress
      obtain ⟨haligned, hroom, _⟩ := Writer.patch_eq_ok_iff.mp hpatch
      have hthere : Width.word.aligned (other.base + UInt32.ofNat fixup.offset) = true := by
        rw [hbase, UInt32.add_assoc, UInt32.add_comm distance, ← UInt32.add_assoc,
          Width.aligned_add _ hzero]
        exact haligned
      have hpatchOther : other.patch fixup.offset target = (_, .ok ()) :=
        Writer.patch_eq_ok_iff.mpr ⟨hthere, hsize ▸ hroom, rfl⟩
      have hfills := Writer.fills_of_patch hpatch
      have hfillsOther := Writer.fills_of_patch hpatchOther
      obtain ⟨final, hfinal⟩ := ih (hfillsOther.base_eq.trans (hfills.base_eq ▸ hbase))
        (hfillsOther.size_eq.trans (hsize.trans hfills.size_eq.symm)) hrest
      exact ⟨final, fill_cons_eq_ok_iff.mpr ⟨target, _, htarget, hpatchOther, hfinal⟩⟩

/-- The record is the open one with its labels filled in. -/
structure Closes (opened : OpenRecord) (closed : Record) : Prop where
  address_eq : closed.address = opened.writer.base
  line_eq : closed.line = opened.place.number
  mnemonic_eq : closed.mnemonic = opened.mnemonic
  length_eq : closed.bytes.length = opened.writer.size
  kept : ∀ index, (∀ fixup ∈ opened.fixups, ¬ fixup.Covers index) →
    closed.bytes[index]? = opened.writer.bytes[index]?

/-- Closing records fills in their labels. -/
theorem closes_of_closeAll {opened : List OpenRecord} {closed : List Record}
    (h : closeAll symbols opened = .ok closed) : List.Forall₂ Closes opened closed := by
  induction opened generalizing closed with
  | nil =>
      cases h
      exact .nil
  | cons record rest ih =>
      obtain ⟨first, records, hfirst, hrecords, rfl⟩ := closeAll_cons_eq_ok_iff.mp h
      obtain ⟨writer, hfill, rfl⟩ := OpenRecord.close_eq_ok_iff.mp hfirst
      have hfills := fills_of_fill hfill
      exact .cons ⟨hfills.base_eq, rfl, rfl, hfills.size_eq, hfills.kept⟩ (ih hrecords)

/-- Records that can be closed can be closed a multiple of four away, if their labels are labels
there too. -/
theorem exists_closeAll_move {opened : List OpenRecord} {closed : List Record}
    (hzero : distance.toNat % 4 = 0)
    (hlabels : ∀ name address, symbols.label? name = some address →
      ∃ target, moved.label? name = some target)
    (h : closeAll symbols opened = .ok closed) :
    ∃ others, closeAll moved (opened.map (OpenRecord.move distance)) = .ok others := by
  induction opened generalizing closed with
  | nil => exact ⟨[], rfl⟩
  | cons record rest ih =>
      obtain ⟨first, records, hfirst, hrecords, rfl⟩ := closeAll_cons_eq_ok_iff.mp h
      obtain ⟨writer, hfill, rfl⟩ := OpenRecord.close_eq_ok_iff.mp hfirst
      obtain ⟨others, hothers⟩ := ih hrecords
      obtain ⟨final, hfinal⟩ : ∃ final, fill moved record.place (record.move distance).writer
          record.fixups = .ok final :=
        exists_fill_move hzero hlabels rfl rfl hfill
      exact ⟨_, closeAll_cons_eq_ok_iff.mpr
        ⟨_, others, OpenRecord.close_eq_ok_iff.mpr ⟨final, hfinal, rfl⟩, hothers, rfl⟩⟩

variable {base : UInt32} {constants : Constants} {script : String}

/-- The second assembly has the records of the first one `distance` further on, up to the labels in
them. -/
def Shifted (grammar : Grammar) (constants : Constants) (script : String) (distance : UInt32)
    (first second : Assembly) : Prop :=
  ∃ final opened,
    (State.start first.base constants).lines grammar 1 (Text.linesOf script) = .ok (final, opened) ∧
    List.Forall₂ Closes opened first.records ∧
    List.Forall₂ Closes (opened.map (OpenRecord.move distance)) second.records ∧
    second.labels.keys = first.labels.keys

/-- A script that is assembled at an address is assembled at another one to records that are as
long, if this is a multiple of four away or the script can be assembled there at all. -/
theorem assemble_move {first : Assembly} (h : assemble grammar base constants script = .ok first)
    (hreach : distance.toNat % 4 = 0 ∨
      ∃ result, assemble grammar (base + distance) constants script = .ok result) :
    ∃ second, assemble grammar (base + distance) constants script = .ok second ∧
      Shifted grammar constants script distance first second := by
  obtain ⟨final, opened, records, hlines, hclose, rfl⟩ := assemble_eq_ok_iff_passes.mp h
  have hstart : State.Moves distance (.start base constants) (.start (base + distance) constants) :=
    ⟨SymbolTable.moves_ofConstants distance constants, rfl⟩
  have hreachLines : distance.toNat % 4 = 0 ∨ ∃ result,
      (State.start (base + distance) constants).lines grammar 1 (Text.linesOf script) =
        .ok result := by
    refine hreach.imp_right fun ⟨_, hresult⟩ => ?_
    obtain ⟨_, _, _, hresult, _⟩ := assemble_eq_ok_iff_passes.mp hresult
    exact ⟨_, hresult⟩
  obtain ⟨last, hlast, hmoves⟩ := State.lines_move hstart hlines hreachLines
  have hothers : ∃ others, closeAll last.symbols (opened.map (OpenRecord.move distance)) =
      .ok others := by
    rcases hreach with hzero | ⟨_, hresult⟩
    · exact exists_closeAll_move hzero (fun _ _ hlabel => hmoves.symbols.label? hlabel) hclose
    · obtain ⟨_, _, others, hresult, hcloses, _⟩ := assemble_eq_ok_iff_passes.mp hresult
      rw [hlast] at hresult
      cases hresult
      exact ⟨others, hcloses⟩
  obtain ⟨others, hothers⟩ := hothers
  exact ⟨_, assemble_eq_ok_iff_passes.mpr ⟨last, _, others, hlast, hothers, rfl⟩, final,
    opened, hlines,
    closes_of_closeAll hclose, closes_of_closeAll hothers, hmoves.symbols.labels_keys⟩

/-- The second one of two assemblies of a script is the first one further on. -/
theorem shifted_of_assemble {first second : Assembly} {there : UInt32}
    (h : assemble grammar base constants script = .ok first)
    (hthere : assemble grammar there constants script = .ok second) :
    Shifted grammar constants script (there - base) first second := by
  have hdistance : base + (there - base) = there := by
    rw [UInt32.add_comm, UInt32.sub_add_cancel]
  obtain ⟨other, hother, hshifted⟩ := assemble_move h (.inr ⟨second, hdistance.symm ▸ hthere⟩)
  rw [hdistance, hthere] at hother
  cases hother
  exact hshifted

/-- Records are as long wherever they are closed. -/
theorem lengths_of_closes {opened : List OpenRecord} {first second : List Record}
    (h : List.Forall₂ Closes opened first)
    (hthere : List.Forall₂ Closes (opened.map (OpenRecord.move distance)) second) :
    (second.flatMap Record.bytes).length = (first.flatMap Record.bytes).length := by
  induction h generalizing second with
  | nil =>
      cases hthere
      rfl
  | cons hcloses _ ih =>
      cases hthere with
      | cons hother hrest =>
          rw [List.flatMap_cons, List.flatMap_cons, List.length_append,
            List.length_append, ih hrest, hcloses.length_eq, hother.length_eq]
          rfl

/-- A script has the same size wherever it is assembled. -/
theorem size_eq_of_assemble {first second : Assembly} {there : UInt32}
    (h : assemble grammar base constants script = .ok first)
    (hthere : assemble grammar there constants script = .ok second) : second.size = first.size := by
  obtain ⟨_, _, _, hfirst, hsecond, _⟩ := shifted_of_assemble h hthere
  exact lengths_of_closes hfirst hsecond

end Assembly

end EventScript
