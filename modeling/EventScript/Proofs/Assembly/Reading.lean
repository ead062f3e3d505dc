import Mathlib.Data.List.Forall2
import EventScript.Proofs.Assembly.Move
import EventScript.Proofs.Scan.RoundTrip

/-!
# Lines that are read alike

A character that continues no name ends the token in front of it, so what stands behind it has no
part in how that token is read (`lexeme_append`). A semicolon is such a character: the tokens in
front of it do not depend on the comment (`scanFrom_comment`), and lines that differ only behind one
are read as the same statement (`readAlike_comment`). Assembling sees no more of a line than its
statement: which line it stands on shows in faults and in the numbers of records only
(`State.passes_readAlike`), and an empty line at the end in nothing, so scripts whose other lines
are read alike have the same assemblies (`assemble_eq_ok_iff_of_lines`).
-/

namespace EventScript

namespace Token

open Text

variable {c : Char} {front rest : List Char}

/-- The name in front of a text that does not continue it. -/
theorem name?_append_of_head (hrest : ∀ c ∈ rest.head?, isNameChar c = false) :
    name? (front ++ rest) = (name? front).map fun found => (found.1, found.2 ++ rest) := by
  cases front with
  | nil =>
      cases rest with
      | nil => rfl
      | cons c rest => simp [name?, isNameStart, isAlphanum_eq_false (hrest c rfl)]
  | cons c front =>
      simp only [List.cons_append, name?, takeWhile_append_of_head hrest,
        dropWhile_append_of_head hrest]
      split <;> rfl

/-- The numeral in front of a text that does not continue it. -/
theorem numeral_append (hrest : ∀ c ∈ rest.head?, isNameChar c = false) (first : Char) :
    numeral first (front ++ rest) =
      { numeral first front with rest := (numeral first front).rest ++ rest } := by
  have hdigit : ∀ radix, ∀ c ∈ rest.head?, Numeral.isDigit radix c = false :=
    fun radix c hc => isDigit_eq_false (hrest c hc) radix
  cases front with
  | nil =>
      cases rest with
      | nil => rfl
      | cons c rest =>
          have hname := hrest c rfl
          have hmark : ¬ (c = 'x' ∨ c = 'X') := by
            rintro (rfl | rfl) <;> exact absurd hname (by decide)
          have hstop := isDigit_eq_false hname 10
          simp [numeral, hmark, hstop]
  | cons mark after =>
      simp only [List.cons_append, numeral]
      split
      · simp only [takeWhile_append_of_head (hdigit 16), dropWhile_append_of_head (hdigit 16)]
      · simp only [← List.cons_append, takeWhile_append_of_head (hdigit 10),
          dropWhile_append_of_head (hdigit 10)]

/-- A token in front of a text that does not continue it, or the lack of one, does not depend on
that text. -/
theorem lexeme_append (hc : c ≠ ';') (hrest : ∀ d ∈ rest.head?, isNameChar d = false)
    (line total other : Nat) :
    (∃ fault otherFault, lexeme line total c front = .error fault ∧
        lexeme line other c (front ++ rest) = .error otherFault) ∨
      ∃ token after, lexeme line total c front = .ok (token, after) ∧
        lexeme line other c (front ++ rest) = .ok (token, after ++ rest) := by
  unfold lexeme
  by_cases hsigil : c = '.' ∨ c = '%'
  · simp only [hsigil, if_true, name?_append_of_head hrest]
    cases name? front with
    | none => exact .inl ⟨_, _, rfl, rfl⟩
    | some found => exact .inr ⟨_, _, rfl, rfl⟩
  · simp only [hsigil, if_false]
    by_cases hcolon : c = ':'
    · simp only [hcolon, if_true]
      exact .inr ⟨_, _, rfl, rfl⟩
    · simp only [hcolon, hc, if_false]
      cases hstart : isNameStart c with
      | true =>
          simp only [if_true, takeWhile_append_of_head hrest, dropWhile_append_of_head hrest]
          exact .inr ⟨_, _, rfl, rfl⟩
      | false =>
          have hnumber : (numeral c (front ++ rest)).number? = (numeral c front).number? := by
            rw [numeral_append hrest]
            rfl
          have hafter : (numeral c (front ++ rest)).rest = (numeral c front).rest ++ rest := by
            rw [numeral_append hrest]
          simp only [Bool.false_eq_true, if_false, hnumber, hafter]
          split
          · cases (numeral c front).number? with
            | none => exact .inl ⟨_, _, rfl, rfl⟩
            | some value => exact .inr ⟨_, _, rfl, rfl⟩
          · exact .inr ⟨_, _, rfl, rfl⟩

/-- A token in front of a text that does not continue it. -/
theorem lexeme_append_ok {token : Token} {after : List Char} {line total : Nat} (hc : c ≠ ';')
    (hrest : ∀ d ∈ rest.head?, isNameChar d = false)
    (h : lexeme line total c front = .ok (token, after))
    (other : Nat) : lexeme line other c (front ++ rest) = .ok (token, after ++ rest) := by
  rcases lexeme_append hc hrest line total other with
    ⟨fault, _, hfault, _⟩ | ⟨found, rest, hfound, hother⟩
  · rw [h] at hfault
    cases hfault
  · rw [h] at hfound
    cases hfound
    exact hother

/-- A fault in front of a text that does not continue it. -/
theorem exists_lexeme_append_error {fault : LexError} {line total : Nat} (hc : c ≠ ';')
    (hrest : ∀ d ∈ rest.head?, isNameChar d = false) (h : lexeme line total c front = .error fault)
    (other : Nat) : ∃ fault, lexeme line other c (front ++ rest) = .error fault := by
  rcases lexeme_append hc hrest line total other with ⟨_, fault, _, hother⟩ | ⟨_, _, hfound, _⟩
  · exact ⟨fault, hother⟩
  · rw [h] at hfound
    cases hfound

/-- A comment is one token, whatever its text is. -/
theorem scanFrom_semicolon (line total : Nat) (remark : List Char) :
    scanFrom line total (';' :: remark) = .ok [.comment (String.ofList remark)] := by
  have hlexeme : lexeme line total ';' remark = .ok (.comment (String.ofList remark), []) := by
    simp [lexeme]
  rw [scanFrom_cons (by decide) hlexeme, scanFrom_nil]
  rfl

/-- The tokens in front of a semicolon, or the lack of them, do not depend on the text behind it. -/
theorem scanFrom_comment (line : Nat) (front : List Char) :
    (∀ total text, ∃ fault, scanFrom line total (front ++ ';' :: text) = .error fault) ∨
      ∃ tokens, ∀ total text, ∃ remark,
        scanFrom line total (front ++ ';' :: text) = .ok (tokens ++ [.comment remark]) := by
  induction hlength : front.length using Nat.strongRecOn generalizing front with
  | ind length ih =>
      cases front with
      | nil => exact .inr ⟨[], fun total text => ⟨_, scanFrom_semicolon line total text⟩⟩
      | cons c front =>
          subst hlength
          simp only [List.cons_append]
          cases hblank : isBlank c with
          | true =>
              simp only [scanFrom_blank hblank]
              exact ih front.length (Nat.lt_succ_self _) front rfl
          | false =>
              by_cases hcomment : c = ';'
              · subst hcomment
                exact .inr ⟨[], fun total text => ⟨_, scanFrom_semicolon line total _⟩⟩
              · have hstop : ∀ text, ∀ d ∈ (';' :: text).head?, isNameChar d = false := by
                  intro text d hd
                  cases hd
                  decide
                cases hlexeme : lexeme line 0 c front with
                | error fault =>
                    refine .inl fun total text => ?_
                    obtain ⟨fault, hfault⟩ :=
                      exists_lexeme_append_error hcomment (hstop text) hlexeme total
                    exact ⟨fault, scanFrom_error hblank hfault⟩
                | ok result =>
                    obtain ⟨token, after⟩ := result
                    have hscan := fun total text =>
                      scanFrom_cons hblank (lexeme_append_ok hcomment (hstop text) hlexeme total)
                    have hle := lexeme_rest_length hlexeme
                    rcases ih after.length (Nat.lt_succ_of_le hle) after rfl with
                      herror | ⟨tokens, htokens⟩
                    · refine .inl fun total text => ?_
                      obtain ⟨fault, hfault⟩ := herror total text
                      exact ⟨fault, by rw [hscan, hfault]; rfl⟩
                    · refine .inr ⟨token :: tokens, fun total text => ?_⟩
                      obtain ⟨remark, hremark⟩ := htokens total text
                      exact ⟨remark, by rw [hscan, hremark]; rfl⟩

end Token

namespace Assembly

open Text Statement

/-- The comment at the end of a line is left out. -/
theorem withoutComment_concat (tokens : List Token) (remark : String) :
    Token.withoutComment (tokens ++ [.comment remark]) = tokens := by
  simp [Token.withoutComment]

/-- The statement that tokens form depends neither on their place nor on the comment behind them. -/
theorem ofTokens_eq_ok {place : Place} {tokens others : List Token} {statement : Statement}
    (h : Statement.ofTokens place tokens = .ok statement)
    (hothers : Token.withoutComment others = Token.withoutComment tokens) (other : Place) :
    Statement.ofTokens other others = .ok statement := by
  unfold Statement.ofTokens at h ⊢
  rw [hothers]
  generalize Token.withoutComment tokens = shape at h ⊢
  cases shape with
  | nil => exact h
  | cons token rest =>
      cases token with
      | label name =>
          rcases rest with _ | ⟨value, _ | ⟨extra, more⟩⟩
          · cases h
          · cases value <;> exact h
          · cases value <;> cases h
      | symbol name =>
          rcases rest with _ | ⟨value, _ | ⟨extra, more⟩⟩
          · cases h
          · exact h
          · cases h
      | keyword mnemonic => exact h
      | _ => cases h

/-- The number of a line has no part in how it is read. -/
theorem Reads.renumber {number : Nat} {text : List Char} {statement : Statement}
    (h : Reads number text statement) (otherNumber : Nat) : Reads otherNumber text statement := by
  obtain ⟨tokens, htokens, hstatement⟩ := h
  exact ⟨tokens, Token.scan_eq_ok_iff.mpr (Token.scan_eq_ok_iff.mp htokens),
    ofTokens_eq_ok hstatement rfl _⟩

/-- The lines are read as the same statement, if any. -/
def ReadAlike (text other : List Char) : Prop :=
  ∀ number statement, Reads number text statement ↔ Reads number other statement

theorem ReadAlike.symm {text other : List Char} (h : ReadAlike text other) : ReadAlike other text :=
  fun number statement => (h number statement).symm

/-- The text of a comment has no part in how its line is read. -/
theorem Reads.comment {number : Nat} {front text : List Char} {statement : Statement}
    (h : Reads number (front ++ ';' :: text) statement) (other : List Char) :
    Reads number (front ++ ';' :: other) statement := by
  obtain ⟨tokens, htokens, hstatement⟩ := h
  rcases Token.scanFrom_comment number front with herror | ⟨shape, hshape⟩
  · obtain ⟨fault, hfault⟩ := herror _ text
    rw [Token.scan, hfault] at htokens
    cases htokens
  · obtain ⟨remark, hremark⟩ := hshape _ text
    obtain ⟨otherRemark, hother⟩ := hshape (front ++ ';' :: other).length other
    rw [Token.scan, hremark] at htokens
    cases htokens
    refine ⟨_, hother, ofTokens_eq_ok hstatement ?_ _⟩
    rw [withoutComment_concat, withoutComment_concat]

/-- Lines that differ only behind a semicolon are read alike. -/
theorem readAlike_comment (front text other : List Char) :
    ReadAlike (front ++ ';' :: text) (front ++ ';' :: other) :=
  fun _ _ => ⟨fun h => h.comment other, fun h => h.comment text⟩

variable {grammar : Grammar} {state after final : State} {place : Place} {symbols : SymbolTable}

/-- The record as one that another line writes. -/
def OpenRecord.moveTo (place : Place) (record : OpenRecord) : OpenRecord :=
  { record with place := place }

/-- Which line writes a record has no part in what is written. -/
theorem State.record_moveTo {mnemonic : String} {operands : List Token} {opened : OpenRecord}
    (h : state.record grammar place mnemonic operands = .ok opened) (other : Place) :
    state.record grammar other mnemonic operands = .ok (opened.moveTo other) := by
  rw [State.record_eq_ok_iff] at h ⊢
  obtain ⟨bytes, hraw, hbytes, rfl⟩ |
    ⟨instruction, arguments, bytes, fixups, hraw, hfound, htakes, hopens, rfl⟩ := h
  · refine .inl ⟨bytes, hraw, ?_, rfl⟩
    rw [rawRecord_eq_ok_iff, bytesOf_eq_ok_iff] at hbytes ⊢
    exact hbytes
  · exact .inr ⟨instruction, arguments, bytes, fixups, hraw, hfound, htakes, hopens, rfl⟩

/-- Which line gives a name has no part in what it means. -/
theorem State.define_moveTo {name : String} {symbol : Symbol} {record : Option OpenRecord}
    (h : (state.define place name symbol).map (·, none) = .ok (after, record)) (other : Place) :
    (state.define other name symbol).map (·, none) =
      .ok (after, record.map (OpenRecord.moveTo other)) := by
  unfold State.define at *
  cases hdefine : state.symbols.define? name symbol with
  | none =>
      rw [hdefine] at h
      cases h
  | some given =>
      rw [hdefine] at h
      cases h
      rfl

/-- Which line a statement stands on has no part in what it does. -/
theorem State.statement_moveTo {statement : Statement} {record : Option OpenRecord}
    (h : state.statement grammar place statement = .ok (after, record)) (other : Place) :
    state.statement grammar other statement =
      .ok (after, record.map (OpenRecord.moveTo other)) := by
  cases statement with
  | blank =>
      cases h
      rfl
  | mark name => exact State.define_moveTo h other
  | label name token =>
      simp only [State.statement] at h ⊢
      split at h
      · cases h
      · rename_i value hvalue
        rw [valueOf_eq_ok_iff.mpr (valueOf_eq_ok_iff.mp hvalue)]
        exact State.define_moveTo h other
  | constant name token =>
      simp only [State.statement] at h ⊢
      split at h
      · cases h
      · rename_i value hvalue
        rw [valueOf_eq_ok_iff.mpr (valueOf_eq_ok_iff.mp hvalue)]
        exact State.define_moveTo h other
  | instruction mnemonic operands =>
      simp only [State.statement] at h ⊢
      split at h
      · cases h
      · rename_i opened hopened
        cases h
        rw [State.record_moveTo hopened other]
        rfl

/-- The second record is the first one on another line, which is as far from the line `otherNumber`
as the line of the first record is from the line `number`. -/
def OpenRecord.Moved (number otherNumber : Nat) (opened other : OpenRecord) : Prop :=
  ∃ place : Place, place.number + number = opened.place.number + otherNumber ∧
    other = opened.moveTo place

/-- A statement on another line writes the same record there. -/
theorem moved_of_statement {statement : Statement} {record : Option OpenRecord}
    (h : state.statement grammar place statement = .ok (after, record)) (other : Place) :
    List.Forall₂ (OpenRecord.Moved place.number other.number) record.toList
      (record.map (OpenRecord.moveTo other)).toList := by
  -- Moving the record to its own line changes nothing, so that is the line it knows.
  have hself := (State.statement_moveTo h place).symm.trans h
  cases record with
  | none => exact .nil
  | some opened =>
      obtain ⟨-, hopened⟩ := Prod.mk.inj (Except.ok.inj hself)
      have hplace : opened.place = place :=
        (congrArg OpenRecord.place (Option.some.inj hopened)).symm
      exact .cons ⟨other, by rw [hplace, Nat.add_comm], rfl⟩ .nil

variable {texts others : List (List Char)}

/-- Lines that are read alike leave the same state and write the same records, each on its line. -/
theorem State.lines_readAlike {number : Nat} {opened : List OpenRecord}
    (h : state.lines grammar number texts = .ok (final, opened))
    (halike : List.Forall₂ ReadAlike texts others) (otherNumber : Nat) :
    ∃ otherOpened, state.lines grammar otherNumber others = .ok (final, otherOpened) ∧
      List.Forall₂ (OpenRecord.Moved number otherNumber) opened otherOpened := by
  induction halike generalizing state number otherNumber opened with
  | nil =>
      cases h
      exact ⟨[], rfl, .nil⟩
  | @cons text other texts others hfirst _ ih =>
      obtain ⟨statement, after, record, records, hreads, hstatement, hrest, rfl⟩ :=
        State.lines_cons_eq_ok_iff.mp h
      obtain ⟨otherRecords, hothers, hrecords⟩ := ih hrest (otherNumber + 1)
      have hother := State.statement_moveTo hstatement ⟨otherNumber, String.ofList (trim other)⟩
      have hrecord := moved_of_statement hstatement ⟨otherNumber, String.ofList (trim other)⟩
      have hlater : List.Forall₂ (OpenRecord.Moved number otherNumber) records otherRecords :=
        hrecords.imp fun _ _ ⟨place, hplace, hmoved⟩ => ⟨place, by omega, hmoved⟩
      exact ⟨_, State.lines_cons_eq_ok_iff.mpr
        ⟨statement, after, _, otherRecords, ((hfirst _ _).mp hreads).renumber _, hother,
          hothers, rfl⟩,
        List.rel_append hrecord hlater⟩

/-- Which line a record stands on has no part in how its labels are filled in. -/
theorem fill_moveTo {writer closed : Writer} {fixups : List Fixup}
    (h : fill symbols place writer fixups = .ok closed) (other : Place) :
    fill symbols other writer fixups = .ok closed := by
  induction fixups generalizing writer with
  | nil => exact h
  | cons fixup rest ih =>
      obtain ⟨address, patched, haddress, hpatch, hrest⟩ := fill_cons_eq_ok_iff.mp h
      exact fill_cons_eq_ok_iff.mpr ⟨address, patched, haddress, hpatch, ih hrest⟩

/-- The second record is the first one with another line number, which is as far from `otherNumber`
as the number of the first is from `number`. -/
def RecordMoved (number otherNumber : Nat) (record other : Record) : Prop :=
  ∃ line, line + number = record.line + otherNumber ∧ other = { record with line := line }

/-- Records on other lines are closed as the same records there. -/
theorem closeAll_moved {number otherNumber : Nat} {opened otherOpened : List OpenRecord}
    {closed : List Record}
    (hmoved : List.Forall₂ (OpenRecord.Moved number otherNumber) opened otherOpened)
    (h : closeAll symbols opened = .ok closed) :
    ∃ others, closeAll symbols otherOpened = .ok others ∧
      List.Forall₂ (RecordMoved number otherNumber) closed others := by
  induction hmoved generalizing closed with
  | nil =>
      cases h
      exact ⟨[], rfl, .nil⟩
  | @cons record other rest otherRest hfirst _ ih =>
      obtain ⟨first, records, hclose, hrest, rfl⟩ := closeAll_cons_eq_ok_iff.mp h
      obtain ⟨others, hothers, hrecords⟩ := ih hrest
      obtain ⟨place, hnumber, rfl⟩ := hfirst
      obtain ⟨writer, hfill, rfl⟩ := OpenRecord.close_eq_ok_iff.mp hclose
      have hother : (record.moveTo place).close symbols =
          .ok ⟨writer.base, place.number, record.mnemonic, writer.bytes⟩ :=
        OpenRecord.close_eq_ok_iff.mpr ⟨writer, fill_moveTo hfill place, rfl⟩
      exact ⟨_, closeAll_cons_eq_ok_iff.mpr ⟨_, others, hother, hothers, rfl⟩,
        .cons ⟨place.number, hnumber, rfl⟩ hrecords⟩

/-- Both passes over lines that are read alike have the same results, but for the numbers of the
lines. -/
theorem State.passes_readAlike {number : Nat} {opened : List OpenRecord} {closed : List Record}
    (hlines : state.lines grammar number texts = .ok (final, opened))
    (hclose : closeAll symbols opened = .ok closed)
    (halike : List.Forall₂ ReadAlike texts others) (otherNumber : Nat) :
    ∃ otherOpened otherClosed, state.lines grammar otherNumber others = .ok (final, otherOpened) ∧
      closeAll symbols otherOpened = .ok otherClosed ∧
      List.Forall₂ (RecordMoved number otherNumber) closed otherClosed := by
  obtain ⟨otherOpened, hothers, hmoved⟩ := State.lines_readAlike hlines halike otherNumber
  obtain ⟨otherClosed, hotherClose, hrecords⟩ := closeAll_moved hmoved hclose
  exact ⟨otherOpened, otherClosed, hothers, hotherClose, hrecords⟩

theorem RecordMoved.symm {number otherNumber : Nat} {record other : Record}
    (h : RecordMoved number otherNumber record other) :
    RecordMoved otherNumber number other record := by
  obtain ⟨line, hline, rfl⟩ := h
  exact ⟨record.line, hline.symm, rfl⟩

/-- Records that were moved further down have their line numbers raised. -/
theorem map_of_recordMoved {number : Nat} (shift : Nat) {closed others : List Record}
    (h : List.Forall₂ (RecordMoved number (number + shift)) closed others) :
    others = closed.map fun record => { record with line := record.line + shift } := by
  induction h with
  | nil => rfl
  | @cons record other _ _ hfirst _ ih =>
      obtain ⟨line, hline, rfl⟩ := hfirst
      have hshifted : line = record.line + shift := by omega
      rw [ih, hshifted, List.map_cons]

/-- Records that were moved by no line are the same. -/
theorem eq_of_recordMoved {number : Nat} {closed others : List Record}
    (h : List.Forall₂ (RecordMoved number number) closed others) : others = closed :=
  (map_of_recordMoved 0 h).trans (List.map_id closed)

/-- An empty line at the end does nothing. -/
theorem State.lines_concat_nil (grammar : Grammar) (state : State) (number : Nat)
    (texts : List (List Char)) :
    state.lines grammar number (texts ++ [[]]) = state.lines grammar number texts := by
  induction texts generalizing state number with
  | nil =>
      have hblank : state.line grammar number [] = .ok (state, none) := by
        rw [State.line, Token.scan, Token.scanFrom_nil]
        rfl
      simp only [List.nil_append, State.lines, hblank]
      rfl
  | cons text rest ih => simp only [List.cons_append, State.lines, ih]

variable {base : UInt32} {constants : Constants} {script other : String} {assembly : Assembly}

/-- Scripts are assembled alike if their lines are read alike, up to an empty line at the end. -/
theorem assemble_eq_ok_iff_of_lines (halike : List.Forall₂ ReadAlike (linesOf script) texts)
    (htexts : texts = linesOf other ∨ texts = linesOf other ++ [[]]) :
    assemble grammar base constants script = .ok assembly ↔
      assemble grammar base constants other = .ok assembly := by
  have hlines :
      ∀ state : State, state.lines grammar 1 texts = state.lines grammar 1 (linesOf other) := by
    intro state
    rcases htexts with rfl | rfl
    · rfl
    · exact State.lines_concat_nil ..
  rw [assemble_eq_ok_iff_passes, assemble_eq_ok_iff_passes, ← hlines]
  constructor
  · rintro ⟨final, opened, records, hopened, hclose, rfl⟩
    obtain ⟨others, closed, hothers, hotherClose, hmoved⟩ :=
      State.passes_readAlike hopened hclose halike 1
    exact ⟨final, others, closed, hothers, hotherClose, by rw [eq_of_recordMoved hmoved]⟩
  · rintro ⟨final, opened, records, hopened, hclose, rfl⟩
    obtain ⟨others, closed, hothers, hotherClose, hmoved⟩ :=
      State.passes_readAlike hopened hclose (halike.flip.imp fun _ _ => ReadAlike.symm) 1
    exact ⟨final, others, closed, hothers, hotherClose, by rw [eq_of_recordMoved hmoved]⟩

/-- Scripts whose lines are read alike have the same assemblies. -/
theorem assemble_eq_ok_iff_of_readAlike
    (halike : List.Forall₂ ReadAlike (linesOf script) (linesOf other)) :
    assemble grammar base constants script = .ok assembly ↔
      assemble grammar base constants other = .ok assembly :=
  assemble_eq_ok_iff_of_lines halike (.inl rfl)

end Assembly

end EventScript
