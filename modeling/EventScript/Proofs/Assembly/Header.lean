import EventScript.Proofs.Assembly.Symbols
import EventScript.Proofs.Scan.Number

/-!
# Constants defined in a header

Constants that a script starts from can as well be defined by lines in front of it, in any order:
giving the names one by one leaves the table of these constants (`SymbolTable.withConstants_perm`),
so that the lines behind the header are run from the same state (`State.lines_header`). Their
numbers are all that is different, which shows in the records (`assemble_below_header`).
-/

namespace EventScript

open Text

/-- The line defines a constant: the name stands behind a percent sign, and its value is written in
decimal or in hexadecimal. -/
def Constants.DefinedBy (entry : String × UInt32) (line : String) : Prop :=
  line = "%" ++ entry.1 ++ " " ++ toString entry.2.toNat ∨
  line = "%" ++ entry.1 ++ " " ++ Numeral.hex entry.2.toNat

/-- The lines define the constants, one by one and in any order. -/
def Constants.WrittenAs (constants : Constants) (lines : List String) : Prop :=
  ∃ entries, entries.Perm constants.entries ∧ List.Forall₂ Constants.DefinedBy entries lines

namespace SymbolTable

/-- Give the names of constants one by one. -/
def withConstants (table : SymbolTable) (entries : List (String × UInt32)) : SymbolTable :=
  entries.foldl (fun table entry => ⟨table.symbols.insert entry.1 (.constant entry.2)⟩) table

/-- Giving names keeps a table in order. -/
theorem ordered_withConstants {table : SymbolTable} (h : table.symbols.Ordered)
    (entries : List (String × UInt32)) :
    (table.withConstants entries).symbols.Ordered := by
  induction entries generalizing table with
  | nil => exact h
  | cons entry rest ih => exact ih (h.insert entry.1 (.constant entry.2))

/-- Among different names that are free, giving the first one leaves the others free. -/
theorem free_withConstants {table : SymbolTable} {entry : String × UInt32}
    {rest : List (String × UInt32)} (hnames : ((entry :: rest).map Prod.fst).Nodup)
    (hfree : ∀ other ∈ entry :: rest, table.symbols.get? other.1 = none) :
    ∀ other ∈ rest, (table.withConstants [entry]).symbols.get? other.1 = none := by
  intro other hother
  have hne : other.1 ≠ entry.1 := fun hname =>
    (List.nodup_cons.mp hnames).1 (hname ▸ List.mem_map_of_mem hother)
  simp [withConstants, hne, hfree other (List.mem_cons_of_mem _ hother)]

/-- Giving names that are free and different adds their entries. -/
theorem withConstants_perm {table : SymbolTable} {entries : List (String × UInt32)}
    (hnames : (entries.map Prod.fst).Nodup)
    (hfree : ∀ entry ∈ entries, table.symbols.get? entry.1 = none) :
    (table.withConstants entries).symbols.entries.Perm
      (entries.map (fun entry => (entry.1, .constant entry.2)) ++ table.symbols.entries) := by
  induction entries generalizing table with
  | nil => exact List.Perm.refl _
  | cons entry rest ih =>
      have hlater := ih (List.nodup_cons.mp hnames).2 (free_withConstants hnames hfree)
      have hadded :=
        Dictionary.insertEntry_perm (hfree entry List.mem_cons_self) (.constant entry.2)
      exact hlater.trans ((hadded.append_left _).trans List.perm_middle)

/-- Giving the names of constants one by one, in any order, leaves the table of these constants. -/
theorem withConstants_empty {constants : Constants} (hordered : constants.Ordered)
    {entries : List (String × UInt32)} (hentries : entries.Perm constants.entries) :
    (ofConstants .empty).withConstants entries = ofConstants constants := by
  have hnames : (entries.map Prod.fst).Nodup := (hentries.map Prod.fst).nodup_iff.mpr hordered.nodup
  have hperm : ((ofConstants .empty).withConstants entries).symbols.entries.Perm
      (entries.map (fun entry => (entry.1, .constant entry.2)) ++ []) :=
        withConstants_perm hnames fun _ _ => rfl
  rw [List.append_nil] at hperm
  have htable : (ofConstants constants).symbols.Ordered := List.pairwise_map.mpr hordered
  exact congrArg SymbolTable.mk
    ((ordered_withConstants Dictionary.ordered_empty entries).eq_of_perm htable
      (hperm.trans (hentries.map _)))

end SymbolTable

namespace Assembly

variable {grammar : Grammar} {state : State}

/-- What stands in a line that defines a constant. -/
theorem exists_numeral {entry : String × UInt32} {line : String}
    (h : Constants.DefinedBy entry line) :
    ∃ numeral : List Char, line.toList = (Token.symbol entry.1).text.toList ++ ' ' :: numeral ∧
      Numeral.Spells entry.2 numeral := by
  rcases h with rfl | rfl
  · refine ⟨Nat.toDigits 10 entry.2.toNat, ?_,
      .decimal (Numeral.value?_toDigits (by decide) (by decide) _)⟩
    simp [Token.text, Nat.toString_eq_repr, Nat.repr]
  · refine ⟨'0' :: 'x' :: Nat.toDigits 16 entry.2.toNat, ?_,
      .hex (.inl rfl) (Numeral.value?_toDigits (by decide) (by decide) _)⟩
    simp [Token.text, Numeral.hex, Numeral.hexDigits]

/-- A line that defines a constant is read as this definition. -/
theorem reads_definition {entry : String × UInt32} {line : String}
    (hname : Token.isName entry.1 = true) (h : Constants.DefinedBy entry line) (number : Nat) :
    Reads number line.toList (.constant entry.1 (.number entry.2)) := by
  obtain ⟨numeral, hline, hspells⟩ := exists_numeral h
  have hwritten : (Token.symbol entry.1).Written := hname
  refine ⟨[.symbol entry.1, .number entry.2], ?_, rfl⟩
  rw [Token.scan, hline, Token.scanFrom_text hwritten (Token.stops_space rfl _),
    Token.scanFrom_blank (by decide), Token.scanFrom_of_scans (Token.scans_of_spells hspells)]
  rfl

/-- A line that defines a constant is one line. -/
theorem ne_break_of_definition {entry : String × UInt32} {line : String}
    (hname : Token.isName entry.1 = true)
    (h : Constants.DefinedBy entry line) {c : Char} (hc : c ∈ line.toList) :
    c ≠ '\n' ∧ c ≠ '\r' := by
  obtain ⟨numeral, hline, hspells⟩ := exists_numeral h
  have hwritten : (Token.symbol entry.1).Written := hname
  apply ne_break
  rw [hline, List.mem_append, List.mem_cons] at hc
  rcases hc with hc | rfl | hc
  · exact .inr (Token.isBlank_of_mem_text hwritten rfl hc)
  · exact .inl rfl
  · exact .inr (hspells.not_blank c hc)

/-- A line without a record has no part in the records. -/
theorem State.lines_cons_of_line {number : Nat} {text : List Char} {after : State}
    (h : state.line grammar number text = .ok (after, none)) (rest : List (List Char)) :
    state.lines grammar number (text :: rest) = after.lines grammar (number + 1) rest := by
  simp only [State.lines, h]
  cases after.lines grammar (number + 1) rest <;> rfl

variable {entries : List (String × UInt32)} {lines : List String}

/-- The lines of a script with a header. -/
theorem linesOf_header (hlines : List.Forall₂ Constants.DefinedBy entries lines)
    (hnames : ∀ entry ∈ entries, Token.isName entry.1 = true) (source : String) :
    linesOf (String.join (lines.map (· ++ "\n")) ++ source) =
      lines.map String.toList ++ linesOf source := by
  induction hlines with
  | nil => simp [linesOf]
  | @cons entry line entries lines hfirst _ ih =>
      obtain ⟨hname, hlater⟩ := List.forall_mem_cons.mp hnames
      have htext : (String.join ((line :: lines).map (· ++ "\n")) ++ source).toList =
          line.toList ++ '\n' :: (String.join (lines.map (· ++ "\n")) ++ source).toList := by
        simp [String.toList_join]
      rw [linesOf, htext, lines_append fun c hc => ne_break_of_definition hname hfirst hc,
        ← linesOf, ih hlater, List.map_cons, List.cons_append]

/-- A line that defines a constant with a free name gives this name, and nothing else. -/
theorem State.line_definition {entry : String × UInt32} {line : String}
    (hname : Token.isName entry.1 = true)
    (h : Constants.DefinedBy entry line) (hfree : state.symbols.symbols.get? entry.1 = none)
    (number : Nat) :
    state.line grammar number line.toList =
      .ok (⟨state.symbols.withConstants [entry], state.address⟩, none) := by
  refine State.line_eq_ok_iff.mpr ⟨_, reads_definition hname h number, ?_⟩
  simp [State.statement, Statement.valueOf, State.define, SymbolTable.define?, Dictionary.contains,
    hfree, Except.map, SymbolTable.withConstants]

/-- The lines behind a header are run from the table of its constants. -/
theorem State.lines_header (hlines : List.Forall₂ Constants.DefinedBy entries lines)
    (hnames : ∀ entry ∈ entries, Token.isName entry.1 = true)
    (hdistinct : (entries.map Prod.fst).Nodup)
    (hfree : ∀ entry ∈ entries, state.symbols.symbols.get? entry.1 = none) (number : Nat)
    (texts : List (List Char)) :
    state.lines grammar number (lines.map String.toList ++ texts) =
      State.lines grammar ⟨state.symbols.withConstants entries, state.address⟩
        (number + lines.length) texts := by
  induction hlines generalizing state number with
  | nil => rfl
  | @cons entry line entries lines hfirst _ ih =>
      obtain ⟨hname, hlater⟩ := List.forall_mem_cons.mp hnames
      have hline : state.line grammar number line.toList =
          .ok (⟨state.symbols.withConstants [entry], state.address⟩, none) :=
        State.line_definition hname hfirst (hfree entry List.mem_cons_self) number
      have hrest :
          State.lines grammar ⟨state.symbols.withConstants [entry], state.address⟩ (number + 1)
          (lines.map String.toList ++ texts) = _ :=
        ih hlater (List.nodup_cons.mp hdistinct).2 (SymbolTable.free_withConstants hdistinct hfree)
          (number + 1)
      rw [List.map_cons, List.cons_append, State.lines_cons_of_line hline, hrest, List.length_cons,
        Nat.add_right_comm, Nat.add_assoc]
      rfl

/-- Constants can as well be defined by lines in front of a script, in any order: it is assembled as
if it started from them, except that its lines stand further down. -/
theorem assemble_below_header (grammar : Grammar) (base : UInt32) {constants : Constants}
    (hordered : constants.Ordered)
    (hnames : ∀ name ∈ constants.keys, Token.isName name = true) {header : List String}
    (hheader : constants.WrittenAs header) (source : String) (other : Assembly) :
    assemble grammar base .empty (String.join (header.map (· ++ "\n")) ++ source) = .ok other ↔
      ∃ assembly, assemble grammar base constants source = .ok assembly ∧
        other = { assembly with
          records :=
            assembly.records.map fun record =>
              { record with line := record.line + header.length } } := by
  obtain ⟨entries, hentries, hlines⟩ := hheader
  have hdistinct : (entries.map Prod.fst).Nodup :=
    (hentries.map Prod.fst).nodup_iff.mpr hordered.nodup
  have hvalid : ∀ entry ∈ entries, Token.isName entry.1 = true := fun entry hentry =>
    hnames entry.1 (List.mem_map_of_mem (hentries.mem_iff.mp hentry))
  have hrun :
      (State.start base .empty).lines grammar 1 (header.map String.toList ++ linesOf source) =
      (State.start base constants).lines grammar (1 + header.length) (linesOf source) := by
    rw [State.lines_header hlines hvalid hdistinct (fun _ _ => rfl)]
    simp only [State.start, SymbolTable.withConstants_empty hordered hentries]
  have halike : List.Forall₂ ReadAlike (linesOf source) (linesOf source) :=
    List.forall₂_same.mpr fun _ _ _ _ => Iff.rfl
  rw [assemble_eq_ok_iff_passes, linesOf_header hlines hvalid, hrun]
  constructor
  · rintro ⟨final, opened, records, hopened, hclose, rfl⟩
    obtain ⟨others, closed, hothers, hotherClose, hmoved⟩ :=
      State.passes_readAlike hopened hclose halike 1
    have hrecords := map_of_recordMoved header.length (hmoved.flip.imp fun _ _ => RecordMoved.symm)
    exact ⟨_, assemble_eq_ok_iff_passes.mpr ⟨final, others, closed, hothers, hotherClose, rfl⟩,
      by rw [hrecords]⟩
  · rintro ⟨assembly, hassembly, rfl⟩
    obtain ⟨final, opened, records, hopened, hclose, rfl⟩ := assemble_eq_ok_iff_passes.mp hassembly
    obtain ⟨others, closed, hothers, hotherClose, hmoved⟩ :=
      State.passes_readAlike hopened hclose halike (1 + header.length)
    exact ⟨final, others, closed, hothers, hotherClose,
      by rw [map_of_recordMoved header.length hmoved]⟩

/-- A header in decimal and hexadecimal, not in the order of the names, in front of a script that
gives a label by one constant and writes the other. -/
theorem assemble_below_header_mixed :
    Dictionary.Ordered (⟨[("A", 0x8000100), ("B", 2)]⟩ : Constants) ∧
      (∀ name ∈ (⟨[("A", 0x8000100), ("B", 2)]⟩ : Constants).keys, Token.isName name = true) ∧
      Constants.WrittenAs ⟨[("A", 0x8000100), ("B", 2)]⟩ ["%B 2", "%A 0x8000100"] ∧
      assemble .empty 0x8000000 ⟨[("A", 0x8000100), ("B", 2)]⟩ ".far %A\n.here:\n  db 7 %B\n" =
        .ok ⟨0x8000000, [⟨0x8000000, 3, "db", [7, 2]⟩],
          ⟨[("far", 0x8000100), ("here", 0x8000000)]⟩⟩ ∧
      assemble .empty 0x8000000 .empty
          (String.join (["%B 2", "%A 0x8000100"].map (· ++ "\n")) ++
            ".far %A\n.here:\n  db 7 %B\n") =
        .ok ⟨0x8000000, [⟨0x8000000, 5, "db", [7, 2]⟩],
          ⟨[("far", 0x8000100), ("here", 0x8000000)]⟩⟩ := by
  have hordered : Dictionary.Ordered (⟨[("A", 0x8000100), ("B", 2)]⟩ : Constants) :=
    List.pairwise_pair.mpr (by decide +kernel)
  have hnames : ∀ name ∈ (⟨[("A", 0x8000100), ("B", 2)]⟩ : Constants).keys,
      Token.isName name = true := by
    decide +kernel
  have hheader : Constants.WrittenAs ⟨[("A", 0x8000100), ("B", 2)]⟩ ["%B 2", "%A 0x8000100"] :=
    ⟨[("B", 2), ("A", 0x8000100)], .swap ..,
      .cons (.inl (by decide +kernel)) (.cons (.inr (by decide +kernel)) .nil)⟩
  have hassemble :
      assemble .empty 0x8000000 ⟨[("A", 0x8000100), ("B", 2)]⟩ ".far %A\n.here:\n  db 7 %B\n" =
      .ok ⟨0x8000000, [⟨0x8000000, 3, "db", [7, 2]⟩],
        ⟨[("far", 0x8000100), ("here", 0x8000000)]⟩⟩ := by
    decide +kernel
  exact ⟨hordered, hnames, hheader, hassemble,
    (assemble_below_header .empty 0x8000000 hordered hnames hheader _ _).mpr ⟨_, hassemble, rfl⟩⟩

end Assembly

end EventScript
