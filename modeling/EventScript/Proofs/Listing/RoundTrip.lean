import EventScript.Proofs.Listing.Script

/-!
# Listings assemble back

The script that is listed for bytes assembles at the same address to these bytes, record by record.
The statements of the script are followed in one pass (`Leads`): every line encodes its record again
(`decode_direct`), and every address that a line refers to gets its label exactly once, in front of
the lines if it starts none of them and as a mark otherwise (`Names`, `leads_outside`,
`leads_lines`).
-/

namespace EventScript.Listing

open Text Assembly Statement

variable {grammar : Grammar} {labels : String → Option UInt32}

/-- A line gives its record back if the labels it refers to have their addresses. -/
theorem decode_direct {admitted : String → Prop} (hgrammar : grammar.WellFormed admitted)
    {address : UInt32} {record : Bytes} (hframed : record.Framed) (symbols : SymbolTable)
    (htargets : ∀ target ∈ (decode (candidates grammar.toList) address record).targets,
      labels (labelName target) = some target) :
    Direct grammar symbols labels address
      (decode (candidates grammar.toList) address record).mnemonic
      ((decode (candidates grammar.toList) address record).operands.map Operand.token) record := by
  unfold decode at htargets ⊢
  cases hfound : (candidates grammar.toList).findSome? (match? address record) with
  | none =>
      refine .raw ?_ hframed
      simp only [Option.getD_none, rawLine, List.map_map, List.forall₂_map_left_iff]
      exact List.forall₂_same.mpr fun byte _ => rfl
  | some line =>
      rw [hfound] at htargets
      obtain ⟨instruction, hmem, hmatch⟩ := List.exists_of_findSome?_eq_some hfound
      obtain ⟨_, hmnemonic, haligned, arguments, harguments, hencodes⟩ := match?_encodes hmatch
      have hoffers := hgrammar.offers_of_mem (List.mem_mergeSort.mp hmem)
      simp only [Option.getD_some, hmnemonic] at htargets ⊢
      exact .template hoffers.not_raw hoffers.found
        (arguments_eq_ok_iff.mp (harguments ⟨0, ""⟩ symbols)) haligned (hencodes labels htargets)

/-- From the state, lines that are read as the statements lead to the final state and give records
with the addresses and mnemonics of the listed lines, which together have the given bytes. -/
def Leads (grammar : Grammar) (labels : String → Option UInt32) (state : State)
    (statements : List Statement) (final : State) (lines : List Line) (bytes : Bytes) : Prop :=
  ∀ number texts, List.Forall₂ ReadFrom texts statements →
    ∃ records, Run grammar labels number state texts final records ∧
      records.map (fun record => (record.address, record.mnemonic)) =
        lines.map (fun line => (line.address, line.mnemonic)) ∧
      records.flatMap Record.bytes = bytes

variable {state after final : State} {statements : List Statement} {lines : List Line}
  {bytes : Bytes}

theorem Leads.nil : Leads grammar labels state [] state [] [] := by
  intro number texts htexts
  cases htexts
  exact ⟨[], .nil, rfl, rfl⟩

/-- A statement that gives a name comes first. -/
theorem Leads.define {statement : Statement}
    (hstep : ∀ number, Step grammar labels number state statement after [])
    (h : Leads grammar labels after statements final lines bytes) :
    Leads grammar labels state (statement :: statements) final lines bytes := by
  intro number texts htexts
  cases htexts with
  | cons hreads hrest =>
      obtain ⟨records, hrun, hlines, hbytes⟩ := h (number + 1) _ hrest
      exact ⟨records, .cons (hreads number) (hstep number) hrun, hlines, hbytes⟩

/-- An instruction comes first. -/
theorem Leads.instruction {line : Line} {record : Bytes} (haddress : line.address = state.address)
    (hdirect : Direct grammar state.symbols labels state.address line.mnemonic
      (line.operands.map Operand.token) record)
    (h : Leads grammar labels
      ⟨state.symbols, state.address + UInt32.ofNat record.length⟩ statements final lines bytes) :
    Leads grammar labels state (line.statement :: statements) final (line :: lines)
      (record ++ bytes) := by
  intro number texts htexts
  cases htexts with
  | cons hreads hrest =>
      obtain ⟨records, hrun, hlines, hbytes⟩ := h (number + 1) _ hrest
      refine ⟨_, .cons (hreads number) (.instruction hdirect) hrun, ?_, ?_⟩
      · simp [hlines, haddress]
      · simp [hbytes]

/-- Just the given addresses have labels in the table, each under its own name. -/
def Names (defined : List UInt32) (symbols : SymbolTable) : Prop :=
  ∀ address, symbols.symbols.get? (labelName address) =
    if address ∈ defined then some (.label address) else none

theorem names_start (base : UInt32) : Names [] (State.start base .empty).symbols :=
  fun _ => rfl

theorem Names.label? {defined : List UInt32} {symbols : SymbolTable} (h : Names defined symbols)
    {address : UInt32} (hmem : address ∈ defined) :
    symbols.label? (labelName address) = some address := by
  simp [SymbolTable.label?, h address, hmem]

/-- An address without a label can get one. -/
theorem Names.define {defined : List UInt32} {symbols : SymbolTable} (h : Names defined symbols)
    {address : UInt32} (hfree : address ∉ defined) :
    ∃ given, symbols.define? (labelName address) (.label address) = some given ∧
      Names (address :: defined) given := by
  refine ⟨⟨symbols.symbols.insert (labelName address) (.label address)⟩, ?_, ?_⟩
  · simp [SymbolTable.define?, Dictionary.contains, h address, hfree]
  · intro other
    by_cases hother : other = address
    · simp [hother]
    · have hname : labelName other ≠ labelName address :=
        fun heq => hother (labelName_injective heq)
      simp [hname, hother, h other]

variable {symbols : SymbolTable} {address : UInt32} {defined targets : List UInt32}

/-- Addresses without labels get them one after the other. -/
theorem leads_outside (grammar : Grammar) (address : UInt32) (hnames : Names defined symbols)
    (hnodup : targets.Nodup) (hfree : ∀ target ∈ targets, target ∉ defined) :
    ∃ given known, Names known given ∧
      (∀ place, place ∈ known ↔ place ∈ targets ∨ place ∈ defined) ∧
      ∀ {labels statements final lines bytes},
        Leads grammar labels ⟨given, address⟩ statements final lines bytes →
        Leads grammar labels ⟨symbols, address⟩
          (targets.map (fun target => .label (labelName target) (.number target)) ++ statements)
          final lines bytes := by
  induction targets generalizing defined symbols with
  | nil => exact ⟨symbols, defined, hnames, by simp, fun h => h⟩
  | cons target rest ih =>
      obtain ⟨next, hdefine, hnext⟩ := hnames.define (hfree target List.mem_cons_self)
      have hrest : ∀ other ∈ rest, other ∉ target :: defined := by
        intro other hother hmem
        rcases List.mem_cons.mp hmem with rfl | hmem
        · exact (List.nodup_cons.mp hnodup).1 hother
        · exact hfree other (List.mem_cons_of_mem _ hother) hmem
      obtain ⟨given, known, hknown, hmem, hleads⟩ :=
        ih hnext (List.nodup_cons.mp hnodup).2 hrest
      refine ⟨given, known, hknown, fun place => ?_, fun h => ?_⟩
      · rw [hmem, List.mem_cons, List.mem_cons, or_left_comm, or_assoc]
      · exact .define (fun number => .label rfl hdefine) (hleads h)

/-- The address of the next record gets its label if something refers to it. -/
theorem leads_mark (grammar : Grammar) (hnames : Names defined symbols) (hfree : address ∉ defined)
    (targets : List UInt32) :
    ∃ given known, Names known given ∧
      (∀ place, place ∈ known ↔ (place = address ∧ place ∈ targets) ∨ place ∈ defined) ∧
      ∀ {labels statements final lines bytes},
        Leads grammar labels ⟨given, address⟩ statements final lines bytes →
        Leads grammar labels ⟨symbols, address⟩ (mark targets address ++ statements) final lines
          bytes := by
  by_cases htarget : address ∈ targets
  · obtain ⟨given, hgiven, hnext⟩ := hnames.define hfree
    refine ⟨given, address :: defined, hnext, fun place => ?_, fun h => ?_⟩
    · rw [List.mem_cons]
      constructor
      · rintro (rfl | hmem)
        · exact .inl ⟨rfl, htarget⟩
        · exact .inr hmem
      · rintro (⟨rfl, _⟩ | hmem)
        · exact .inl rfl
        · exact .inr hmem
    · rw [mark, if_pos (by simpa using htarget)]
      exact .define (fun number => .mark hgiven) h
  · refine ⟨symbols, defined, hnames, fun place => ?_, fun h => ?_⟩
    · constructor
      · exact .inr
      · rintro (⟨rfl, hmem⟩ | hmem)
        · exact absurd hmem htarget
        · exact hmem
    · rw [mark, if_neg (by simpa using htarget)]
      exact h

variable {admitted : String → Prop} {stop : UInt32}

/-- The lines of a cut lead to its bytes, and then every address that something refers to has its
label: the addresses that have none yet start a line or stand at the end. -/
theorem leads_lines (hgrammar : grammar.WellFormed admitted)
    (hcut : Cut (candidates grammar.toList) address bytes lines) (hnames : Names defined symbols)
    (hstop : stop = address + UInt32.ofNat bytes.length)
    (hnodup : (lines.map Line.address ++ [stop]).Nodup)
    (hfree : ∀ start ∈ lines.map Line.address ++ [stop], start ∉ defined)
    (hcovered : ∀ target ∈ targets,
      target ∈ lines.map Line.address ++ [stop] ∨ target ∈ defined)
    (htargets : ∀ line ∈ lines, ∀ target ∈ line.targets, target ∈ targets) :
    ∃ final : State, (∀ target ∈ targets, final.symbols.label? (labelName target) = some target) ∧
      Leads grammar final.symbols.label? ⟨symbols, address⟩
        (lines.flatMap (fun line => mark targets line.address ++ [line.statement]) ++
          mark targets stop) final lines bytes := by
  -- A record needs labels that are defined behind it, so the final table comes from the rest of the
  -- lines before the record in front of them is encoded.
  induction hcut generalizing symbols defined with
  | @nil address =>
      obtain rfl : stop = address := by simpa using hstop
      obtain ⟨given, known, hknown, hmem, hleads⟩ :=
        leads_mark grammar hnames (hfree stop (by simp)) targets
      refine ⟨⟨given, stop⟩, fun target htarget => hknown.label? ?_, ?_⟩
      · rcases hcovered target htarget with hhere | hdefined
        · exact (hmem target).mpr (.inl ⟨by simpa using hhere, htarget⟩)
        · exact (hmem target).mpr (.inr hdefined)
      · have hlast : Leads grammar given.label? _ (mark targets stop ++ []) _ [] [] := hleads .nil
        rwa [List.append_nil] at hlast
  | @cons address record rest lines hframed _ ih =>
      rw [List.map_cons, List.cons_append, decode_address] at hnodup hfree hcovered
      rw [List.length_append, UInt32.ofNat_add, ← UInt32.add_assoc] at hstop
      obtain ⟨given, known, hknown, hmem, hleads⟩ :=
        leads_mark grammar hnames (hfree address List.mem_cons_self) targets
      have hfreeRest : ∀ start ∈ lines.map Line.address ++ [stop], start ∉ known := by
        intro start hstart hstartKnown
        rcases (hmem start).mp hstartKnown with ⟨rfl, _⟩ | hdefined
        · exact (List.nodup_cons.mp hnodup).1 hstart
        · exact hfree start (List.mem_cons_of_mem _ hstart) hdefined
      have hcoveredRest : ∀ target ∈ targets,
          target ∈ lines.map Line.address ++ [stop] ∨ target ∈ known := by
        intro target htarget
        rcases hcovered target htarget with hhere | hdefined
        · rcases List.mem_cons.mp hhere with rfl | hlater
          · exact .inr ((hmem target).mpr (.inl ⟨rfl, htarget⟩))
          · exact .inl hlater
        · exact .inr ((hmem target).mpr (.inr hdefined))
      obtain ⟨final, hlabels, hrestLeads⟩ := ih hknown hstop (List.nodup_cons.mp hnodup).2
        hfreeRest hcoveredRest fun line hline => htargets line (List.mem_cons_of_mem _ hline)
      have hdirect := decode_direct hgrammar hframed given fun target htarget =>
        hlabels target (htargets _ List.mem_cons_self target htarget)
      refine ⟨final, hlabels, ?_⟩
      rw [List.flatMap_cons, decode_address, List.append_assoc, List.append_assoc]
      exact hleads (.instruction (decode_address ..) hdirect hrestLeads)

/-- Keeping the first of equal items leaves different ones. -/
theorem nodup_eraseDups (items : List UInt32) : items.eraseDups.Nodup := by
  match items with
  | [] => simp
  | item :: rest =>
      rw [List.eraseDups_cons, List.nodup_cons]
      exact ⟨by simp [List.mem_eraseDups], nodup_eraseDups _⟩
termination_by items.length
decreasing_by exact Nat.lt_succ_of_le (List.length_filter_le ..)

/-- The addresses that are collected from lines are those that a line refers to. -/
theorem mem_targetsOf {target : UInt32} :
    target ∈ targetsOf lines ↔ ∃ line ∈ lines, target ∈ line.targets := by
  simp [targetsOf, List.mem_eraseDups]

/-- The script of a cut leads from the start to the bytes that were cut, if no two lines start at
one address. -/
theorem leads_statements (hgrammar : grammar.WellFormed admitted) {base : UInt32}
    (hcut : Cut (candidates grammar.toList) base bytes lines)
    (hstop : stop = base + UInt32.ofNat bytes.length)
    (hnodup : (lines.map Line.address ++ [stop]).Nodup) :
    ∃ final : State, Leads grammar final.symbols.label? (.start base .empty)
      (Listing.statements lines stop) final lines bytes := by
  have houtside : ((targetsOf lines).filter fun target =>
      !(lines.map Line.address ++ [stop]).contains target).Nodup :=
    (nodup_eraseDups _).filter _
  obtain ⟨given, known, hknown, hmem, hleads⟩ :=
    leads_outside grammar base (names_start base) houtside (by simp)
  have hmemOutside : ∀ place, place ∈ known ↔
      place ∈ targetsOf lines ∧ place ∉ lines.map Line.address ++ [stop] := by
    intro place
    simp [hmem]
  have hfree : ∀ start ∈ lines.map Line.address ++ [stop], start ∉ known :=
    fun start hstart hstartKnown => ((hmemOutside start).mp hstartKnown).2 hstart
  have hcovered : ∀ target ∈ targetsOf lines,
      target ∈ lines.map Line.address ++ [stop] ∨ target ∈ known := by
    intro target htarget
    by_cases hstart : target ∈ lines.map Line.address ++ [stop]
    · exact .inl hstart
    · exact .inr ((hmemOutside target).mpr ⟨htarget, hstart⟩)
  obtain ⟨final, _, hlines⟩ := leads_lines hgrammar hcut hknown hstop hnodup hfree hcovered
    fun line hline target htarget => mem_targetsOf.mpr ⟨line, hline, htarget⟩
  refine ⟨final, ?_⟩
  rw [Listing.statements, List.append_assoc]
  exact hleads hlines

/-- A listing assembles back. If bytes can be listed at an address, with instructions whose
mnemonics are names, then the script that is listed assembles at this address to just these bytes,
in records that have the addresses and mnemonics of the listed lines. -/
theorem assemble_text {base : UInt32} {text : String}
    (hgrammar : Grammar.Built (fun mnemonic => Token.isName mnemonic = true) grammar)
    (hsize : bytes.length < 2 ^ 32) (htext : Listing.text grammar base bytes = .ok text) :
    ∃ lines assembly, Listing.lines grammar base bytes = .ok lines ∧
      assemble grammar base .empty text = .ok assembly ∧ assembly.bytes = bytes ∧
      assembly.records.map (fun record => (record.address, record.mnemonic)) =
        lines.map (fun line => (line.address, line.mnemonic)) := by
  have hwell := hgrammar.wellFormed (by decide)
  unfold Listing.text at htext
  split at htext
  · cases htext
  · rename_i lines hlines
    cases htext
    have hcut : Cut (candidates grammar.toList) base bytes lines := linesFrom_eq_ok_iff.mp hlines
    have hwritten : ∀ line ∈ lines, line.Written := by
      intro line hline
      obtain ⟨place, record, rfl⟩ := hcut.exists_decode hline
      refine decode_written (fun instruction hinstruction => ?_) place record
      exact (hwell.offers_of_mem (List.mem_mergeSort.mp hinstruction)).admitted
    obtain ⟨final, hleads⟩ := leads_statements hwell hcut rfl (hcut.nodup_addresses hsize)
    obtain ⟨records, hrun, hrecords, hbytes⟩ := hleads 1 _ (reads_render hwritten _)
    exact ⟨lines, ⟨base, records, final.symbols.labels⟩, hlines,
      (assemble_eq_ok_iff hwell).mpr ⟨final, hrun, rfl, rfl⟩, hbytes, hrecords⟩

/-- A grammar with one instruction, which has all kinds of operands. -/
def branching : Grammar :=
  ⟨⟨[("branch", ⟨"branch", some [.value, .keyword .jumpCondition, .label],
    ⟨[.literal 0x2d, .literal 8, .slot 0 .byte, .slot 1 .byte, .slot 2 .word]⟩⟩)]⟩⟩

/-- A branch to the end, a record that no instruction accounts for and a branch to an address
outside are listed and assemble back. -/
theorem assemble_text_branches :
    ∃ bytes script lines assembly,
      Grammar.empty.define "branch" (some [.value, .keyword .jumpCondition, .label])
        "2d 08 $0 $1 $(U:2)" = .ok branching ∧
      bytes = [0x2d, 8, 5, 2, 0x14, 0, 0, 8, 0xff, 4, 1, 2, 0x2d, 8, 6, 3, 0, 0, 0, 9] ∧
      script = ".L09000000 0x9000000\n    branch 0x5 jz .L08000014\n    db 0xff 0x4 0x1 0x2\n" ++
        "    branch 0x6 jnz .L09000000\n.L08000014:\n" ∧
      Listing.text branching 0x8000000 bytes = .ok script ∧
      Listing.lines branching 0x8000000 bytes = .ok lines ∧
      assemble branching 0x8000000 .empty script = .ok assembly ∧ assembly.bytes = bytes ∧
      assembly.records.map (fun record => (record.address, record.mnemonic)) =
        lines.map (fun line => (line.address, line.mnemonic)) := by
  have hdefine : Grammar.empty.define "branch" (some [.value, .keyword .jumpCondition, .label])
      "2d 08 $0 $1 $(U:2)" = .ok branching := by
    decide +kernel
  have hcandidates : candidates branching.toList = branching.toList := List.mergeSort_singleton _
  have hlines : Listing.lines branching 0x8000000
      [0x2d, 8, 5, 2, 0x14, 0, 0, 8, 0xff, 4, 1, 2, 0x2d, 8, 6, 3, 0, 0, 0, 9] =
      .ok [⟨0x8000000, "branch", [.value 5, .word "jz", .target 0x8000014]⟩,
        ⟨0x8000008, "db", [.value 0xff, .value 4, .value 1, .value 2]⟩,
        ⟨0x800000c, "branch", [.value 6, .word "jnz", .target 0x9000000]⟩] := by
    rw [Listing.lines, hcandidates]
    decide +kernel
  have htargets : targetsOf
      [⟨0x8000000, "branch", [.value 5, .word "jz", .target 0x8000014]⟩,
        ⟨0x8000008, "db", [.value 0xff, .value 4, .value 1, .value 2]⟩,
        ⟨0x800000c, "branch", [.value 6, .word "jnz", .target 0x9000000]⟩] =
      [0x8000014, 0x9000000] := by
    rw [targetsOf, List.mergeSort_of_pairwise (by decide)]
    decide
  have htext : Listing.text branching 0x8000000
      [0x2d, 8, 5, 2, 0x14, 0, 0, 8, 0xff, 4, 1, 2, 0x2d, 8, 6, 3, 0, 0, 0, 9] =
      .ok (".L09000000 0x9000000\n    branch 0x5 jz .L08000014\n    db 0xff 0x4 0x1 0x2\n" ++
        "    branch 0x6 jnz .L09000000\n.L08000014:\n") := by
    simp only [Listing.text, hlines, render, htargets]
    decide +kernel
  obtain ⟨lines, assembly, hround⟩ :=
    assemble_text (.define .empty (by decide) hdefine) (by decide) htext
  exact ⟨_, _, lines, assembly, hdefine, rfl, rfl, htext, hround⟩

end EventScript.Listing
