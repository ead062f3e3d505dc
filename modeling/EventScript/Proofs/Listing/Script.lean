import EventScript.Proofs.Assembly.Direct
import EventScript.Proofs.Listing.Decode

/-!
# The statements of a listing

`statements` gives the statements that the text of a listing consists of: labels for addresses
outside, instructions, and marks in front of those that are referred to. `reads_render` says that
the lines of the text are read as these statements, provided that mnemonics and keywords are names.
-/

namespace EventScript

/-- The text of a line is read as the statement, whatever the number of the line. -/
def Statement.ReadFrom (text : List Char) (statement : Statement) : Prop :=
  ∀ number, Assembly.Reads number text statement

namespace Listing

open Text

/-- The text consists of whole lines that are read as the statements. -/
def Holds (text : List Char) (statements : List Statement) : Prop :=
  ∀ rest others, List.Forall₂ Statement.ReadFrom (Text.lines rest) others →
    List.Forall₂ Statement.ReadFrom (Text.lines (text ++ rest)) (statements ++ others)

theorem Holds.nil : Holds [] [] :=
  fun _ _ h => h

theorem Holds.append {first second : List Char} {before after : List Statement}
    (hfirst : Holds first before) (hsecond : Holds second after) :
    Holds (first ++ second) (before ++ after) := by
  intro rest others h
  rw [List.append_assoc, List.append_assoc]
  exact hfirst _ _ (hsecond _ _ h)

/-- Texts that hold statements one after the other. -/
theorem Holds.flatMap {α : Type} {items : List α} {text : α → List Char}
    {statements : α → List Statement} (h : ∀ item ∈ items, Holds (text item) (statements item)) :
    Holds (items.flatMap text) (items.flatMap statements) := by
  induction items with
  | nil => exact .nil
  | cons item rest ih =>
      rw [List.flatMap_cons, List.flatMap_cons]
      exact (h item List.mem_cons_self).append
        (ih fun other hother => h other (List.mem_cons_of_mem _ hother))

/-- Texts that hold one statement each. -/
theorem Holds.map {α : Type} {items : List α} {text : α → List Char} {statement : α → Statement}
    (h : ∀ item ∈ items, Holds (text item) [statement item]) :
    Holds (items.flatMap text) (items.map statement) := by
  rw [List.map_eq_flatMap]
  exact Holds.flatMap h

/-- A single line holds the statement it is read as. -/
theorem Holds.line {text : List Char} {statement : Statement}
    (hline : ∀ c ∈ text, c = ' ' ∨ isBlank c = false) (h : Statement.ReadFrom text statement) :
    Holds (text ++ ['\n']) [statement] := by
  intro rest others hothers
  rw [List.append_assoc, List.singleton_append, lines_append fun c hc => ne_break (hline c hc)]
  exact .cons h hothers

/-- The lines of a text are read as the statements that it holds. -/
theorem Holds.reads {text : List Char} {statements : List Statement} (h : Holds text statements) :
    List.Forall₂ Statement.ReadFrom (Text.lines text) statements := by
  have hwhole := h [] [] .nil
  rwa [List.append_nil, List.append_nil] at hwhole

/-- The name of the label of an address is a name. -/
theorem isName_labelName (address : UInt32) : Token.isName (labelName address) = true := by
  have hdigits : ∀ c ∈ (Numeral.hexDigitsPadded 8 address.toNat).map Char.toUpper,
      Token.isNameChar c = true := by
    intro c hc
    obtain ⟨digit, hdigit, rfl⟩ := List.mem_map.mp hc
    obtain ⟨value, hvalue, rfl⟩ := Numeral.exists_digitChar_of_mem_hexDigitsPadded hdigit
    exact (by decide : ∀ value < 16, Token.isNameChar value.digitChar.toUpper = true) value hvalue
  simp only [Token.isName, labelName, String.toList_append, String.toList_ofList]
  exact Bool.and_eq_true_iff.mpr ⟨by decide, List.all_eq_true.mpr hdigits⟩

/-- The line can be written in a script: its mnemonic and its keywords are names. -/
structure Line.Written (line : Line) : Prop where
  mnemonic : Token.isName line.mnemonic = true
  operands : ∀ operand ∈ line.operands, operand.token.Written

/-- The word that is listed for an operand is a name. -/
theorem token_written {kind : OperandKind} {value : Option UInt32} {operand : Operand}
    (h : operand? kind value = some operand) : operand.token.Written := by
  have hchoices : ∀ set : KeywordSet, ∀ choice ∈ set.choices, Token.isName choice.1 = true := by
    intro set
    cases set <;> decide
  cases kind with
  | value =>
      cases h
      trivial
  | label =>
      obtain ⟨address, _, rfl⟩ := Option.map_eq_some_iff.mp h
      exact isName_labelName address
  | keyword set =>
      cases value with
      | none =>
          obtain ⟨choice, hchoice, rfl⟩ := Option.map_eq_some_iff.mp h
          exact hchoices set choice (List.mem_of_head? hchoice)
      | some value =>
          simp only [operand?] at h
          split at h
          · obtain ⟨word, hword, rfl⟩ := Option.map_eq_some_iff.mp h
            obtain ⟨choice, hchoice, rfl⟩ := Option.map_eq_some_iff.mp hword
            exact hchoices set choice (List.mem_of_find?_eq_some hchoice)
          · cases h

/-- The words that are listed for operands are names. -/
theorem tokens_written {kinds : List OperandKind} {values : List (Option UInt32)}
    {operands : List Operand} (h : operands? kinds values = some operands) :
    ∀ operand ∈ operands, operand.token.Written := by
  fun_induction operands? kinds values generalizing operands with
  | case1 => cases h
  | case2 => cases h
  | case3 kind kinds value values operand hoperand rest hrest ih =>
      cases h
      intro other hother
      rcases List.mem_cons.mp hother with rfl | hother
      · exact token_written hoperand
      · exact ih hrest other hother
  | case4 =>
      cases h
      simp

/-- A line that was decoded with instructions whose mnemonics are names can be written. -/
theorem decode_written {candidates : List Instruction}
    (hnames : ∀ instruction ∈ candidates, Token.isName instruction.mnemonic = true)
    (address : UInt32) (record : Bytes) : (decode candidates address record).Written := by
  unfold decode
  cases hfound : candidates.findSome? (match? address record) with
  | none =>
      refine ⟨(by decide : Token.isName Grammar.rawMnemonic = true), fun operand hoperand => ?_⟩
      obtain ⟨byte, _, rfl⟩ := List.mem_map.mp hoperand
      trivial
  | some line =>
      obtain ⟨instruction, hmem, hmatch⟩ := List.exists_of_findSome?_eq_some hfound
      obtain ⟨_, _, operands, _, hoperands, rfl⟩ := match?_eq_some_iff.mp hmatch
      exact ⟨hnames instruction hmem, tokens_written hoperands⟩

/-- The statements that give labels to addresses which start no line. -/
def outside (starts targets : List UInt32) : List Statement :=
  (targets.filter fun target => !starts.contains target).map fun target =>
    .label (labelName target) (.number target)

/-- The statement that marks an address with its label, if it is referred to. -/
def mark (targets : List UInt32) (address : UInt32) : List Statement :=
  if targets.contains address then [.mark (labelName address)] else []

/-- The line as a statement. -/
def Line.statement (line : Line) : Statement :=
  .instruction line.mnemonic (line.operands.map Operand.token)

/-- The statements that the script of the given lines consists of. -/
def statements (lines : List Line) (stop : UInt32) : List Statement :=
  outside (lines.map Line.address ++ [stop]) (targetsOf lines) ++
    lines.flatMap (fun line => mark (targetsOf lines) line.address ++ [line.statement]) ++
    mark (targetsOf lines) stop

/-- A line that starts with a token which is no comment, with more such tokens behind spaces, is
read as the statement that the tokens form. -/
theorem holds_spaced (indent : Nat) (token : Token) (tokens : List Token) {statement : Statement}
    (hwritten : ∀ other ∈ token :: tokens, other.Written)
    (hcomment : ∀ other ∈ token :: tokens, other.isComment = false)
    (hstatement : ∀ place, Statement.ofTokens place (token :: tokens) = .ok statement) :
    Holds (List.replicate indent ' ' ++ (token.text.toList ++
      tokens.flatMap fun other => ' ' :: other.text.toList) ++ ['\n']) [statement] := by
  apply Holds.line
  · intro c hc
    simp only [List.mem_append, List.mem_replicate, List.mem_flatMap, List.mem_cons] at hc
    rcases hc with ⟨_, rfl⟩ | hc | ⟨other, hother, rfl | hc⟩
    · exact .inl rfl
    · exact .inr (Token.isBlank_of_mem_text (hwritten token List.mem_cons_self)
        (hcomment token List.mem_cons_self) hc)
    · exact .inl rfl
    · exact .inr (Token.isBlank_of_mem_text (hwritten other (List.mem_cons_of_mem _ hother))
        (hcomment other (List.mem_cons_of_mem _ hother)) hc)
  · intro number
    refine ⟨token :: tokens, ?_, hstatement _⟩
    rw [Token.scan, Token.scanFrom_replicate,
      Token.scanFrom_text (hwritten token List.mem_cons_self)
        (Token.stops_spaced (hcomment token List.mem_cons_self) tokens),
      Token.scanFrom_spaced (fun other hother => hwritten other (List.mem_cons_of_mem _ hother))
        (fun other hother => hcomment other (List.mem_cons_of_mem _ hother))]
    rfl

/-- An operand is no comment. -/
theorem Operand.isComment_token (operand : Operand) : operand.token.isComment = false := by
  cases operand <;> rfl

/-- The last of the operands is no comment, so none is cut off. -/
theorem ofTokens_keyword (place : Place) (mnemonic : String) (operands : List Operand) :
    Statement.ofTokens place (.keyword mnemonic :: operands.map Operand.token) =
      .ok (.instruction mnemonic (operands.map Operand.token)) := by
  have hkept : Token.withoutComment (.keyword mnemonic :: operands.map Operand.token) =
      .keyword mnemonic :: operands.map Operand.token := by
    unfold Token.withoutComment
    split
    · rename_i remark hlast
      rcases List.mem_cons.mp (List.mem_of_getLast? hlast) with hfirst | hmem
      · cases hfirst
      · obtain ⟨operand, _, htoken⟩ := List.mem_map.mp hmem
        have := operand.isComment_token
        rw [htoken] at this
        cases this
    · rfl
  simp [Statement.ofTokens, hkept]

/-- The text of an instruction holds its statement. -/
theorem holds_line {line : Line} (h : line.Written) :
    Holds ("    " ++ line.text ++ "\n").toList [line.statement] := by
  have htext : ("    " ++ line.text ++ "\n").toList =
      List.replicate 4 ' ' ++ ((Token.keyword line.mnemonic).text.toList ++
        (line.operands.map Operand.token).flatMap fun other => ' ' :: other.text.toList) ++
        ['\n'] := by
    simp only [Line.text, String.toList_append, String.toList_join, List.flatMap_map,
      Operand.text_token]
    rfl
  rw [htext]
  apply holds_spaced
  · intro other hother
    rcases List.mem_cons.mp hother with rfl | hother
    · exact h.mnemonic
    · obtain ⟨operand, hoperand, rfl⟩ := List.mem_map.mp hother
      exact h.operands operand hoperand
  · intro other hother
    rcases List.mem_cons.mp hother with rfl | hother
    · rfl
    · obtain ⟨operand, _, rfl⟩ := List.mem_map.mp hother
      exact operand.isComment_token
  · exact fun place => ofTokens_keyword place line.mnemonic line.operands

/-- The text that gives a label to an address outside holds its statement. -/
theorem holds_outside (target : UInt32) :
    Holds ("." ++ labelName target ++ " " ++ Numeral.hex target.toNat ++ "\n").toList
      [.label (labelName target) (.number target)] := by
  have hspaced : Holds _ [.label (labelName target) (.number target)] :=
    holds_spaced 0 (.label (labelName target)) [.number target]
      (by simp [Token.Written, isName_labelName]) (by simp [Token.isComment]) (fun _ => rfl)
  simpa [Token.text] using hspaced

/-- The text that marks an address holds the statement, if there is one. -/
theorem holds_mark (targets : List UInt32) (address : UInt32) :
    Holds (markText targets address).toList (mark targets address) := by
  unfold markText mark
  split
  · have hname : Token.Written (.label (labelName address)) := isName_labelName address
    have hline : Holds (((Token.label (labelName address)).text.toList ++ [':']) ++ ['\n'])
        [.mark (labelName address)] := by
      apply Holds.line
      · intro c hc
        rcases List.mem_append.mp hc with hc | hc
        · exact .inr (Token.isBlank_of_mem_text hname rfl hc)
        · obtain rfl : c = ':' := by simpa using hc
          exact .inr (by decide)
      · intro number
        refine ⟨[.label (labelName address), .colon], ?_, rfl⟩
        have hstops : Token.Stops (.label (labelName address)) [':'] := by
          intro c hc
          cases hc
          decide
        have hcolon : Token.Written .colon := trivial
        rw [Token.scan, Token.scanFrom_text hname hstops,
          show [':'] = Token.colon.text.toList ++ [] from rfl,
          Token.scanFrom_text hcolon (Token.stops_nil _), Token.scanFrom_nil]
        rfl
    simpa [Token.text] using hline
  · exact .nil

/-- The lines of the script for lines that can be written are read as its statements. -/
theorem reads_render {lines : List Line} (h : ∀ line ∈ lines, line.Written) (stop : UInt32) :
    List.Forall₂ Statement.ReadFrom (linesOf (render lines stop)) (statements lines stop) := by
  have htext : (render lines stop).toList =
      ((targetsOf lines).filter fun target =>
          !(lines.map Line.address ++ [stop]).contains target).flatMap (fun target =>
        ("." ++ labelName target ++ " " ++ Numeral.hex target.toNat ++ "\n").toList) ++
      lines.flatMap (fun line => (markText (targetsOf lines) line.address).toList ++
        ("    " ++ line.text ++ "\n").toList) ++
      (markText (targetsOf lines) stop).toList := by
    simp [render, outsideText, String.toList_join, List.flatMap_map]
  rw [linesOf, htext]
  apply Holds.reads
  refine ((Holds.map fun target _ => holds_outside target).append
    (Holds.flatMap fun line hline => ?_)).append (holds_mark _ stop)
  exact (holds_mark _ line.address).append (holds_line (h line hline))

end Listing

end EventScript
