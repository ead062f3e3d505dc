import EventScript.Proofs.Assembly.Spacing
import EventScript.Proofs.Source.Comments

/-!
# Plain sources

A source without directives and defined words is expanded line by line, and each line keeps its
words: only the blanks between them change (`expand_plain`). Since lines with the same words are
read alike, such a source can as well be assembled without being expanded (`assembleSource_plain`).
-/

namespace EventScript

open Text

namespace Source

open SourceLine

/-- No line is a directive: its first character that is not blank is not `#`. -/
def Plain (source : String) : Prop :=
  ∀ line ∈ linesOf source, (line.find? fun c => !isBlank c) ≠ some '#'

instance (source : String) : Decidable (Plain source) :=
  inferInstanceAs (Decidable (∀ line ∈ linesOf source, (line.find? fun c => !isBlank c) ≠ some '#'))

/-- No word of the source is defined. -/
def Undefined (defines : Defines) (source : String) : Prop :=
  ∀ word ∈ Text.words source.toList, defines.get? (String.ofList word) = none

instance (defines : Defines) (source : String) : Decidable (Undefined defines source) :=
  inferInstanceAs
    (Decidable (∀ word ∈ Text.words source.toList, defines.get? (String.ofList word) = none))

variable {defines : Defines} {source : String}

/-- Lines that are no directives are expanded one by one, and nothing is defined. -/
theorem expandLines_plain (defines : Defines) (start : Nat) {lines : List (List Char)}
    (h : ∀ line ∈ lines, (line.find? fun c => !isBlank c) ≠ some '#') :
    expandLines defines [] (ofLines start lines) =
      (defines,
        .ok (lines.map fun line => substitute defines ((Text.words line).map String.ofList))) := by
  induction lines generalizing start with
  | nil =>
      rw [ofLines]
      rfl
  | cons line lines ih =>
      obtain ⟨hline, hlines⟩ := List.forall_mem_cons.mp h
      have hread := classify_text (head?_trim line ▸ hline) lines
      rw [ofLines, hread, words_trim]
      simp only [expandLines, step, kept, if_true, Nat.add_zero, List.drop_zero,
        ih (start + 1) hlines, List.replicate_zero, List.nil_append, List.map_cons]

/-- Words that are not defined are kept. -/
theorem toList_substitute_undefined {lineWords : List (List Char)}
    (h : ∀ word ∈ lineWords, defines.get? (String.ofList word) = none) :
    (substitute defines (lineWords.map String.ofList)).toList = [' '].intercalate lineWords := by
  have hkept : lineWords.map (replaced defines) = lineWords := by
    refine (List.map_congr_left fun word hword => ?_).trans (List.map_id _)
    rw [replaced, h word hword, Option.getD_none, String.toList_ofList, id]
  rw [toList_substitute, hkept]

/-- Neither a line feed nor a carriage return stands among words joined by spaces. -/
theorem stays_in_line {line : List Char} {c : Char} (h : c ∈ [' '].intercalate (Text.words line)) :
    c ≠ '\n' ∧ c ≠ '\r' := by
  apply ne_break
  cases hwords : Text.words line with
  | nil =>
      rw [hwords] at h
      cases h
  | cons word later =>
      have hword : ∀ other ∈ word :: later, ∀ d ∈ other, isBlank d = false := fun other hother =>
        (word_props (hwords ▸ hother)).2
      have hsplit := intercalate_append_cons [' '] [] word later
      rw [List.nil_append] at hsplit
      rw [hwords, hsplit, List.flatMap_nil, List.nil_append] at h
      rcases List.mem_append.mp h with hfirst | hrest
      · exact .inr (hword word List.mem_cons_self c hfirst)
      · obtain ⟨other, hother, hmem⟩ := List.mem_flatMap.mp hrest
        exact (List.mem_cons.mp hmem).imp_right (hword other (List.mem_cons_of_mem _ hother) c)

/-- A plain source without defined words is expanded to a text whose lines have the same words,
except that an empty last line may be lost. -/
theorem expand_plain (hplain : Plain source) (hundefined : Undefined defines source) :
    ∃ script, (expand defines source).2 = .ok script ∧
      ∃ texts,
        List.Forall₂ (fun line text => Text.words line = Text.words text) (linesOf source) texts ∧
        (texts = linesOf script ∨ texts = linesOf script ++ [[]]) := by
  have hexpand := expand_eq_ok_iff.mpr ⟨_, expandLines_plain defines 1 hplain, rfl⟩
  refine ⟨_, congrArg Prod.snd hexpand,
    (linesOf source).map fun line => [' '].intercalate (Text.words line), ?_, ?_⟩
  · rw [List.forall₂_map_right_iff]
    exact List.forall₂_same.mpr fun line _ =>
      (words_intercalate fun word hword => word_props hword).symm
  · have hlines : ∀ line ∈ linesOf source, ∀ word ∈ Text.words line,
        defines.get? (String.ofList word) = none := by
      intro line hline word hword
      refine hundefined word ?_
      rw [words_eq_flatMap_lines]
      exact List.mem_flatMap.mpr ⟨line, hline, hword⟩
    have hscript : linesOf ("\n".intercalate ((linesOf source).map fun line =>
          substitute defines ((Text.words line).map String.ofList))) =
        lines (['\n'].intercalate
          ((linesOf source).map fun line => [' '].intercalate (Text.words line))) := by
      rw [linesOf, String.toList_intercalate, List.map_map]
      exact congrArg (fun texts => lines (['\n'].intercalate texts))
        (List.map_congr_left fun line hline => toList_substitute_undefined (hlines line hline))
    rw [hscript]
    refine lines_intercalate fun text htext c hc => ?_
    obtain ⟨line, _, rfl⟩ := List.mem_map.mp htext
    exact stays_in_line hc

end Source

open Source

/-- Expanding a source without directives and defined words has no part in what it is assembled to:
it has the same assembly as it is, or none either way. -/
theorem assembleSource_plain (grammar : Grammar) (base : UInt32) (constants : Constants)
    {defines : Defines}
    {source : String} (hplain : Plain source) (hundefined : Undefined defines source)
    (assembly : Assembly) :
    (assembleSource grammar base constants defines source).2 = .ok assembly ↔
      assemble grammar base constants source = .ok assembly := by
  obtain ⟨script, hscript, texts, hwords, htexts⟩ := expand_plain hplain hundefined
  have halike : List.Forall₂ Assembly.ReadAlike (linesOf source) texts :=
    hwords.imp fun _ _ => Assembly.readAlike_of_words_eq
  rw [assembleSource_eq_ok_iff, hscript]
  simp only [Except.ok.injEq, exists_eq_left']
  exact (Assembly.assemble_eq_ok_iff_of_lines halike htexts).symm

/-- A source with tabs, a no-break space, a comment, both line endings and a last line of blanks is
assembled alike with and without expanding it. -/
theorem assembleSource_plain_blanks :
    Plain "\t.top:  ; the  start\r\n db\u00a01 \t 2\n \n" ∧
      Undefined ⟨[("D", "db 9 2")]⟩ "\t.top:  ; the  start\r\n db\u00a01 \t 2\n \n" ∧
      assemble .empty 0x8000000 .empty "\t.top:  ; the  start\r\n db\u00a01 \t 2\n \n" =
        .ok ⟨0x8000000, [⟨0x8000000, 2, "db", [1, 2]⟩], ⟨[("top", 0x8000000)]⟩⟩ ∧
      (assembleSource .empty 0x8000000 .empty ⟨[("D", "db 9 2")]⟩
        "\t.top:  ; the  start\r\n db\u00a01 \t 2\n \n").2 =
        .ok ⟨0x8000000, [⟨0x8000000, 2, "db", [1, 2]⟩], ⟨[("top", 0x8000000)]⟩⟩ := by
  have hplain : Plain "\t.top:  ; the  start\r\n db\u00a01 \t 2\n \n" := by decide +kernel
  have hundefined :
      Undefined ⟨[("D", "db 9 2")]⟩ "\t.top:  ; the  start\r\n db\u00a01 \t 2\n \n" := by
    decide +kernel
  have hassemble :
      assemble .empty 0x8000000 .empty "\t.top:  ; the  start\r\n db\u00a01 \t 2\n \n" =
      .ok ⟨0x8000000, [⟨0x8000000, 2, "db", [1, 2]⟩], ⟨[("top", 0x8000000)]⟩⟩ := by
    decide +kernel
  exact ⟨hplain, hundefined, hassemble,
    (assembleSource_plain _ _ _ hplain hundefined _).mpr hassemble⟩

end EventScript
