import Mathlib.Data.List.TakeWhile
import EventScript.Proofs.Text.Comment

/-!
# The words of a text

A blank divides the words in front of it from those behind it (`words_append_blank`). Hence trimming
a line keeps its words, a text has the words of its lines (`words_eq_flatMap_lines`), and words
joined by single spaces are taken apart again (`words_intercalate`). Joining lines by line feeds and
cutting the result gives the same lines, except that an empty last line is lost
(`lines_intercalate`).
-/

namespace EventScript.Text

variable {c : Char} {text rest : List Char}

/-- A blank divides the pieces in front of it from those behind it. -/
theorem pieces_append_blank (hblank : isBlank c = true) (text rest : List Char) :
    pieces (text ++ c :: rest) = pieces text ++ pieces rest := by
  induction text with
  | nil => exact pieces_blank hblank rest
  | cons first text ih =>
      cases hfirst : isBlank first with
      | true =>
          rw [List.cons_append, pieces_blank hfirst, pieces_blank hfirst, ih, List.cons_append]
      | false =>
          obtain ⟨piece, more, hpieces⟩ := exists_pieces text
          rw [hpieces] at ih
          rw [List.cons_append, pieces_cons hfirst ih, pieces_cons hfirst hpieces]
          rfl

/-- A blank divides the words in front of it from those behind it. -/
theorem words_append_blank (hblank : isBlank c = true) (text rest : List Char) :
    words (text ++ c :: rest) = words text ++ words rest := by
  rw [words, pieces_append_blank hblank, List.filter_append, words, words]

/-- A blank in front belongs to no word. -/
theorem words_blank (hblank : isBlank c = true) (text : List Char) :
    words (c :: text) = words text :=
  words_append_blank hblank [] text

/-- A text without blanks is one word, unless it is empty. -/
theorem words_of_isBlank_eq_false (htext : ∀ c ∈ text, isBlank c = false) (hne : text ≠ []) :
    words text = [text] := by
  have hpieces : pieces text = [text] := by
    clear hne
    induction text with
    | nil => rfl
    | cons first text ih =>
        obtain ⟨hfirst, hrest⟩ := List.forall_mem_cons.mp htext
        exact pieces_cons hfirst (ih hrest)
  rw [words, hpieces]
  simp [hne]

/-- A run without blanks is the first word of the text, unless it is empty. -/
theorem words_append (htext : ∀ c ∈ text, isBlank c = false)
    (hrest : ∀ c ∈ rest.head?, isBlank c = true) :
    words (text ++ rest) = if text = [] then words rest else text :: words rest := by
  split
  · rename_i hempty
    rw [hempty, List.nil_append]
  · rename_i hne
    cases rest with
    | nil => rw [List.append_nil, words_of_isBlank_eq_false htext hne]; rfl
    | cons c rest =>
        have hblank := hrest c rfl
        rw [words_append_blank hblank, words_of_isBlank_eq_false htext hne, words_blank hblank]
        rfl

/-- A text that does not start with a blank is a word and what stands behind it. -/
theorem exists_word (hblank : isBlank c = false) (rest : List Char) :
    ∃ word later, rest = word ++ later ∧ (∀ d ∈ c :: word, isBlank d = false) ∧
      (∀ d ∈ later.head?, isBlank d = true) ∧ words (c :: rest) = (c :: word) :: words later := by
  have hword : ∀ d ∈ c :: rest.takeWhile (fun d => !isBlank d), isBlank d = false := by
    refine List.forall_mem_cons.mpr ⟨hblank, fun d hd => ?_⟩
    simpa using List.mem_takeWhile_imp hd
  have hlater : ∀ d ∈ (rest.dropWhile fun d => !isBlank d).head?, isBlank d = true := by
    intro d hd
    have hstop := List.head?_dropWhile_not (fun d => !isBlank d) rest
    rw [Option.mem_def.mp hd] at hstop
    simpa using hstop
  refine ⟨rest.takeWhile fun d => !isBlank d, rest.dropWhile fun d => !isBlank d,
    List.takeWhile_append_dropWhile.symm, hword, hlater, ?_⟩
  have hwords := words_append hword hlater
  rwa [if_neg (List.cons_ne_nil _ _), List.cons_append, List.takeWhile_append_dropWhile] at hwords

/-- Blanks at the end belong to no word. -/
theorem words_append_blanks (text : List Char) {blanks : List Char}
    (h : ∀ c ∈ blanks, isBlank c = true) :
    words (text ++ blanks) = words text := by
  induction blanks generalizing text with
  | nil => rw [List.append_nil]
  | cons c blanks ih =>
      obtain ⟨hc, hblanks⟩ := List.forall_mem_cons.mp h
      have hrest := ih [] hblanks
      rw [List.nil_append] at hrest
      rw [words_append_blank hc, hrest]
      exact List.append_nil _

/-- Trimming a line at its start keeps its words. -/
theorem words_trimStart (text : List Char) : words (trimStart text) = words text := by
  induction text with
  | nil => rfl
  | cons c text ih =>
      cases hblank : isBlank c with
      | true =>
          rw [trimStart, List.dropWhile_cons_of_pos hblank, ← trimStart, ih, words_blank hblank]
      | false => rw [trimStart, List.dropWhile_cons_of_neg (by simp [hblank])]

/-- Trimming a line keeps its words. -/
theorem words_trim (text : List Char) : words (trim text) = words text := by
  have hsplit : trim text ++ ((trimStart text).reverse.takeWhile isBlank).reverse =
      trimStart text := by
    rw [trim, trimEnd, ← List.reverse_append, List.takeWhile_append_dropWhile, List.reverse_reverse]
  rw [← words_trimStart text, ← hsplit, words_append_blanks]
  intro c hc
  exact List.mem_takeWhile_imp (List.mem_reverse.mp hc)

/-- A line that is trimmed at its start begins with its first character that is not blank. -/
theorem head?_trimStart (text : List Char) :
    (trimStart text).head? = text.find? fun c => !isBlank c := by
  simp [trimStart, List.find?_eq_head?_dropWhile_not]

/-- No blank stands at the start of a line that is trimmed there. -/
theorem isBlank_of_trimStart (h : trimStart text = c :: rest) : isBlank c = false := by
  have hfound := List.find?_some ((head?_trimStart text).symm.trans (congrArg List.head? h))
  simpa using hfound

/-- A trimmed line begins with the first character of the line that is not blank. -/
theorem head?_trim (text : List Char) : (trim text).head? = text.find? fun c => !isBlank c := by
  rw [← head?_trimStart, trim]
  cases htrimmed : trimStart text with
  | nil => rfl
  | cons c rest =>
      have hblank := isBlank_of_trimStart htrimmed
      have hstop : ∀ d ∈ [c].head?, isBlank d = false := by
        rintro d ⟨rfl⟩
        exact hblank
      rw [trimEnd, List.reverse_cons, dropWhile_append_of_head hstop, List.reverse_append]
      rfl

/-- No blank stands at the end of a trimmed line. -/
theorem isBlank_of_trim {front : List Char} (h : trim text = front ++ [c]) : isBlank c = false := by
  have hreverse : trimStart (trimStart text).reverse = c :: front.reverse := by
    have hlast := congrArg List.reverse h
    rwa [trim, trimEnd, List.reverse_reverse, List.reverse_append] at hlast
  exact isBlank_of_trimStart hreverse

/-- Trimming a line at its start keeps what is not blank. -/
theorem mem_trimStart (hblank : isBlank c = false) : c ∈ trimStart text ↔ c ∈ text := by
  refine ⟨fun hc => (List.dropWhile_sublist isBlank).subset hc, fun hc => ?_⟩
  rw [← List.takeWhile_append_dropWhile (p := isBlank) (l := text)] at hc
  rcases List.mem_append.mp hc with hc | hc
  · rw [List.mem_takeWhile_imp hc] at hblank
    cases hblank
  · exact hc

/-- Trimming a line keeps what is not blank. -/
theorem mem_trim (hblank : isBlank c = false) : c ∈ trim text ↔ c ∈ text := by
  have hend : c ∈ trim text ↔ c ∈ trimStart (trimStart text).reverse := List.mem_reverse
  rw [hend, mem_trimStart hblank, List.mem_reverse, mem_trimStart hblank]

/-- A line without blanks is trimmed already. -/
theorem trim_eq_self (h : ∀ c ∈ text, isBlank c = false) : trim text = text := by
  have hstart : ∀ {text : List Char}, (∀ c ∈ text, isBlank c = false) → trimStart text = text := by
    intro text htext
    cases text with
    | nil => rfl
    | cons c rest => exact List.dropWhile_cons_of_neg (by simp [htext c List.mem_cons_self])
  have hend : trimStart text.reverse = text.reverse :=
    hstart fun c hc => h c (List.mem_reverse.mp hc)
  rw [trim, hstart h, trimEnd, ← trimStart, hend, List.reverse_reverse]

/-- A text has the words of its lines. -/
theorem words_eq_flatMap_lines (text : List Char) : words text = (lines text).flatMap words := by
  induction hlength : text.length using Nat.strongRecOn generalizing text with
  | ind length ih =>
      by_cases hfeed : '\n' ∈ text
      · obtain ⟨front, rest, rfl, hfront⟩ := List.eq_append_cons_of_mem hfeed
        obtain ⟨line, hlines, hline⟩ := exists_lines_append hfront rest
        have hwords : words front = words line := by
          rcases hline with rfl | rfl
          · rfl
          · exact words_append_blanks line (List.forall_mem_singleton.mpr (by decide))
        have hshorter : rest.length < length := by
          rw [← hlength, List.length_append, List.length_cons]
          omega
        have hrest := ih rest.length hshorter rest rfl
        rw [words_append_blank (by decide), hwords, hlines, hrest, List.flatMap_cons]
      · cases text with
        | nil => rfl
        | cons c rest => rw [lines_singleton hfeed, List.flatMap_singleton]

/-- Words joined by single spaces are taken apart again. -/
theorem words_intercalate {texts : List (List Char)}
    (h : ∀ word ∈ texts, word ≠ [] ∧ ∀ c ∈ word, isBlank c = false) :
    words ([' '].intercalate texts) = texts := by
  induction texts with
  | nil => rfl
  | cons word texts ih =>
      obtain ⟨⟨hne, hword⟩, hrest⟩ := List.forall_mem_cons.mp h
      cases texts with
      | nil => simpa using words_of_isBlank_eq_false hword hne
      | cons next texts =>
          rw [List.intercalate_cons_cons, List.append_assoc, List.singleton_append,
            words_append_blank (by decide), words_of_isBlank_eq_false hword hne, ih hrest]
          rfl

/-- Words are not empty and have no blanks. -/
theorem word_props {word : List Char} (h : word ∈ words text) :
    word ≠ [] ∧ ∀ c ∈ word, isBlank c = false := by
  obtain ⟨hpiece, hne⟩ := List.mem_filter.mp h
  exact ⟨by simpa using hne, fun c hc => isBlank_of_mem_pieces hpiece hc⟩

/-- Lines joined by line feeds are cut at these again; only an empty last line is lost. -/
theorem lines_intercalate {texts : List (List Char)}
    (h : ∀ text ∈ texts, ∀ c ∈ text, c ≠ '\n' ∧ c ≠ '\r') :
    texts = lines (['\n'].intercalate texts) ∨
    texts = lines (['\n'].intercalate texts) ++ [[]] := by
  induction texts with
  | nil => exact .inl rfl
  | cons text texts ih =>
      obtain ⟨htext, hrest⟩ := List.forall_mem_cons.mp h
      cases texts with
      | nil =>
          rw [List.intercalate_singleton]
          cases text with
          | nil => exact .inr rfl
          | cons c rest => exact .inl (lines_singleton fun hfeed => (htext _ hfeed).1 rfl).symm
      | cons next texts =>
          rw [List.intercalate_cons_cons, List.append_assoc, List.singleton_append,
            lines_append htext]
          exact (ih hrest).imp (congrArg (text :: ·)) (congrArg (text :: ·))

end EventScript.Text
