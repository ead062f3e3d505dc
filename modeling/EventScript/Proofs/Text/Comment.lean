import Mathlib.Data.List.Forall2
import EventScript.Proofs.Text

/-!
# Texts that differ in comments

A comment is what stands behind a semicolon. `Recomments` relates two lines with different comments
and `Recommented` two texts of several lines. The first is kept by `trim` and told from the words of
the lines (`words_comment`); a text put together from such lines is related by the second, and
`lines_recommented` takes it apart again.
-/

namespace EventScript.Text

/-- The lines are the same up to a semicolon. -/
def Recomments (text other : List Char) : Prop :=
  ∃ front remark otherRemark, text = front ++ ';' :: remark ∧ other = front ++ ';' :: otherRemark

/-- Trimming a line leaves its semicolons. -/
theorem trim_comment (front remark : List Char) :
    trim (front ++ ';' :: remark) = trimStart front ++ ';' :: trimEnd remark := by
  have hstop : ∀ rest : List Char, ∀ c ∈ (';' :: rest).head?, isBlank c = false := by
    intro rest c hc
    cases hc
    decide
  rw [trim, trimStart, dropWhile_append_of_head (hstop _), trimEnd, List.reverse_append,
    List.reverse_cons, List.append_assoc, List.singleton_append, dropWhile_append_of_head (hstop _),
    List.reverse_append,
    List.reverse_cons, List.reverse_reverse, List.append_assoc]
  rfl

/-- Trimmed lines differ where the lines did. -/
theorem Recomments.trim {text other : List Char} (h : Recomments text other) :
    Recomments (trim text) (trim other) := by
  obtain ⟨front, remark, otherRemark, rfl, rfl⟩ := h
  exact ⟨_, _, _, trim_comment front remark, trim_comment front otherRemark⟩

/-- Lines that differ behind a semicolon start with the same character. -/
theorem Recomments.head? {text other : List Char} (h : Recomments text other) :
    text.head? = other.head? := by
  obtain ⟨front, remark, otherRemark, rfl, rfl⟩ := h
  cases front <;> rfl

/-- A blank ends an empty piece. -/
theorem pieces_blank {c : Char} (hblank : isBlank c = true) (text : List Char) :
    pieces (c :: text) = [] :: pieces text := by
  rw [pieces, if_pos hblank]

/-- Any other character belongs to the piece behind it. -/
theorem pieces_cons {c : Char} (hblank : isBlank c = false) {text piece : List Char}
    {more : List (List Char)}
    (h : pieces text = piece :: more) : pieces (c :: text) = (c :: piece) :: more := by
  rw [pieces, h]
  simp [hblank]

/-- Every text has a first piece. -/
theorem exists_pieces (text : List Char) : ∃ piece more, pieces text = piece :: more := by
  induction text with
  | nil => exact ⟨[], [], rfl⟩
  | cons c rest ih =>
      obtain ⟨piece, more, hpieces⟩ := ih
      cases hblank : isBlank c with
      | true => exact ⟨[], pieces rest, pieces_blank hblank rest⟩
      | false => exact ⟨c :: piece, more, pieces_cons hblank hpieces⟩

/-- No blank stands in a piece between blanks. -/
theorem isBlank_of_mem_pieces {text piece : List Char} (hpiece : piece ∈ pieces text) {c : Char}
    (hc : c ∈ piece) : isBlank c = false := by
  induction text generalizing piece with
  | nil =>
      rw [pieces, List.mem_singleton] at hpiece
      rw [hpiece] at hc
      cases hc
  | cons first rest ih =>
      cases hblank : isBlank first with
      | true =>
          rw [pieces_blank hblank] at hpiece
          rcases List.mem_cons.mp hpiece with rfl | hpiece
          · cases hc
          · exact ih hpiece hc
      | false =>
          obtain ⟨next, more, hpieces⟩ := exists_pieces rest
          rw [pieces_cons hblank hpieces] at hpiece
          rw [hpieces] at ih
          rcases List.mem_cons.mp hpiece with rfl | hpiece
          · rcases List.mem_cons.mp hc with rfl | hc
            · exact hblank
            · exact ih List.mem_cons_self hc
          · exact ih (List.mem_cons_of_mem _ hpiece) hc

/-- No line feed stands in a word. -/
theorem lineFeed_not_mem_word {text word : List Char} (h : word ∈ words text) : '\n' ∉ word := by
  intro hfeed
  have := isBlank_of_mem_pieces (List.mem_of_mem_filter h) hfeed
  exact absurd this (by decide)

/-- The pieces of a line up to its first semicolon do not depend on the comment. -/
theorem pieces_comment {front : List Char} (hfront : ';' ∉ front) :
    ∃ before part, (∀ piece ∈ before, ';' ∉ piece) ∧
      ∀ remark, ∃ more later,
        pieces (front ++ ';' :: remark) = before ++ (part ++ ';' :: more) :: later := by
  induction front with
  | nil =>
      refine ⟨[], [], by simp, fun remark => ?_⟩
      obtain ⟨more, later, hpieces⟩ := exists_pieces remark
      exact ⟨more, later, pieces_cons (by decide) hpieces⟩
  | cons c rest ih =>
      obtain ⟨hc, hrest⟩ := not_or.mp (mt List.mem_cons.mpr hfront)
      obtain ⟨before, part, hbefore, hpieces⟩ := ih hrest
      cases hblank : isBlank c with
      | true =>
          refine ⟨[] :: before, part, by simpa using hbefore, fun remark => ?_⟩
          obtain ⟨more, later, heq⟩ := hpieces remark
          exact ⟨more, later, (pieces_blank hblank _).trans (congrArg ([] :: ·) heq)⟩
      | false =>
          cases before with
          | nil =>
              refine ⟨[], c :: part, by simp, fun remark => ?_⟩
              obtain ⟨more, later, heq⟩ := hpieces remark
              exact ⟨more, later, pieces_cons hblank heq⟩
          | cons piece before =>
              obtain ⟨hpiece, hbefore⟩ := List.forall_mem_cons.mp hbefore
              refine ⟨(c :: piece) :: before, part,
                List.forall_mem_cons.mpr ⟨by simp [hc, hpiece], hbefore⟩,
                fun remark => ?_⟩
              obtain ⟨more, later, heq⟩ := hpieces remark
              exact ⟨more, later, pieces_cons hblank heq⟩

/-- The words of a line up to its first semicolon do not depend on the comment. -/
theorem words_comment {front : List Char} (hfront : ';' ∉ front) :
    ∃ before part, (∀ word ∈ before, ';' ∉ word) ∧
      ∀ remark, ∃ more later,
        words (front ++ ';' :: remark) = before ++ (part ++ ';' :: more) :: later := by
  obtain ⟨before, part, hbefore, hpieces⟩ := pieces_comment hfront
  refine ⟨before.filter fun piece => !piece.isEmpty, part,
    fun word hword => hbefore word (List.mem_of_mem_filter hword), fun remark => ?_⟩
  obtain ⟨more, later, heq⟩ := hpieces remark
  refine ⟨more, later.filter fun piece => !piece.isEmpty, ?_⟩
  rw [words, heq, List.filter_append, List.filter_cons_of_pos (by simp)]

/-- Texts joined by a separator, cut at one of them. -/
theorem intercalate_append_cons (separator : List Char) (before : List (List Char))
    (text : List Char) (later : List (List Char)) :
    separator.intercalate (before ++ text :: later) =
      before.flatMap (· ++ separator) ++ (text ++ later.flatMap (separator ++ ·)) := by
  induction before with
  | nil =>
      induction later generalizing text with
      | nil => simp
      | cons next later ih =>
          have hnext := ih next
          rw [List.nil_append] at hnext ⊢
          rw [List.intercalate_cons_cons, hnext]
          simp
  | cons first before ih =>
      obtain ⟨next, rest, hrest⟩ : ∃ next rest, before ++ text :: later = next :: rest := by
        cases before with
        | nil => exact ⟨text, later, rfl⟩
        | cons next more => exact ⟨next, more ++ text :: later, rfl⟩
      rw [List.cons_append, hrest, List.intercalate_cons_cons, ← hrest, ih]
      simp

/-- Lines that differ behind a semicolon differ behind their first one. -/
theorem Recomments.first {text other : List Char} (h : Recomments text other) :
    ∃ front remark otherRemark, ';' ∉ front ∧ text = front ++ ';' :: remark ∧
      other = front ++ ';' :: otherRemark := by
  obtain ⟨front, remark, otherRemark, rfl, rfl⟩ := h
  by_cases hfront : ';' ∈ front
  · obtain ⟨before, after, rfl, hbefore⟩ := List.eq_append_cons_of_mem hfront
    exact ⟨before, _, _, hbefore, by rw [List.append_assoc, List.cons_append],
      by rw [List.append_assoc, List.cons_append]⟩
  · exact ⟨front, remark, otherRemark, hfront, rfl, rfl⟩

/-- The texts differ at most behind semicolons, up to the end of their lines. -/
inductive Recommented : List Char → List Char → Prop where
  | nil : Recommented [] []
  | cons {text other} (c : Char) : Recommented text other → Recommented (c :: text) (c :: other)
  | last {remark otherRemark} : '\n' ∉ remark → '\n' ∉ otherRemark →
      Recommented (';' :: remark) (';' :: otherRemark)
  | comment {remark otherRemark text other} : '\n' ∉ remark → '\n' ∉ otherRemark →
      Recommented text other →
      Recommented (';' :: (remark ++ '\n' :: text)) (';' :: (otherRemark ++ '\n' :: other))

variable {text other : List Char}

/-- Equal texts in front. -/
theorem Recommented.append (h : Recommented text other) (front : List Char) :
    Recommented (front ++ text) (front ++ other) := by
  induction front with
  | nil => exact h
  | cons c front ih => exact .cons c ih

/-- Texts that differ in comments start with the same character. -/
theorem Recommented.head? (h : Recommented text other) : text.head? = other.head? := by
  cases h <;> rfl

/-- A character that ends no line stands in front of the first line behind it. -/
theorem lines_cons {c : Char} {rest : List Char} (hfeed : c ≠ '\n')
    (hreturn : c = '\r' → rest.head? ≠ some '\n') :
    lines (c :: rest) = (c :: (lines rest).headD []) :: (lines rest).tail := by
  rw [lines]
  · cases lines rest <;> rfl
  · exact hfeed
  · rintro after rfl rfl
    exact hreturn rfl rfl

/-- A text without line feeds is one line. -/
theorem lines_singleton {c : Char} {rest : List Char} (h : '\n' ∉ c :: rest) :
    lines (c :: rest) = [c :: rest] := by
  induction rest generalizing c with
  | nil =>
      rw [lines_cons (by rintro rfl; simp at h) (by simp)]
      rfl
  | cons next more ih =>
      obtain ⟨hc, hrest⟩ := not_or.mp (mt List.mem_cons.mpr h)
      rw [lines_cons (Ne.symm hc) (fun _ => by rintro ⟨rfl⟩; simp at hrest), ih hrest]
      rfl

/-- A line feed ends the line in front of it, which does not have a carriage return right before it.
-/
theorem exists_lines_append {front : List Char} (h : '\n' ∉ front) (rest : List Char) :
    ∃ line, lines (front ++ '\n' :: rest) = line :: lines rest ∧
      (front = line ∨ front = line ++ ['\r']) := by
  induction front with
  | nil => exact ⟨[], by rw [List.nil_append, lines], .inl rfl⟩
  | cons c more ih =>
      obtain ⟨hc, hmore⟩ := not_or.mp (mt List.mem_cons.mpr h)
      obtain ⟨line, hline, hfront⟩ := ih hmore
      by_cases hreturn : c = '\r' ∧ more = []
      · obtain ⟨rfl, rfl⟩ := hreturn
        exact ⟨[], by rw [List.cons_append, List.nil_append, lines], .inr rfl⟩
      · refine ⟨c :: line, ?_, hfront.imp (congrArg (c :: ·)) (congrArg (c :: ·))⟩
        rw [List.cons_append, lines_cons (Ne.symm hc), hline]
        · rfl
        · rintro rfl
          cases more with
          | nil => exact absurd ⟨rfl, rfl⟩ hreturn
          | cons next others =>
              rintro ⟨rfl⟩
              simp at hmore

/-- Texts that differ in comments have the same lines up to semicolons. -/
theorem lines_recommented (h : Recommented text other) :
    List.Forall₂ (fun line otherLine => line = otherLine ∨ Recomments line otherLine) (lines text)
      (lines other) := by
  induction h with
  | nil => exact .nil
  | @cons text other c h ih =>
      by_cases hfeed : c = '\n'
      · subst hfeed
        rw [lines, lines]
        exact .cons (.inl rfl) ih
      · by_cases hreturn : c = '\r' ∧ text.head? = some '\n'
        · obtain ⟨rfl, hhead⟩ := hreturn
          obtain ⟨rest, rfl⟩ := List.head?_eq_some_iff.mp hhead
          obtain ⟨otherRest, rfl⟩ := List.head?_eq_some_iff.mp (h.head? ▸ hhead)
          exact ih
        · have hboth : ∀ rest : List Char, text.head? = rest.head? → c = '\r' →
              rest.head? ≠ some '\n' :=
            fun rest hrest hc hhead => hreturn ⟨hc, hrest.trans hhead⟩
          rw [lines_cons hfeed (hboth text rfl), lines_cons hfeed (hboth other h.head?)]
          generalize lines text = below, lines other = otherBelow at ih ⊢
          cases ih with
          | nil => exact .cons (.inl rfl) .nil
          | cons hfirst hrest =>
              refine .cons ?_ hrest
              rcases hfirst with hsame | ⟨front, remark, otherRemark, hline, hother⟩
              · exact .inl (congrArg (c :: ·) hsame)
              · exact .inr ⟨c :: front, remark, otherRemark, congrArg (c :: ·) hline,
                  congrArg (c :: ·) hother⟩
  | @last remark otherRemark hremark hother =>
      rw [lines_singleton (by simp [hremark]), lines_singleton (by simp [hother])]
      exact .cons (.inr ⟨[], remark, otherRemark, rfl, rfl⟩) .nil
  | @comment remark otherRemark text other hremark hother _ ih =>
      obtain ⟨line, hline, _⟩ := exists_lines_append hremark text
      obtain ⟨otherLine, hotherLine, _⟩ := exists_lines_append hother other
      rw [lines_cons (by decide) (by simp), lines_cons (by decide) (by simp), hline, hotherLine]
      exact .cons (.inr ⟨[], line, otherLine, rfl, rfl⟩) ih

/-- The texts are the same up to a semicolon, behind which their last line is not left. -/
def Annotates (text other : List Char) : Prop :=
  ∃ front remark otherRemark, '\n' ∉ remark ∧ '\n' ∉ otherRemark ∧ text = front ++ ';' :: remark ∧
    other = front ++ ';' :: otherRemark

/-- Texts that are equal or differ in the comment at their end, with line feeds between them, differ
in comments. -/
theorem recommented_intercalate {texts others : List (List Char)}
    (h : List.Forall₂ (fun text other => text = other ∨ Annotates text other) texts others) :
    Recommented (['\n'].intercalate texts) (['\n'].intercalate others) := by
  induction h with
  | nil => exact .nil
  | @cons text other texts others hfirst hrest ih =>
      cases hrest with
      | nil =>
          rcases hfirst with rfl | ⟨front, remark, otherRemark, hremark, hother, rfl, rfl⟩
          · simpa using Recommented.nil.append text
          · simpa using (Recommented.last hremark hother).append front
      | @cons next otherNext texts others =>
          rw [List.intercalate_cons_cons, List.intercalate_cons_cons]
          rcases hfirst with rfl | ⟨front, remark, otherRemark, hremark, hother, rfl, rfl⟩
          · simpa using (Recommented.cons '\n' ih).append text
          · simpa using (Recommented.comment hremark hother ih).append front

end EventScript.Text
