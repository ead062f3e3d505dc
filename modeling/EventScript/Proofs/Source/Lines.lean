import EventScript.Proofs.Source.Directives

/-!
# Lines of a source and their texts

Reading a source groups its lines: each source line stands on one line and takes in the continuation
lines behind it, and depends on no others (`classify_congr`). So one source line is read from every
line that continues none (`forall₂_standing`). `spread` gives every line of the source a text, that
of its source line or an empty one for a continuation line, and `getElem?_spread` says which text
every single line gets.
-/

namespace EventScript

open Text

namespace SourceLine

/-- The source line was read from the line at the given place, counted from zero, and says what that
line says. The first line has number `start`. -/
structure ReadAt (start : Nat) (lines : List (List Char)) (place : Nat) (line : SourceLine) :
    Prop where
  number_eq : line.number = start + place
  read : ∃ text, lines[place]? = some text ∧ line.text = String.ofList (trim text) ∧
    (line.directive, line.absorbed) = classify (trim text) (lines.drop (place + 1)) ∧
    line.directive.Says (trim text) (lines.drop (place + 1)) line.absorbed

/-- The line at the given place continues the source line. -/
def Absorbs (start place : Nat) (line : SourceLine) : Prop :=
  line.number < start + place ∧ start + place ≤ line.number + line.absorbed

/-- A value is continued by lines that are there. -/
theorem continued_le (value : List Char) (following : List (List Char)) :
    (continued value following).2 ≤ following.length := by
  induction following generalizing value with
  | nil => exact Nat.le_refl 0
  | cons next rest ih =>
      rw [continued]
      cases beforeBackslash? value with
      | none => exact Nat.zero_le _
      | some front => exact Nat.succ_le_succ (ih _)

/-- A line takes in lines that are there. -/
theorem classify_le (line : List Char) (following : List (List Char)) :
    (classify line following).2 ≤ following.length := by
  unfold classify
  simp only
  repeat' split
  all_goals first | exact Nat.zero_le _ | exact continued_le _ _

/-- How a value is continued depends on the lines that continue it and on whether there are more. -/
theorem continued_congr {value : List Char} {following others : List (List Char)}
    (hlength : others.length = following.length)
    (h : others.take (continued value following).2 = following.take (continued value following).2) :
    continued value others = continued value following := by
  induction following generalizing value others with
  | nil => rw [List.length_eq_zero_iff.mp hlength]
  | cons next rest ih =>
      cases others with
      | nil => cases hlength
      | cons other otherRest =>
          simp only [continued] at h ⊢
          cases hfront : beforeBackslash? value with
          | none => rfl
          | some front =>
              simp only [hfront, List.take_succ_cons, List.cons.injEq] at h
              obtain ⟨rfl, hrest⟩ := h
              simp only [ih (Nat.succ.inj hlength) hrest]

/-- A line is a definition, or the lines behind it have no part in it. -/
theorem classify_cases (line : List Char) :
    (∃ read, ∀ following, classify line following = read) ∨
      ∃ name, ∀ following, classify line following =
        (.define name (String.ofList (continued (valueOf line) following).1),
          (continued (valueOf line) following).2) := by
  unfold classify
  simp only
  repeat' split
  all_goals first | exact .inl ⟨_, fun _ => rfl⟩ | exact .inr ⟨_, fun _ => rfl⟩

/-- What a line asks for depends on the lines it takes in and on whether there are more. -/
theorem classify_congr {line : List Char} {following others : List (List Char)}
    (hlength : others.length = following.length)
    (h : others.take (classify line following).2 = following.take (classify line following).2) :
    classify line others = classify line following := by
  rcases classify_cases line with ⟨read, hread⟩ | ⟨name, hread⟩
  · rw [hread, hread]
  · simp only [hread] at h ⊢
    rw [continued_congr hlength h]

/-- The lines that are no directives are told by their first character. -/
theorem classify_text {line : List Char} (h : line.head? ≠ some '#')
    (following : List (List Char)) :
    classify line following = (.text ((Text.words line).map String.ofList), 0) := by
  simp only [classify, h, ne_eq, not_false_eq_true, if_true]

/-- An ordinary line does not start with `#`. -/
theorem head?_of_classify {line : List Char} {following : List (List Char)}
    {lineWords : List String}
    (h : (classify line following).1 = .text lineWords) : line.head? ≠ some '#' := by
  intro hhash
  simp only [classify, hhash, ne_eq, not_true_eq_false, if_false] at h
  repeat' split at h
  all_goals cases h

/-- Induction along the source lines: each is followed by those behind its continuation lines. -/
@[elab_as_elim]
theorem ofLines_induction {motive : Nat → List (List Char) → Prop} (nil : ∀ start, motive start [])
    (cons : ∀ start text following,
      motive (start + 1 + (classify (trim text) following).2)
        (following.drop (classify (trim text) following).2) → motive start (text :: following))
    (start : Nat) (lines : List (List Char)) : motive start lines :=
  ofLines.induct motive nil cons start lines

/-- One source line is read from every line that continues none, and it says what that line says. -/
theorem forall₂_standing (start : Nat) (lines : List (List Char)) :
    List.Forall₂
      (fun text line => ∃ following, line.directive.Says (trim text) following line.absorbed)
      (standing false lines) (ofLines start lines) := by
  induction start, lines using ofLines_induction with
  | nil start =>
      rw [standing, ofLines]
      exact .nil
  | cons start text following ih =>
      have hsays := says_classify (trim text) following
      rw [standing, ofLines, hsays.standing_eq]
      exact .cons ⟨following, hsays⟩ ih

variable {start : Nat} {lines : List (List Char)} {line : SourceLine}

/-- Source lines are numbered from the first on. -/
theorem le_number (h : line ∈ ofLines start lines) : start ≤ line.number := by
  induction start, lines using ofLines_induction with
  | nil start => simp [ofLines] at h
  | cons start text following ih =>
      rw [ofLines] at h
      rcases List.mem_cons.mp h with rfl | h
      · exact Nat.le_refl start
      · have := ih h
        omega

/-- What was read behind a source line and its continuation lines. -/
theorem ReadAt.shift {text : List Char} {following : List (List Char)} {absorbed place : Nat}
    (h : ReadAt (start + 1 + absorbed) (following.drop absorbed) place line) :
    ReadAt start (text :: following) (place + absorbed + 1) line := by
  obtain ⟨hnumber, other, hother, htext, hread, hsays⟩ := h
  have hdrop : (text :: following).drop (place + absorbed + 1 + 1) =
      (following.drop absorbed).drop (place + 1) := by
    rw [List.drop_succ_cons, List.drop_drop, Nat.add_comm place, Nat.add_assoc]
  refine ⟨by rw [hnumber]; omega, other, ?_, htext, ?_⟩
  · rw [List.getElem?_cons_succ, Nat.add_comm place, ← List.getElem?_drop]
    exact hother
  · rw [hdrop]
    exact ⟨hread, hsays⟩

end SourceLine

namespace Source

open SourceLine

/-- One text for every line: that of its source line, or an empty one for a continuation line. -/
def spread : List SourceLine → List String → List String
  | line :: lines, text :: texts => text :: (List.replicate line.absorbed "" ++ spread lines texts)
  | _, _ => []

/-- Every line gets one text. -/
theorem length_spread {start : Nat} {lines : List (List Char)} {texts : List String}
    (htexts : texts.length = (ofLines start lines).length) :
    (spread (ofLines start lines) texts).length = lines.length := by
  induction start, lines using ofLines_induction generalizing texts with
  | nil start => simp [ofLines, spread]
  | cons start text following ih =>
      have hle := classify_le (trim text) following
      rw [ofLines] at htexts ⊢
      cases texts with
      | nil => cases htexts
      | cons first rest =>
          have hrest := ih (Nat.succ.inj htexts)
          rw [List.length_drop] at hrest
          rw [spread, List.length_cons, List.length_append, List.length_replicate, hrest,
            List.length_cons, Nat.add_sub_cancel' hle]

/-- A line gets the text of the source line that was read from it, or an empty text if it continues
one. -/
theorem getElem?_spread {start : Nat} {lines : List (List Char)} {texts : List String}
    (htexts : texts.length = (ofLines start lines).length) {place : Nat}
    (hplace : place < lines.length) :
    ∃ (index : Nat) (line : SourceLine), (ofLines start lines)[index]? = some line ∧
      (ReadAt start lines place line ∧
        (spread (ofLines start lines) texts)[place]? = texts[index]? ∨
        Absorbs start place line ∧ (spread (ofLines start lines) texts)[place]? = some "") := by
  induction start, lines using ofLines_induction generalizing texts place with
  | nil start => cases hplace
  | cons start text following ih =>
      rw [ofLines] at htexts ⊢
      generalize hread : classify (trim text) following = read at ih htexts ⊢
      cases texts with
      | nil => cases htexts
      | cons first rest =>
          cases place with
          | zero =>
              have hsays := says_classify (trim text) following
              rw [hread] at hsays
              exact ⟨0, _, rfl, .inl ⟨⟨rfl, text, rfl, rfl, hread.symm, hsays⟩, rfl⟩⟩
          | succ place =>
              rw [spread, List.getElem?_cons_succ]
              by_cases habsorbed : place < read.2
              · refine ⟨0, _, rfl, .inr ⟨⟨?_, ?_⟩, ?_⟩⟩
                · exact Nat.lt_add_of_pos_right (Nat.succ_pos place)
                · exact Nat.add_le_add_left habsorbed start
                · rw [List.getElem?_append_left (by simpa using habsorbed)]
                  exact List.getElem?_replicate_of_lt habsorbed
              · -- The line belongs to what was read behind the continuation lines.
                obtain ⟨later, rfl⟩ : ∃ later, place = later + read.2 := ⟨place - read.2, by omega⟩
                have hlater : later < (following.drop read.2).length := by
                  rw [List.length_drop]
                  rw [List.length_cons] at hplace
                  omega
                obtain ⟨index, line, hline, hcase⟩ := ih (Nat.succ.inj htexts) hlater
                refine ⟨index + 1, line, hline, ?_⟩
                rw [List.getElem?_append_right (by simp), List.length_replicate, Nat.add_sub_cancel]
                rcases hcase with ⟨hlater, htext⟩ | ⟨⟨hlow, hhigh⟩, htext⟩
                · exact .inl ⟨hlater.shift, htext⟩
                · exact .inr ⟨⟨by omega, by omega⟩, htext⟩

end Source

end EventScript
