import EventScript.Proofs.Text.Words
import EventScript.Source.Expansion

/-!
# What the lines of a source say

`Directive.Says` lists which words of a line say which directive, with the value of a definition and
the lines on which it goes on. Reading a line finds what it says (`says_classify`). The lines on
which a definition goes on say nothing of their own: `standing` leaves them out, and needs only the
words of a line and the backslash at its end for it. It leaves out just the lines that reading takes
in (`Directive.Says.standing_eq`).
-/

namespace EventScript

open Text

/-- The words of a line. -/
def wordsOf (line : List Char) : List String :=
  (Text.words line).map String.ofList

/-- A text that starts with no blank has a first word. -/
theorem exists_wordsOf {c : Char} (hblank : isBlank c = false) (rest : List Char) :
    ∃ word later, rest = word ++ later ∧ (∀ d ∈ c :: word, isBlank d = false) ∧
      (∀ d ∈ later.head?, isBlank d = true) ∧
      wordsOf (c :: rest) = String.ofList (c :: word) :: wordsOf later := by
  obtain ⟨word, later, hrest, hword, hlater, hwords⟩ := exists_word hblank rest
  refine ⟨word, later, hrest, hword, hlater, ?_⟩
  rw [wordsOf, hwords, List.map_cons, wordsOf]

/-- Trimming a line keeps its words. -/
theorem wordsOf_trim (text : List Char) : wordsOf (trim text) = wordsOf text := by
  rw [wordsOf, words_trim, wordsOf]

/-- Trimming a line at its start keeps its words. -/
theorem wordsOf_trimStart (text : List Char) : wordsOf (trimStart text) = wordsOf text := by
  rw [wordsOf, words_trimStart, wordsOf]

/-- The first word of a line starts with the first character that is not blank. -/
theorem head?_wordsOf (text : List Char) :
    (wordsOf text).head?.bind (fun word => word.toList.head?) = (trim text).head? := by
  rw [← wordsOf_trim]
  have hfirst := head?_trim text
  cases htrimmed : trim text with
  | nil => rfl
  | cons c rest =>
      rw [htrimmed] at hfirst
      have hblank : isBlank c = false := by simpa using List.find?_some hfirst.symm
      obtain ⟨word, later, rfl, -, -, hwords⟩ := exists_wordsOf hblank rest
      rw [hwords, List.head?_cons, Option.bind_some, String.toList_ofList, List.head?_cons,
        List.head?_cons]

/-- Blanks in front belong to no word. -/
theorem wordsOf_blanks {gap : List Char} (hgap : ∀ c ∈ gap, isBlank c = true) (text : List Char) :
    wordsOf (gap ++ text) = wordsOf text := by
  rw [← wordsOf_trimStart, trimStart, List.dropWhile_append_of_pos hgap, ← trimStart,
    wordsOf_trimStart]

/-- A run without blanks is the first word. -/
theorem wordsOf_append {word rest : List Char} (hne : word ≠ [])
    (hword : ∀ c ∈ word, isBlank c = false) (hrest : ∀ c ∈ rest.head?, isBlank c = true) :
    wordsOf (word ++ rest) = String.ofList word :: wordsOf rest := by
  rw [wordsOf, words_append hword hrest, if_neg hne, List.map_cons, wordsOf]

/-- A text with a character that is not blank has a word. -/
theorem wordsOf_ne_nil {c : Char} {text : List Char} (hc : c ∈ text) (hblank : isBlank c = false) :
    wordsOf text ≠ [] := by
  rw [← wordsOf_trimStart]
  cases htrimmed : trimStart text with
  | nil =>
      have hmem := (mem_trimStart hblank).mpr hc
      rw [htrimmed] at hmem
      cases hmem
  | cons d rest =>
      obtain ⟨word, later, -, -, -, hwords⟩ :=
        exists_wordsOf (isBlank_of_trimStart htrimmed) rest
      rw [hwords]
      exact List.cons_ne_nil _ _

/-- The line defines the name by the value: behind `#define` stand blanks, the name and, behind one
blank more, the value. -/
inductive DefinesAs : (line name value : List Char) → Prop where
  | empty {gap name} : gap ≠ [] → (∀ c ∈ gap, isBlank c = true) →
      name ≠ [] → (∀ c ∈ name, isBlank c = false) →
      DefinesAs ("#define".toList ++ (gap ++ name)) name []
  | value {gap name blank value} : gap ≠ [] → (∀ c ∈ gap, isBlank c = true) →
      name ≠ [] → (∀ c ∈ name, isBlank c = false) → isBlank blank = true →
      DefinesAs ("#define".toList ++ (gap ++ (name ++ blank :: value))) name value

/-- The value with the lines on which it goes on, and how many these are. As long as it ends with a
backslash, a line feed and the next line stand in its place; at the end of the source it is dropped.
-/
inductive GoesOn : (value : List Char) → (following : List (List Char)) → (whole : List Char) →
    (count : Nat) → Prop where
  | ends {value following} : value.getLast? ≠ some '\\' → GoesOn value following value 0
  | last {front} : GoesOn (front ++ ['\\']) [] front 0
  | more {front next rest whole count} : GoesOn (front ++ '\n' :: trim next) rest whole count →
      GoesOn (front ++ ['\\']) (next :: rest) whole (count + 1)

/-- What a trimmed line says in front of others, and on how many of these it goes on. -/
inductive Directive.Says (line : List Char) (following : List (List Char)) :
    Directive → Nat → Prop where
  | text : line.head? ≠ some '#' → Says line following (.text (wordsOf line)) 0
  | ifdef {name rest} : wordsOf line = "#ifdef" :: name :: rest →
      Says line following (.opening false name) 0
  | ifndef {name rest} : wordsOf line = "#ifndef" :: name :: rest →
      Says line following (.opening true name) 0
  | otherwise {rest} : wordsOf line = "#else" :: rest → Says line following .otherwise 0
  | closing {rest} : wordsOf line = "#endif" :: rest → Says line following .closing 0
  | define {name value whole count} : DefinesAs line name value →
      GoesOn value following whole count →
      Says line following (.define (String.ofList name) (String.ofList whole)) count
  | malformed {word} : word ∈ ["#ifdef", "#ifndef", "#define"] → wordsOf line = [word] →
      Says line following .malformed 0
  | unknown {word rest} : line.head? = some '#' → wordsOf line = word :: rest →
      word ∉ ["#ifdef", "#ifndef", "#else", "#endif", "#define"] →
      Says line following (.unknown word) 0

/-- The line ends with a backslash, blanks apart. -/
def endsOpen (line : List Char) : Bool :=
  (trim line).getLast? == some '\\'

/-- The line defines a name by a value that goes on on the next line. -/
def opensValue (line : List Char) : Bool :=
  (wordsOf line).head? == some "#define" && decide (3 ≤ (wordsOf line).length) && endsOpen line

/-- The lines that say something of their own: those on which the value of a definition goes on are
left out. The flag says whether the first line is one of these. -/
def standing : Bool → List (List Char) → List (List Char)
  | _, [] => []
  | true, line :: rest => standing (endsOpen line) rest
  | false, line :: rest => line :: standing (opensValue line) rest

namespace SourceLine

/-- What stands in front of a final backslash. -/
theorem beforeBackslash?_eq_some_iff {value front : List Char} :
    beforeBackslash? value = some front ↔ value = front ++ ['\\'] := by
  constructor
  · intro h
    unfold beforeBackslash? at h
    split at h
    · rename_i rest hreverse
      cases h
      rw [← List.reverse_reverse value, hreverse, List.reverse_cons]
    · cases h
  · rintro rfl
    simp [beforeBackslash?]

/-- A value is continued by the lines on which it goes on. -/
theorem goesOn_continued (value : List Char) (following : List (List Char)) :
    GoesOn value following (continued value following).1 (continued value following).2 := by
  have hends : ∀ {value : List Char}, beforeBackslash? value = none →
      value.getLast? ≠ some '\\' := by
    intro value hnone hlast
    obtain ⟨front, hvalue⟩ := List.getLast?_eq_some_iff.mp hlast
    rw [beforeBackslash?_eq_some_iff.mpr hvalue] at hnone
    cases hnone
  induction following generalizing value with
  | nil =>
      rw [continued]
      cases hvalue : beforeBackslash? value with
      | none => exact .ends (hends hvalue)
      | some front =>
          rw [beforeBackslash?_eq_some_iff.mp hvalue]
          exact .last
  | cons next rest ih =>
      rw [continued]
      cases hvalue : beforeBackslash? value with
      | none => exact .ends (hends hvalue)
      | some front =>
          rw [beforeBackslash?_eq_some_iff.mp hvalue]
          exact .more (ih _)

/-- The text behind a first word. -/
theorem dropWhile_word {word later : List Char} (hword : ∀ c ∈ word, isBlank c = false)
    (hlater : ∀ c ∈ later.head?, isBlank c = true) :
    ((word ++ later).dropWhile fun c => !isBlank c) = later := by
  refine dropWhile_append_of_stop (fun c hc => ?_) (fun c hc => ?_)
  · rw [hword c hc, Bool.not_false]
  · rw [hlater c hc, Bool.not_true]

/-- A line whose first word is `#define` and which has another word defines this word. -/
theorem definesAs_valueOf {line : List Char} {name : String} {rest : List String}
    (hhash : line.head? = some '#') (hwords : wordsOf line = "#define" :: name :: rest) :
    DefinesAs line name.toList (valueOf line) := by
  obtain ⟨behindHash, rfl⟩ := List.head?_eq_some_iff.mp hhash
  have hsharp : isBlank '#' = false := by decide
  obtain ⟨word, later, rfl, hword, hlater, hfirst⟩ := exists_wordsOf hsharp behindHash
  obtain ⟨hdefine, hrest⟩ := List.cons.inj (hfirst.symm.trans hwords)
  have hdirective : '#' :: word = "#define".toList := by rw [← hdefine, String.toList_ofList]
  rw [← List.cons_append, hdirective]
  rw [hdirective] at hword
  -- Behind the directive stand blanks, and behind these the name.
  have hgap : ∀ c ∈ later.takeWhile isBlank, isBlank c = true := fun c hc =>
    List.mem_takeWhile_imp hc
  have hsplit : later.takeWhile isBlank ++ trimStart later = later :=
    List.takeWhile_append_dropWhile
  cases hnamed : trimStart later with
  | nil =>
      rw [← wordsOf_trimStart, hnamed] at hrest
      cases hrest
  | cons c behindName =>
      have hc := isBlank_of_trimStart hnamed
      obtain ⟨tail, final, rfl, hname, hfinal, hsecond⟩ := exists_wordsOf hc behindName
      rw [← wordsOf_trimStart, hnamed, hsecond] at hrest
      obtain rfl := (List.cons.inj hrest).1
      have hspelled : (String.ofList (c :: tail)).toList = c :: tail := String.toList_ofList
      rw [hspelled]
      have hgapne : later.takeWhile isBlank ≠ [] := by
        intro hempty
        rw [hempty, List.nil_append, hnamed] at hsplit
        rw [← hsplit] at hlater
        rw [hlater c rfl] at hc
        cases hc
      have hvalue : valueOf ("#define".toList ++ later) = final.tail := by
        rw [valueOf, dropWhile_word hword hlater, hnamed, ← List.cons_append,
          dropWhile_word hname hfinal]
        cases final <;> rfl
      rw [hvalue, ← hsplit, hnamed, ← List.cons_append]
      cases final with
      | nil =>
          rw [List.append_nil]
          exact .empty hgapne hgap (List.cons_ne_nil _ _) hname
      | cons blank value => exact .value hgapne hgap (List.cons_ne_nil _ _) hname (hfinal blank rfl)

/-- Reading a line finds what it says. -/
theorem says_classify (line : List Char) (following : List (List Char)) :
    (classify line following).1.Says line following (classify line following).2 := by
  unfold classify
  by_cases hhash : line.head? = some '#'
  · obtain ⟨behindHash, hline⟩ := List.head?_eq_some_iff.mp hhash
    have hsharp : isBlank '#' = false := by decide
    obtain ⟨word, later, -, -, -, hfirst⟩ := exists_wordsOf hsharp behindHash
    rw [← hline] at hfirst
    generalize String.ofList ('#' :: word) = directive at hfirst
    generalize wordsOf later = arguments at hfirst
    have hmapped : (Text.words line).map String.ofList = directive :: arguments := hfirst
    simp only [hhash, ne_eq, not_true_eq_false, if_false, hmapped]
    by_cases hopening : directive = "#ifdef" ∨ directive = "#ifndef"
    · rw [if_pos hopening]
      rcases hopening with rfl | rfl <;> cases arguments with
        | nil => exact .malformed (by simp) hfirst
        | cons name rest => first | exact .ifdef hfirst | exact .ifndef hfirst
    · rw [if_neg hopening]
      by_cases hotherwise : directive = "#else"
      · subst hotherwise
        exact .otherwise hfirst
      · rw [if_neg hotherwise]
        by_cases hclosing : directive = "#endif"
        · subst hclosing
          exact .closing hfirst
        · rw [if_neg hclosing]
          by_cases hdefine : directive = "#define"
          · subst hdefine
            cases arguments with
            | nil => exact .malformed (by simp) hfirst
            | cons name rest =>
                have hname := definesAs_valueOf hhash hfirst
                have hsays := Directive.Says.define hname (goesOn_continued _ following)
                rwa [String.ofList_toList] at hsays
          · rw [if_neg hdefine]
            refine .unknown hhash hfirst ?_
            simp [not_or.mp hopening, hotherwise, hclosing, hdefine]
  · simp only [hhash, ne_eq, not_false_eq_true, if_true]
    exact .text hhash

end SourceLine

/-- The words of a definition line are those of its value behind the directive and the name. -/
theorem DefinesAs.wordsOf_eq {line name value : List Char} (h : DefinesAs line name value) :
    wordsOf line = "#define" :: String.ofList name :: wordsOf value := by
  have hall : ("#define".toList.all fun c => !isBlank c) = true := by decide +kernel
  have hword : ∀ c ∈ "#define".toList, isBlank c = false := fun c hc =>
    (Bool.not_eq_true' _).mp (List.all_eq_true.mp hall c hc)
  have hdirective : ∀ {gap rest : List Char}, gap ≠ [] → (∀ c ∈ gap, isBlank c = true) →
      wordsOf ("#define".toList ++ (gap ++ rest)) = "#define" :: wordsOf rest := by
    intro gap rest hne hgap
    rw [wordsOf_append (by simp) hword, wordsOf_blanks hgap, String.ofList_toList]
    intro c hc
    cases gap with
    | nil => exact absurd rfl hne
    | cons blank gap =>
        cases hc
        exact hgap _ List.mem_cons_self
  cases h with
  | empty hgapne hgap hne hname =>
      rw [hdirective hgapne hgap, ← List.append_nil name, wordsOf_append hne hname (by simp),
        List.append_nil]
  | @value gap _ blank _ hgapne hgap hne hname hblank =>
      have hsplit : wordsOf (blank :: value) = wordsOf value :=
        wordsOf_blanks (List.forall_mem_singleton.mpr hblank) value
      rw [hdirective hgapne hgap, wordsOf_append hne hname (by simpa using hblank), hsplit]

/-- The value of a trimmed definition line goes on exactly if the line has a value and ends with a
backslash. -/
theorem DefinesAs.opensValue_eq {text name value : List Char}
    (h : DefinesAs (trim text) name value) :
    opensValue text = (value.getLast? == some '\\') := by
  have hwords := h.wordsOf_eq
  rw [wordsOf_trim] at hwords
  rw [opensValue, hwords, Bool.eq_iff_iff]
  simp only [List.head?_cons, beq_self_eq_true, Bool.true_and, List.length_cons, endsOpen,
    Bool.and_eq_true, decide_eq_true_eq, beq_iff_eq]
  generalize htrimmed : trim text = line at h
  cases h with
  | empty => simp [wordsOf, Text.words, pieces]
  | @value gap _ blank _ hgapne hgap hne hname hblank =>
      have hlast : value ≠ [] →
          ("#define".toList ++ (gap ++ (name ++ blank :: value))).getLast? = value.getLast? := by
        intro hvalue
        simp [List.getLast?_append, List.getLast?_cons, List.getLast?_eq_some_getLast hvalue]
      constructor
      · rintro ⟨hlength, hbackslash⟩
        have hvalue : value ≠ [] := by
          rintro rfl
          simp [wordsOf, Text.words, pieces] at hlength
        rwa [hlast hvalue] at hbackslash
      · intro hbackslash
        have hmem := List.mem_of_getLast? hbackslash
        have hword := List.length_pos_of_ne_nil (wordsOf_ne_nil hmem (by decide))
        refine ⟨by omega, ?_⟩
        rw [hlast (List.ne_nil_of_mem hmem)]
        exact hbackslash

/-- The lines on which a value goes on are left out. -/
theorem GoesOn.standing_eq {value whole : List Char} {following : List (List Char)} {count : Nat}
    (h : GoesOn value following whole count) :
    standing (value.getLast? == some '\\') following = standing false (following.drop count) := by
  induction h with
  | ends hlast => rw [beq_eq_false_iff_ne.mpr hlast, List.drop_zero]
  | last => rw [List.drop_nil, standing, standing]
  | @more front next rest whole count _ ih =>
      have hopen : ((front ++ '\n' :: trim next).getLast? == some '\\') = endsOpen next := by
        rw [endsOpen, List.getLast?_append, List.getLast?_cons]
        cases (trim next).getLast? <;> rfl
      have hlast : ((front ++ ['\\']).getLast? == some '\\') = true := by simp
      rw [hlast, standing, List.drop_succ_cons, ← hopen]
      exact ih

/-- The lines behind a line, apart from those on which it goes on. -/
theorem Directive.Says.standing_eq {text : List Char} {following : List (List Char)}
    {directive : Directive} {count : Nat} (h : directive.Says (trim text) following count) :
    standing (opensValue text) following = standing false (following.drop count) := by
  have hother : (wordsOf text).head? ≠ some "#define" → opensValue text = false := by
    intro hhead
    simp [opensValue, hhead]
  have hdirective : ∀ {word rest}, wordsOf (trim text) = word :: rest → word ≠ "#define" →
      opensValue text = false := by
    intro word rest hwords hword
    rw [wordsOf_trim] at hwords
    refine hother ?_
    rw [hwords, List.head?_cons, ne_eq, Option.some.injEq]
    exact hword
  cases h with
  | text hhash =>
      rw [hother fun hhead => hhash ?_, List.drop_zero]
      rw [← head?_wordsOf, hhead]
      rfl
  | ifdef hwords | ifndef hwords | otherwise hwords | closing hwords =>
      rw [hdirective hwords (by decide), List.drop_zero]
  | define hdefines hgoes =>
      rw [hdefines.opensValue_eq]
      exact hgoes.standing_eq
  | malformed _ hwords =>
      rw [wordsOf_trim] at hwords
      have hshort : opensValue text = false := by simp [opensValue, hwords]
      rw [hshort, List.drop_zero]
  | unknown _ hwords hword =>
      rw [hdirective hwords fun hdefine => hword (by simp [hdefine]), List.drop_zero]

end EventScript
