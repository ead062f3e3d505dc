import EventScript.Proofs.Assembly.Reading
import EventScript.Proofs.Source.Meaning
import EventScript.Proofs.Source.Outcome
import EventScript.Proofs.Text.Comment
import EventScript.Script

/-!
# Comments of a source

Words are replaced before a line is read, so a comment can have effects: a word in it may stand for
several lines, and the word with its semicolon may itself be defined (`comment_expands`). `Inert`
excludes just these two. Two sources that are the same but for comments are read as source lines
that are (`SameLines.ofLines`), and are expanded in step: both runs pass the same tables and open
blocks, and each line becomes the same line up to a comment (`expandLines_sameUpToComment`).
`assembleSource_comments` follows, since comments have no part in how a line is read.
-/

namespace EventScript

open Text

namespace SourceLine

variable {start place : Nat} {text : List Char} {following : List (List Char)} {line : SourceLine}

/-- The line at the given place, counted from zero, is an ordinary one: neither a directive nor a
continuation line. -/
def OrdinaryAt (start : Nat) (lines : List (List Char)) (place : Nat) : Prop :=
  ∃ line ∈ ofLines start lines, line.number = start + place ∧ ∃ words, line.directive = .text words

/-- The first line as an ordinary one. -/
theorem OrdinaryAt.head? (h : OrdinaryAt start (text :: following) 0) :
    (trim text).head? ≠ some '#' := by
  obtain ⟨line, hline, hnumber, lineWords, hdirective⟩ := h
  rw [ofLines] at hline
  rcases List.mem_cons.mp hline with rfl | hline
  · exact head?_of_classify hdirective
  · have := le_number hline
    omega

/-- An ordinary line below the first stands behind the lines that the first takes in. -/
theorem OrdinaryAt.tail (h : OrdinaryAt start (text :: following) (place + 1)) :
    ∃ later, place = (classify (trim text) following).2 + later ∧
      OrdinaryAt (start + 1 + (classify (trim text) following).2)
        (following.drop (classify (trim text) following).2) later := by
  obtain ⟨line, hline, hnumber, hordinary⟩ := h
  rw [ofLines] at hline
  rcases List.mem_cons.mp hline with rfl | hline
  · exact absurd hnumber (Nat.ne_of_lt (Nat.lt_add_of_pos_right (Nat.succ_pos place)))
  · have hle := le_number hline
    exact ⟨place - (classify (trim text) following).2, by omega, line, hline, by omega, hordinary⟩

/-- The source lines are the same but for the comment of an ordinary line. -/
inductive SameUpToComment : SourceLine → SourceLine → Prop where
  | same (line : SourceLine) : SameUpToComment line line
  | comment {number : Nat} {text other : List Char} : Recomments text other →
      SameUpToComment ⟨number, String.ofList text, .text ((Text.words text).map String.ofList), 0⟩
        ⟨number, String.ofList other, .text ((Text.words other).map String.ofList), 0⟩

/-- The lines are the same but for comments of ordinary lines. -/
structure SameLines (start : Nat) (lines others : List (List Char)) : Prop where
  length_eq : others.length = lines.length
  line : ∀ (place : Nat) (text other : List Char), lines[place]? = some text →
    others[place]? = some other →
    text = other ∨ Recomments text other ∧ OrdinaryAt start lines place

/-- Lines that differ in the comment of the last one. -/
theorem sameLines_of_last {lines others front : List (List Char)} {text other : List Char}
    (hlines : lines = front ++ [text]) (hothers : others = front ++ [other])
    (hremark : Recomments text other)
    (hordinary : OrdinaryAt start (front ++ [text]) front.length) :
    SameLines start lines others := by
  subst hlines
  subst hothers
  refine ⟨by simp, fun place first second hfirst hsecond => ?_⟩
  by_cases hlt : place < front.length
  · rw [List.getElem?_append_left hlt] at hfirst hsecond
    exact .inl (Option.some.inj (hfirst.symm.trans hsecond))
  · have hplace : place = front.length := by
      have := (List.getElem?_eq_some_iff.mp hfirst).1
      rw [List.length_append, List.length_singleton] at this
      omega
    subst hplace
    rw [List.getElem?_concat_length] at hfirst hsecond
    cases hfirst
    cases hsecond
    exact .inr ⟨hremark, hordinary⟩

variable {other : List Char} {otherFollowing : List (List Char)}

/-- The lines that the first one takes in are the same. -/
theorem SameLines.take_eq (h : SameLines start (text :: following) (other :: otherFollowing)) :
    otherFollowing.take (classify (trim text) following).2 =
      following.take (classify (trim text) following).2 := by
  have hlength : otherFollowing.length = following.length := Nat.succ.inj h.length_eq
  refine List.ext_getElem? fun index => ?_
  rw [List.getElem?_take, List.getElem?_take]
  split
  · rename_i htaken
    by_cases hlt : index < following.length
    · have hnext := List.getElem?_eq_getElem hlt
      have hotherNext := List.getElem?_eq_getElem (hlength ▸ hlt)
      rcases h.line (index + 1) _ _ hnext hotherNext with heq | ⟨_, hordinary⟩
      · rw [hnext, hotherNext, heq]
      · -- No ordinary line stands among the lines that are taken in.
        obtain ⟨later, hplace, _⟩ := hordinary.tail
        omega
    · rw [List.getElem?_eq_none (by omega), List.getElem?_eq_none (by omega)]
  · rfl

/-- The lines behind those that the first one takes in are the same but for comments. -/
theorem SameLines.drop (h : SameLines start (text :: following) (other :: otherFollowing)) :
    SameLines (start + 1 + (classify (trim text) following).2)
      (following.drop (classify (trim text) following).2)
      (otherFollowing.drop (classify (trim text) following).2) := by
  refine ⟨?_, fun place next otherNext hnext hotherNext => ?_⟩
  · rw [List.length_drop, List.length_drop, Nat.succ.inj h.length_eq]
  · rw [List.getElem?_drop] at hnext hotherNext
    refine (h.line (_ + 1) next otherNext hnext hotherNext).imp_right fun ⟨hremark, hordinary⟩ =>
      ⟨hremark, ?_⟩
    obtain ⟨later, hplace, hlater⟩ := hordinary.tail
    obtain rfl := Nat.add_left_cancel hplace
    exact hlater

/-- Lines that are the same but for comments are read as such source lines. -/
theorem SameLines.ofLines {lines others : List (List Char)} (h : SameLines start lines others) :
    List.Forall₂ SameUpToComment (ofLines start lines) (ofLines start others) := by
  induction start, lines using ofLines_induction generalizing others with
  | nil start =>
      rw [List.length_eq_zero_iff.mp h.length_eq, SourceLine.ofLines]
      exact .nil
  | cons start text following ih =>
      cases others with
      | nil => cases h.length_eq
      | cons other otherFollowing =>
          have hlength : otherFollowing.length = following.length := Nat.succ.inj h.length_eq
          have hrest := ih h.drop
          rw [SourceLine.ofLines, SourceLine.ofLines]
          rcases h.line 0 text other rfl rfl with rfl | ⟨hremark, hordinary⟩
          · rw [classify_congr hlength h.take_eq]
            exact .cons (.same _) hrest
          · -- Neither line takes in others, so what follows them is compared from the same place.
            have hhead := hordinary.head?
            have hother : (trim other).head? ≠ some '#' := hremark.trim.head? ▸ hhead
            rw [classify_text hhead] at hrest ⊢
            rw [classify_text hother]
            exact .cons (.comment hremark.trim) hrest

end SourceLine

namespace Source

open SourceLine

/-- The words of a line from the one with the first semicolon on. -/
def commentOf (words : List String) : List String :=
  words.dropWhile fun word => !word.toList.contains ';'

/-- The definitions leave the comment among words alone: the word with the first semicolon is not
defined, and no value of a word behind it goes on to another line. -/
def Inert (defines : Defines) (words : List String) : Prop :=
  (∀ word ∈ (commentOf words).head?, defines.get? word = none) ∧
    ∀ word ∈ (commentOf words).tail, ∀ value ∈ defines.get? word, '\n' ∉ value.toList

instance (defines : Defines) (words : List String) : Decidable (Inert defines words) :=
  inferInstanceAs (Decidable (_ ∧ _))

/-- Below the lines `above`, wherever lines that are kept differ, the definitions leave the comments
of both alone. -/
def Quiet (defines : Defines) (above lines others : List SourceLine) : Prop :=
  ∀ index line other flags, lines[index]? = some line → others[index]? = some other → line ≠ other →
    Selects defines (above ++ lines.take index) flags →
    Selected defines (above ++ lines.take index) flags →
    ∀ words, line.directive = .text words ∨ other.directive = .text words →
      Inert (overlay defines (definitions (above ++ lines.take index) flags)) words

/-- The words up to a semicolon that is the first. -/
theorem commentOf_append {before later : List (List Char)} {part more : List Char}
    (hbefore : ∀ word ∈ before, ';' ∉ word) :
    commentOf ((before ++ (part ++ ';' :: more) :: later).map String.ofList) =
      String.ofList (part ++ ';' :: more) :: later.map String.ofList := by
  rw [commentOf, List.map_append, List.dropWhile_append_of_pos]
  · rw [List.map_cons, List.dropWhile_cons_of_neg (by simp)]
  · intro word hword
    obtain ⟨chars, hchars, rfl⟩ := List.mem_map.mp hword
    simpa using hbefore chars hchars

/-- What stands for a word once it is replaced. -/
def replaced (table : Defines) (word : List Char) : List Char :=
  ((table.get? (String.ofList word)).getD (String.ofList word)).toList

/-- The words of a line, replaced and joined by single spaces. -/
theorem toList_substitute (table : Defines) (lineWords : List (List Char)) :
    (substitute table (lineWords.map String.ofList)).toList =
      [' '].intercalate (lineWords.map (replaced table)) := by
  rw [substitute, String.toList_intercalate, List.map_map, List.map_map]
  rfl

/-- A word stays in its line unless its value leaves it. -/
theorem lineFeed_not_mem_replaced {table : Defines} {text word : List Char}
    (hword : word ∈ Text.words text)
    (h : ∀ value, table.get? (String.ofList word) = some value → '\n' ∉ value.toList) :
    '\n' ∉ replaced table word := by
  rw [replaced]
  cases hvalue : table.get? (String.ofList word) with
  | none =>
      rw [Option.getD_none, String.toList_ofList]
      exact lineFeed_not_mem_word hword
  | some value => exact h value hvalue

/-- Where the definitions leave a comment alone, what stands up to the first semicolon is replaced
on its own. -/
theorem substitute_comment {table : Defines} {text part more : List Char}
    {before later : List (List Char)}
    (hwords : Text.words text = before ++ (part ++ ';' :: more) :: later)
    (hbefore : ∀ word ∈ before, ';' ∉ word)
    (hinert : Inert table ((Text.words text).map String.ofList)) :
    ∃ remark, '\n' ∉ remark ∧ (substitute table ((Text.words text).map String.ofList)).toList =
      (before.flatMap (fun word => replaced table word ++ [' ']) ++ part) ++ ';' :: remark := by
  rw [Inert, hwords, commentOf_append hbefore] at hinert
  obtain ⟨hfirst, hlater⟩ := hinert
  have hword : table.get? (String.ofList (part ++ ';' :: more)) = none := hfirst _ rfl
  have hmem : ∀ word ∈ (part ++ ';' :: more) :: later, word ∈ Text.words text :=
    fun word hword => hwords ▸ List.mem_append_right before hword
  refine ⟨more ++ later.flatMap fun word => ' ' :: replaced table word, ?_, ?_⟩
  · intro hfeed
    rcases List.mem_append.mp hfeed with hmore | hrest
    · exact lineFeed_not_mem_word (hmem _ List.mem_cons_self) (by simp [hmore])
    · obtain ⟨word, hwordMem, hchar⟩ := List.mem_flatMap.mp hrest
      refine lineFeed_not_mem_replaced (hmem word (List.mem_cons_of_mem _ hwordMem)) ?_
        (by simpa using hchar)
      exact hlater _ (List.mem_map_of_mem hwordMem)
  · have hkept : replaced table (part ++ ';' :: more) = part ++ ';' :: more := by
      rw [replaced, hword, Option.getD_none, String.toList_ofList]
    rw [toList_substitute, hwords, List.map_append, List.map_cons, intercalate_append_cons, hkept,
      List.flatMap_map, List.flatMap_map]
    simp

/-- Where the definitions leave comments alone, lines that differ in them become lines that do. -/
theorem annotates_substitute {table : Defines} {text other : List Char} (h : Recomments text other)
    (hinert : Inert table ((Text.words text).map String.ofList))
    (hother : Inert table ((Text.words other).map String.ofList)) :
    Annotates (substitute table ((Text.words text).map String.ofList)).toList
      (substitute table ((Text.words other).map String.ofList)).toList := by
  obtain ⟨front, remark, otherRemark, hfront, rfl, rfl⟩ := h.first
  obtain ⟨before, part, hbefore, hwords⟩ := words_comment hfront
  obtain ⟨more, later, hmore⟩ := hwords remark
  obtain ⟨otherMore, otherLater, hotherMore⟩ := hwords otherRemark
  obtain ⟨shown, hshown, hline⟩ := substitute_comment hmore hbefore hinert
  obtain ⟨otherShown, hotherShown, hotherLine⟩ := substitute_comment hotherMore hbefore hother
  exact ⟨_, shown, otherShown, hshown, hotherShown, hline, hotherLine⟩

/-- The lines are equal or differ in the comment at their end. -/
def SameOutput (output other : String) : Prop :=
  output.toList = other.toList ∨ Annotates output.toList other.toList

variable {initial defines : Defines} {above rest otherRest : List SourceLine} {flags : List Bool}
  {blocks : List Block} {line other : SourceLine}

/-- The next line, if it is kept. -/
theorem Quiet.inert (h : Quiet initial above (line :: rest) (other :: otherRest))
    (hreached : Reached initial above flags defines blocks) (hne : line ≠ other)
    (hkept : kept blocks = true)
    {words : List String} (hwords : line.directive = .text words ∨ other.directive = .text words) :
    Inert defines words := by
  have hselected := hreached.kept_iff.mp hkept
  have hinert := h 0 line other flags rfl rfl hne
  rw [List.take_zero, List.append_nil, ← hreached.table] at hinert
  exact hinert hreached.selects hselected words hwords

/-- The lines below the next. -/
theorem Quiet.tail (h : Quiet initial above (line :: rest) (other :: otherRest)) :
    Quiet initial (above ++ [line]) rest otherRest := by
  intro index next otherNext flags hnext hotherNext
  rw [List.append_assoc, List.singleton_append, ← List.take_succ_cons]
  exact h (index + 1) next otherNext flags hnext hotherNext

/-- Lines that differ in an inert comment fail in the same way, or leave the same and become lines
that differ in a comment. -/
theorem step_sameUpToComment (h : SameUpToComment line other)
    (hinert : line ≠ other → kept blocks = true → ∀ words,
      line.directive = .text words ∨ other.directive = .text words → Inert defines words) :
    line.absorbed = other.absorbed ∧
      ((∃ fault, step defines blocks line = .error fault ∧
        step defines blocks other = .error fault) ∨
        ∃ after inside output otherOutput, step defines blocks line = .ok (after, inside, output) ∧
          step defines blocks other = .ok (after, inside, otherOutput) ∧
          SameOutput output otherOutput) := by
  cases h with
  | same =>
      refine ⟨rfl, ?_⟩
      cases step defines blocks line with
      | error fault => exact .inl ⟨fault, rfl, rfl⟩
      | ok result => exact .inr ⟨_, _, _, _, rfl, rfl, .inl rfl⟩
  | @comment number text otherText hremark =>
      refine ⟨rfl, .inr ⟨_, _, _, _, rfl, rfl, ?_⟩⟩
      cases hkept : kept blocks with
      | false => exact .inl rfl
      | true =>
          by_cases hsame : text = otherText
          · subst hsame
            exact .inl rfl
          · have hne :
                SourceLine.mk number (String.ofList text)
                  (.text ((Text.words text).map String.ofList)) 0 ≠
                SourceLine.mk number (String.ofList otherText)
                  (.text ((Text.words otherText).map String.ofList)) 0 := by
              intro heq
              exact hsame (String.ofList_injective (congrArg SourceLine.text heq))
            exact .inr (annotates_substitute hremark (hinert hne hkept _ (.inl rfl))
              (hinert hne hkept _ (.inr rfl)))

/-- Lines that differ in inert comments fail together, or leave the same table and become lines that
differ in comments. -/
theorem expandLines_sameUpToComment (h : List.Forall₂ SameUpToComment rest otherRest)
    (hreached : Reached initial above flags defines blocks)
    (hquiet : Quiet initial above rest otherRest) :
    (∃ fault otherFault, (expandLines defines blocks rest).2 = .error fault ∧
        (expandLines defines blocks otherRest).2 = .error otherFault) ∨
      ∃ final outputs otherOutputs, expandLines defines blocks rest = (final, .ok outputs) ∧
        expandLines defines blocks otherRest = (final, .ok otherOutputs) ∧
        List.Forall₂ SameOutput outputs otherOutputs := by
  induction h generalizing above flags defines blocks with
  | nil =>
      cases blocks with
      | nil => exact .inr ⟨defines, [], [], rfl, rfl, .nil⟩
      | cons block outer => exact .inl ⟨_, _, rfl, rfl⟩
  | @cons line other rest otherRest hline _ ih =>
      obtain ⟨habsorbed, ⟨fault, hfault, hother⟩ |
        ⟨after, inside, output, otherOutput, hstep, hotherStep, houtput⟩⟩ :=
        step_sameUpToComment hline fun hne hkept words hwords =>
          hquiet.inert hreached hne hkept hwords
      · exact .inl ⟨fault, fault, by simp [expandLines, hfault], by simp [expandLines, hother]⟩
      · rcases ih (hreached.step hstep) hquiet.tail with
          ⟨fault, otherFault, hfault, hotherFault⟩ |
            ⟨final, outputs, otherOutputs, hrest, hotherRest, houtputs⟩
        · exact .inl ⟨fault, otherFault, (expandLines_error_of_step hstep _).mpr hfault,
            (expandLines_error_of_step hotherStep _).mpr hotherFault⟩
        · refine .inr ⟨final, _, _, expandLines_cons_eq_ok_iff.mpr ⟨_, outputs, hstep, hrest, rfl⟩,
            expandLines_cons_eq_ok_iff.mpr ⟨_, otherOutputs, hotherStep, hotherRest, rfl⟩, ?_⟩
          have hblank : List.Forall₂ SameOutput (List.replicate other.absorbed "")
              (List.replicate other.absorbed "") := List.forall₂_same.mpr fun _ _ => .inl rfl
          rw [habsorbed]
          exact .cons houtput (List.rel_append hblank houtputs)

variable {first second : String}

/-- Sources that differ in inert comments fail together, or become texts that differ in comments. -/
theorem expand_sameLines (h : SameLines 1 (linesOf first) (linesOf second))
    (hquiet : Quiet defines [] (ofText first) (ofText second)) :
    (∃ fault otherFault, (expand defines first).2 = .error fault ∧
        (expand defines second).2 = .error otherFault) ∨
      ∃ output otherOutput, (expand defines first).2 = .ok output ∧
        (expand defines second).2 = .ok otherOutput ∧
        Recommented output.toList otherOutput.toList := by
  rcases expandLines_sameUpToComment h.ofLines (Reached.start defines) hquiet with
    ⟨fault, otherFault, hfault, hotherFault⟩ |
      ⟨final, outputs, otherOutputs, hlines, hotherLines, houtputs⟩
  · exact .inl ⟨fault, otherFault, expand_eq_error_iff.mpr hfault,
      expand_eq_error_iff.mpr hotherFault⟩
  · refine .inr ⟨_, _, congrArg Prod.snd (expand_eq_ok_iff.mpr ⟨outputs, hlines, rfl⟩),
      congrArg Prod.snd (expand_eq_ok_iff.mpr ⟨otherOutputs, hotherLines, rfl⟩), ?_⟩
    rw [String.toList_intercalate, String.toList_intercalate]
    exact recommented_intercalate
      (List.forall₂_map_left_iff.mpr (List.forall₂_map_right_iff.mpr houtputs))

end Source

open Source SourceLine

/-- A source is assembled by assembling what it is expanded to. -/
theorem assembleSource_eq_ok_iff {grammar : Grammar} {base : UInt32} {constants : Constants}
    {defines : Defines} {source : String} {assembly : Assembly} :
    (assembleSource grammar base constants defines source).2 = .ok assembly ↔
      ∃ script, (expand defines source).2 = .ok script ∧
        assemble grammar base constants script = .ok assembly := by
  unfold assembleSource
  obtain ⟨after, outcome⟩ := expand defines source
  cases outcome with
  | error fault => simp
  | ok script =>
      simp only [Except.ok.injEq, exists_eq_left']
      cases assemble grammar base constants script <;> simp [Except.mapError]

/-- Comments have no part in what a source is assembled to, as long as the definitions leave them
alone: two sources that are the same but for the comments of ordinary lines have the same assembly
or none. -/
theorem assembleSource_comments (grammar : Grammar) (base : UInt32) (constants : Constants)
    {defines : Defines} {first second : String} (h : SameLines 1 (linesOf first) (linesOf second))
    (hquiet : Quiet defines [] (ofText first) (ofText second)) (assembly : Assembly) :
    (assembleSource grammar base constants defines first).2 = .ok assembly ↔
      (assembleSource grammar base constants defines second).2 = .ok assembly := by
  rw [assembleSource_eq_ok_iff, assembleSource_eq_ok_iff]
  rcases expand_sameLines h hquiet with
    ⟨fault, otherFault, hfault, hotherFault⟩ |
      ⟨script, otherScript, hscript, hotherScript, hremarks⟩
  · simp [hfault, hotherFault]
  · have halike : List.Forall₂ Assembly.ReadAlike (linesOf script) (linesOf otherScript) := by
      refine (lines_recommented hremarks).imp fun line otherLine hline => ?_
      rcases hline with rfl | ⟨front, remark, otherRemark, rfl, rfl⟩
      · exact fun _ _ => Iff.rfl
      · exact Assembly.readAlike_comment front remark otherRemark
    simp only [hscript, hotherScript, Except.ok.injEq, exists_eq_left']
    exact Assembly.assemble_eq_ok_iff_of_readAlike halike

/-- A comment in which a word is replaced, and one in which none is. -/
theorem assembleSource_comments_macro :
    SameLines 1 (linesOf "#define M 1\ndb M 2 ; M old") (linesOf "#define M 1\ndb M 2 ; new") ∧
      Quiet .empty [] (ofText "#define M 1\ndb M 2 ; M old") (ofText "#define M 1\ndb M 2 ; new") ∧
      (assembleSource .empty 0x8000000 .empty .empty "#define M 1\ndb M 2 ; M old").2 =
        .ok ⟨0x8000000, [⟨0x8000000, 2, "db", [1, 2]⟩], .empty⟩ ∧
      (assembleSource .empty 0x8000000 .empty .empty "#define M 1\ndb M 2 ; new").2 =
        .ok ⟨0x8000000, [⟨0x8000000, 2, "db", [1, 2]⟩], .empty⟩ := by
  have hsame :
      SameLines 1 (linesOf "#define M 1\ndb M 2 ; M old")
        (linesOf "#define M 1\ndb M 2 ; new") := by
    have hremark : Recomments "db M 2 ; M old".toList "db M 2 ; new".toList :=
      ⟨"db M 2 ".toList, " M old".toList, " new".toList, rfl, rfl⟩
    have hordinary : OrdinaryAt 1 (["#define M 1".toList] ++ ["db M 2 ; M old".toList]) 1 :=
      ⟨⟨2, "db M 2 ; M old", .text ["db", "M", "2", ";", "M", "old"], 0⟩, by decide +kernel,
        rfl, _, rfl⟩
    exact sameLines_of_last (by decide +kernel) (by decide +kernel) hremark hordinary
  have hquiet :
      Quiet .empty [] (ofText "#define M 1\ndb M 2 ; M old")
        (ofText "#define M 1\ndb M 2 ; new") := by
    have hlines : ofText "#define M 1\ndb M 2 ; M old" =
        [⟨1, "#define M 1", .define "M" "1", 0⟩,
          ⟨2, "db M 2 ; M old", .text ["db", "M", "2", ";", "M", "old"], 0⟩] := by
      decide +kernel
    have hotherLines : ofText "#define M 1\ndb M 2 ; new" =
        [⟨1, "#define M 1", .define "M" "1", 0⟩,
          ⟨2, "db M 2 ; new", .text ["db", "M", "2", ";", "new"], 0⟩] := by
      decide +kernel
    have hinert : ∀ flag,
        Inert (overlay .empty (definitions [⟨1, "#define M 1", .define "M" "1", 0⟩] [flag]))
            ["db", "M", "2", ";", "M", "old"] ∧
          Inert (overlay .empty (definitions [⟨1, "#define M 1", .define "M" "1", 0⟩] [flag]))
            ["db", "M", "2", ";", "new"] := by
      decide +kernel
    rw [hlines, hotherLines]
    intro index line other flags hline hother hne hselects _ words hwords
    rcases index with _ | _ | index
    · exact absurd (Option.some.inj (hline.symm.trans hother)) hne
    · cases hline
      cases hother
      obtain ⟨flag, rfl⟩ := List.length_eq_one_iff.mp hselects.length_eq
      rcases hwords with hwords | hwords
      · cases hwords
        exact (hinert flag).1
      · cases hwords
        exact (hinert flag).2
    · cases hline
  have hfirst : (assembleSource .empty 0x8000000 .empty .empty "#define M 1\ndb M 2 ; M old").2 =
      .ok ⟨0x8000000, [⟨0x8000000, 2, "db", [1, 2]⟩], .empty⟩ := by
    decide +kernel
  exact ⟨hsame, hquiet, hfirst, (assembleSource_comments _ _ _ hsame hquiet _).mp hfirst⟩

/-- A word in a comment that is defined over two lines adds a record, and a word that is defined may
hold the semicolon: two sources that are the same but for comments need not have the same assembly,
nor both have one. -/
theorem comment_expands :
    SameLines 1 (linesOf "#define M x\\\ndb 1 2\ndb 3 2 ; M")
      (linesOf "#define M x\\\ndb 1 2\ndb 3 2 ; y") ∧
      (assembleSource .empty 0x8000000 .empty .empty
        "#define M x\\\ndb 1 2\ndb 3 2 ; M").2.toOption.map
        Assembly.bytes = some [3, 2, 1, 2] ∧
      (assembleSource .empty 0x8000000 .empty .empty
        "#define M x\\\ndb 1 2\ndb 3 2 ; y").2.toOption.map
        Assembly.bytes = some [3, 2] ∧
      SameLines 1 (linesOf "#define a;b db 1 2\na;b") (linesOf "#define a;b db 1 2\na;c") ∧
      (assembleSource .empty 0x8000000 .empty .empty "#define a;b db 1 2\na;b").2.toOption.map
        Assembly.bytes =
        some [1, 2] ∧
      (assembleSource .empty 0x8000000 .empty .empty "#define a;b db 1 2\na;c").2.toOption =
        none := by
  refine ⟨?_, by decide +kernel, by decide +kernel, ?_, by decide +kernel, by decide +kernel⟩
  · have hremark : Recomments "db 3 2 ; M".toList "db 3 2 ; y".toList :=
      ⟨"db 3 2 ".toList, " M".toList, " y".toList, rfl, rfl⟩
    have hordinary :
        OrdinaryAt 1 (["#define M x\\".toList, "db 1 2".toList] ++ ["db 3 2 ; M".toList]) 2 :=
      ⟨⟨3, "db 3 2 ; M", .text ["db", "3", "2", ";", "M"], 0⟩, by decide +kernel, rfl, _, rfl⟩
    exact sameLines_of_last (by decide +kernel) (by decide +kernel) hremark hordinary
  · have hremark : Recomments "a;b".toList "a;c".toList :=
      ⟨"a".toList, "b".toList, "c".toList, rfl, rfl⟩
    have hordinary : OrdinaryAt 1 (["#define a;b db 1 2".toList] ++ ["a;b".toList]) 1 :=
      ⟨⟨2, "a;b", .text ["a;b"], 0⟩, by decide +kernel, rfl, _, rfl⟩
    exact sameLines_of_last (by decide +kernel) (by decide +kernel) hremark hordinary

end EventScript
