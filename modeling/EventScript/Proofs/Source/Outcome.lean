import Mathlib.Data.List.Forall2
import EventScript.Proofs.Source.Lines
import EventScript.Proofs.Source.Nesting

/-!
# When a source can be expanded

Whether a source can be expanded, and the fault if it cannot, depends on its lines alone. Blocks
that differ only in what they keep are `Alike`; a step takes alike blocks to alike blocks or fails
in the same way (`step_alike`), hence so does a run. The sources that can be expanded are those in
which every directive is known and has its name, and whose blocks are nested
(`exists_expandLines_iff`). Both are told by the words of the lines of the source, without the lines
on which a definition goes on (`known_and_nested_iff`), and `expand_outcome` states it so.
-/

namespace EventScript

open Text

/-- If the first word of the line starts with `#`, it is a known directive, with a name where it
needs one. -/
def Known (line : List Char) : Prop :=
  ∀ word arguments, wordsOf line = word :: arguments → word.toList.head? = some '#' →
    word ∈ ["#else", "#endif"] ∨ word ∈ ["#ifdef", "#ifndef", "#define"] ∧ arguments ≠ []

/-- The words that have a part in conditional blocks. -/
def blockWords : List (String × Part) :=
  [("#ifdef", .opens), ("#ifndef", .opens), ("#else", .divides), ("#endif", .closes)]

/-- The part that a line has in conditional blocks by its first word. -/
def partOf? (line : List Char) : Option Part :=
  (wordsOf line).head?.bind fun word => blockWords.lookup word

/-- The directive is known and has its name. -/
def Directive.isKnown : Directive → Bool
  | .malformed => false
  | .unknown _ => false
  | _ => true

/-- The words that open, divide or close a block start with `#`. -/
theorem lookup_eq_none {word : String} (hhash : word.toList.head? ≠ some '#') :
    blockWords.lookup word = none := by
  rw [List.lookup_eq_none_iff]
  intro entry hentry
  simp only [blockWords, List.mem_cons, List.not_mem_nil, or_false] at hentry
  rw [bne_iff_ne]
  rintro rfl
  rcases hentry with rfl | rfl | rfl | rfl <;> exact hhash (by decide)

/-- A line is known just if the directive that it says is, and then the two have the same part in a
block. -/
theorem Directive.Says.known_iff_and_part {text : List Char} {following : List (List Char)}
    {directive : Directive} {count : Nat} (h : directive.Says (trim text) following count) :
    (Known text ↔ directive.isKnown = true) ∧
      (directive.isKnown = true → partOf? text = directive.part?) := by
  have hfirst : ∀ {word arguments}, wordsOf (trim text) = word :: arguments →
      word.toList.head? = some '#' →
      (Known text ↔
        word ∈ ["#else", "#endif"] ∨ word ∈ ["#ifdef", "#ifndef", "#define"] ∧ arguments ≠ []) ∧
      partOf? text = blockWords.lookup word := by
    intro word arguments hwords hhash
    rw [wordsOf_trim] at hwords
    rw [partOf?, hwords]
    refine ⟨⟨fun hknown => hknown word arguments hwords hhash, ?_⟩, rfl⟩
    intro hdirective other others hothers _
    obtain ⟨rfl, rfl⟩ := List.cons.inj (hwords.symm.trans hothers)
    exact hdirective
  cases h with
  | text hhash =>
      rw [← head?_wordsOf] at hhash
      cases hwords : wordsOf text with
      | nil => simp [Known, partOf?, hwords, isKnown, part?]
      | cons word arguments =>
          rw [hwords] at hhash
          refine ⟨iff_of_true ?_ rfl, fun _ => ?_⟩
          · intro other others hothers hword
            obtain ⟨rfl, rfl⟩ := List.cons.inj (hwords.symm.trans hothers)
            exact absurd hword hhash
          · rw [partOf?, hwords]
            exact lookup_eq_none hhash
  | ifdef hwords | ifndef hwords | otherwise hwords | closing hwords =>
      obtain ⟨hknown, hpart⟩ := hfirst hwords (by decide)
      exact ⟨hknown.trans (by simp [isKnown]), fun _ => hpart.trans rfl⟩
  | define hdefines _ =>
      obtain ⟨hknown, hpart⟩ := hfirst hdefines.wordsOf_eq (by decide)
      exact ⟨hknown.trans (by simp [isKnown]), fun _ => hpart.trans rfl⟩
  | malformed hword hwords =>
      have hhash : ∀ {word}, word ∈ ["#ifdef", "#ifndef", "#define"] →
          word.toList.head? = some '#' ∧ word ∉ ["#else", "#endif"] := by
        intro word hword
        simp only [List.mem_cons, List.not_mem_nil, or_false] at hword
        rcases hword with rfl | rfl | rfl <;> decide
      obtain ⟨hknown, -⟩ := hfirst hwords (hhash hword).1
      exact ⟨hknown.trans (by simp [isKnown, (hhash hword).2]), nofun⟩
  | unknown hhash hwords hword =>
      rw [← head?_wordsOf, ← wordsOf_trim, hwords] at hhash
      obtain ⟨hknown, -⟩ := hfirst hwords hhash
      simp only [List.mem_cons, List.not_mem_nil, or_false, not_or] at hword
      exact ⟨hknown.trans (by simp [isKnown, hword]), nofun⟩

/-- The lines that say something of their own are known and nested just if the source lines are. -/
theorem known_and_nested_iff (start : Nat) (lines : List (List Char)) :
    ((∀ line ∈ standing false lines, Known line) ∧
        Source.Nested ((standing false lines).map partOf?)) ↔
      (∀ line ∈ SourceLine.ofLines start lines, line.directive.isKnown = true) ∧
        Source.Nested ((SourceLine.ofLines start lines).map SourceLine.part?) := by
  have hsays := SourceLine.forall₂_standing start lines
  generalize standing false lines = texts at hsays ⊢
  generalize SourceLine.ofLines start lines = sourceLines at hsays ⊢
  have hknown : (∀ line ∈ texts, Known line) ↔
      ∀ line ∈ sourceLines, line.directive.isKnown = true := by
    induction hsays with
    | nil => simp
    | cons hfirst _ ih =>
        obtain ⟨following, hfirst⟩ := hfirst
        rw [List.forall_mem_cons, List.forall_mem_cons, hfirst.known_iff_and_part.1, ih]
  rw [hknown, and_congr_right_iff]
  intro hall
  have hparts : texts.map partOf? = sourceLines.map SourceLine.part? := by
    clear hknown
    induction hsays with
    | nil => rfl
    | cons hfirst _ ih =>
        obtain ⟨following, hfirst⟩ := hfirst
        obtain ⟨hline, hrest⟩ := List.forall_mem_cons.mp hall
        rw [List.map_cons, List.map_cons, hfirst.known_iff_and_part.2 hline, ih hrest]
        rfl
  rw [hparts]

namespace Source

variable {blocks others : List Block} {defines : Defines} {line : SourceLine}
  {lines : List SourceLine}

/-- The blocks differ at most in what they keep. -/
structure Block.Alike (block other : Block) : Prop where
  opened : block.opened = other.opened
  text : block.text = other.text
  inElse : block.inElse = other.inElse

/-- Whatever the definitions are, a line fails in the same way inside alike blocks, or leaves alike
blocks. -/
theorem step_alike (h : List.Forall₂ Block.Alike blocks others) (defines otherDefines : Defines)
    (line : SourceLine) :
    (∃ fault, step defines blocks line = .error fault ∧
      step otherDefines others line = .error fault) ∨
      ∃ result other, step defines blocks line = .ok result ∧
        step otherDefines others line = .ok other ∧
        List.Forall₂ Block.Alike result.2.1 other.2.1 := by
  unfold step
  cases line.directive with
  | text words => exact .inr ⟨_, _, rfl, rfl, h⟩
  | opening negated name => exact .inr ⟨_, _, rfl, rfl, .cons ⟨rfl, rfl, rfl⟩ h⟩
  | otherwise =>
      cases h with
      | nil => exact .inl ⟨_, rfl, rfl⟩
      | @cons block other _ _ halike houter =>
          have hopened := halike.opened
          have hinElse := halike.inElse
          cases hpassed : block.inElse with
          | true =>
              refine .inl ⟨_, if_pos hpassed, ?_⟩
              rw [hopened]
              exact if_pos (hinElse ▸ hpassed)
          | false =>
              have hother : ¬ other.inElse = true := by simp [← hinElse, hpassed]
              refine .inr ⟨_, _, if_neg (by simp [hpassed]), if_neg hother, ?_⟩
              exact .cons ⟨hopened, halike.text, rfl⟩ houter
  | closing =>
      cases h with
      | nil => exact .inl ⟨_, rfl, rfl⟩
      | cons _ houter => exact .inr ⟨_, _, rfl, rfl, houter⟩
  | define name value => exact .inr ⟨_, _, rfl, rfl, h⟩
  | malformed => exact .inl ⟨_, rfl, rfl⟩
  | unknown word => exact .inl ⟨_, rfl, rfl⟩

/-- The fault of the lines behind one that can be expanded. -/
theorem expandLines_error_of_step {result : Defines × List Block × String} {fault : ExpansionError}
    (hstep : step defines blocks line = .ok result) (rest : List SourceLine) :
    (expandLines defines blocks (line :: rest)).2 = .error fault ↔
      (expandLines result.1 result.2.1 rest).2 = .error fault := by
  obtain ⟨after, inside, output⟩ := result
  simp only [expandLines, hstep]
  obtain ⟨final, outcome⟩ := expandLines after inside rest
  cases outcome <;> simp

/-- Whatever the definitions are, lines fail in the same way inside alike blocks. -/
theorem expandLines_alike (h : List.Forall₂ Block.Alike blocks others)
    (defines otherDefines : Defines) (lines : List SourceLine) (fault : ExpansionError) :
    (expandLines defines blocks lines).2 = .error fault ↔
      (expandLines otherDefines others lines).2 = .error fault := by
  induction lines generalizing blocks others defines otherDefines with
  | nil =>
      cases h with
      | nil => simp [expandLines]
      | cons halike _ => simp [expandLines, halike.opened, halike.text]
  | cons line rest ih =>
      rcases step_alike h defines otherDefines line with
        ⟨fault, hfault, hother⟩ | ⟨result, other, hresult, hother, halike⟩
      · simp [expandLines, hfault, hother]
      · rw [expandLines_error_of_step hresult, expandLines_error_of_step hother]
        exact ih halike _ _

/-- Lines can be expanded one by one. -/
theorem exists_expandLines_cons :
    (∃ outputs, (expandLines defines blocks (line :: lines)).2 = .ok outputs) ↔
      ∃ result, step defines blocks line = .ok result ∧
        ∃ outputs, (expandLines result.1 result.2.1 lines).2 = .ok outputs := by
  simp only [expandLines]
  cases step defines blocks line with
  | error fault => simp
  | ok result =>
      obtain ⟨after, inside, output⟩ := result
      simp only [Except.ok.injEq, exists_eq_left']
      obtain ⟨final, outcome⟩ := expandLines after inside lines
      cases outcome <;> simp

/-- The blocks are those that a line stands in, as far as their branches go. -/
abbrev Stands (blocks : List Block) (enclosures : List Enclosure) : Prop :=
  List.Forall₂ (fun block enclosure => block.inElse = enclosure.inElse) blocks enclosures

/-- A line can be expanded just if it is known and the blocks it stands in allow it, and then the
blocks that are open behind it are again those that the next line stands in. -/
theorem step_stands {enclosures : List Enclosure} (h : Stands blocks enclosures) (defines : Defines)
    (line : SourceLine) (count : Nat) :
    (∃ fault, step defines blocks line = .error fault) ∧
        (line.directive.isKnown = false ∨
          ∀ rest, enclosing? count enclosures (line.part? :: rest) = none) ∨
      ∃ result next, step defines blocks line = .ok result ∧ line.directive.isKnown = true ∧
        Stands result.2.1 next ∧
        ∀ rest,
          enclosing? count enclosures (line.part? :: rest) = enclosing? (count + 1) next rest := by
  unfold step SourceLine.part?
  cases line.directive with
  | text words => exact .inr ⟨_, _, rfl, rfl, h, fun _ => rfl⟩
  | opening negated name => exact .inr ⟨_, _, rfl, rfl, .cons rfl h, fun _ => rfl⟩
  | otherwise =>
      cases h with
      | nil => exact .inl ⟨⟨_, rfl⟩, .inr fun _ => rfl⟩
      | @cons block enclosure _ _ hinElse houter =>
          obtain ⟨opened, inElse⟩ := enclosure
          obtain rfl : block.inElse = inElse := hinElse
          cases hpassed : block.inElse with
          | true => exact .inl ⟨⟨_, if_pos hpassed⟩, .inr fun _ => rfl⟩
          | false =>
              exact .inr ⟨_, _, if_neg (by simp [hpassed]), rfl, .cons rfl houter, fun _ => rfl⟩
  | closing =>
      cases h with
      | nil => exact .inl ⟨⟨_, rfl⟩, .inr fun _ => rfl⟩
      | cons _ houter => exact .inr ⟨_, _, rfl, rfl, houter, fun _ => rfl⟩
  | define name value => exact .inr ⟨_, _, rfl, rfl, h, fun _ => rfl⟩
  | malformed => exact .inl ⟨⟨_, rfl⟩, .inl rfl⟩
  | unknown word => exact .inl ⟨⟨_, rfl⟩, .inl rfl⟩

/-- Lines can be expanded exactly if they are known and close the open blocks and their own. -/
theorem exists_expandLines_iff {enclosures : List Enclosure} (h : Stands blocks enclosures)
    (count : Nat) :
    (∃ outputs, (expandLines defines blocks lines).2 = .ok outputs) ↔
      (∀ line ∈ lines, line.directive.isKnown = true) ∧
        enclosing? count enclosures (lines.map SourceLine.part?) = some [] := by
  induction lines generalizing defines blocks enclosures count with
  | nil => cases h <;> simp [expandLines, enclosing?]
  | cons line rest ih =>
      rw [exists_expandLines_cons, List.forall_mem_cons, List.map_cons]
      rcases step_stands h defines line count with
        ⟨⟨fault, hfault⟩, hunknown | hnone⟩ | ⟨result, next, hresult, hknown, hnext, henclosing⟩
      · simp [hfault, hunknown]
      · simp [hfault, hnone]
      · simp only [hresult, henclosing, hknown, true_and, Except.ok.injEq, exists_eq_left']
        exact ih hnext (count + 1)

/-- Expanding a source fails just if expanding its lines does. -/
theorem expand_eq_error_iff {source : String} {fault : ExpansionError} :
    (expand defines source).2 = .error fault ↔
      (expandLines defines [] (SourceLine.ofText source)).2 = .error fault := by
  unfold expand
  obtain ⟨final, outcome⟩ := expandLines defines [] (SourceLine.ofText source)
  cases outcome <;> simp

/-- Expanding a source succeeds just if expanding its lines does. -/
theorem exists_expand_iff {source : String} :
    (∃ output, (expand defines source).2 = .ok output) ↔
      ∃ outputs, (expandLines defines [] (SourceLine.ofText source)).2 = .ok outputs := by
  unfold expand
  obtain ⟨final, outcome⟩ := expandLines defines [] (SourceLine.ofText source)
  cases outcome <;> simp

/-- Definitions have no part in whether a source can be expanded: two tables of definitions give the
same fault or none, and a source can be expanded exactly if, apart from the lines on which a
definition goes on, every directive is known and has its name, and the conditional blocks are
nested. -/
theorem expand_outcome (source : String) :
    (∀ defines others fault,
      (expand defines source).2 = .error fault ↔ (expand others source).2 = .error fault) ∧
    ∀ defines, (∃ output, (expand defines source).2 = .ok output) ↔
      (∀ line ∈ standing false (linesOf source), Known line) ∧
        Nested ((standing false (linesOf source)).map partOf?) := by
  refine ⟨fun defines others fault => ?_, fun defines => ?_⟩
  · rw [expand_eq_error_iff, expand_eq_error_iff]
    exact expandLines_alike .nil defines others _ fault
  · have hstart : Stands [] [] := .nil
    rw [exists_expand_iff, exists_expandLines_iff hstart 0, enclosing?_eq_some_iff,
      ← nested_iff_enclosed_nil, known_and_nested_iff 1]
    rfl

/-- Behind `#define x y \` the next line is part of the value, so the block of the first source goes
on up to its last line. The line `#define x\` defines a name without a value, so the block of the
second source ends on its third line. A directive that is not known counts in a branch that is not
kept, too. -/
theorem expand_outcome_lines :
    ((standing false (linesOf "#ifdef A\n#define x y \\\n#endif\n#else\n#endif")).map partOf? =
        [some .opens, none, some .divides, some .closes] ∧
      (∀ line ∈ standing false (linesOf "#ifdef A\n#define x y \\\n#endif\n#else\n#endif"),
        Known line) ∧
      ∀ defines, ∃ output,
        (expand defines "#ifdef A\n#define x y \\\n#endif\n#else\n#endif").2 = .ok output) ∧
    ((standing false (linesOf "#ifdef A\n#define x\\\n#endif\n#else\n#endif")).map partOf? =
        [some .opens, none, some .closes, some .divides, some .closes] ∧
      ¬ Nested [some .opens, none, some .closes, some .divides, some .closes] ∧
      ∀ defines, (expand defines "#ifdef A\n#define x\\\n#endif\n#else\n#endif").2 =
        .error (.unbalanced "#else" 4)) ∧
    ∀ defines, (expand defines "#ifdef A\n#if B\n#endif").2 =
      .error (.unknownDirective 2 "#if") := by
  refine ⟨?accepted, ?refused, fun defines => ?unknown⟩
  case accepted =>
    have hexpand : (expand ⟨[]⟩ "#ifdef A\n#define x y \\\n#endif\n#else\n#endif").2 =
        .ok "\n\n\n\n" := by decide +kernel
    have hlines := (expand_outcome _).2 _ |>.mp ⟨_, hexpand⟩
    exact ⟨by decide +kernel, hlines.1, fun defines => ((expand_outcome _).2 defines).mpr hlines⟩
  case refused =>
    have hfault : (expand ⟨[]⟩ "#ifdef A\n#define x\\\n#endif\n#else\n#endif").2 =
        .error (.unbalanced "#else" 4) := by decide +kernel
    refine ⟨by decide +kernel, fun hnested => ?_, fun defines =>
      ((expand_outcome _).1 defines ⟨[]⟩ _).mpr hfault⟩
    have hclosed := hnested.enclosing? 0 []
    cases hclosed
  case unknown =>
    have hfault : (expand ⟨[]⟩ "#ifdef A\n#if B\n#endif").2 =
        .error (.unknownDirective 2 "#if") := by decide +kernel
    exact ((expand_outcome _).1 defines ⟨[]⟩ _).mpr hfault

end Source

end EventScript
