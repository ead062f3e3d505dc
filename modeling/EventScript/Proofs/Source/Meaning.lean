import Mathlib.Data.List.Forall2
import Mathlib.Data.List.Induction
import EventScript.Proofs.Dictionary
import EventScript.Proofs.Source.Lines
import EventScript.Proofs.Source.Nesting

/-!
# What an expanded source means

Every line of a source has a flag that says whether it is kept. `Selects` gives the flags their
meaning: a line is kept if it stands in the selected branch of every block around it, and a branch
is selected by the definitions in force where its block opens. `shown` is then the text of a line,
and `overlay` the table of definitions that is left. The run keeps more than this, since every open
block remembers whether its surroundings are kept; `Reached` ties the two together. A step keeps it
(`Reached.step`), hence so does a run, and `expand_meaning` says what an expanded source is.
-/

namespace EventScript.Source

open Text SourceLine

/-- The definition that a line makes if it is kept. -/
def definition? (line : SourceLine) (flag : Bool) : Option (String × String) :=
  match line.directive, flag with
  | .define name value, true => some (name, value)
  | _, _ => none

/-- The definitions that lines make, in order. Each line has a flag that says whether it is kept. -/
def definitions (lines : List SourceLine) (flags : List Bool) : List (String × String) :=
  (lines.zip flags).filterMap fun entry => definition? entry.1 entry.2

/-- The value of a name: that of its last definition, or else the one in the table. -/
def valueIn? (defines : Defines) (definitions : List (String × String)) (name : String) :
    Option String :=
  ((definitions.reverse.find? fun definition => definition.1 == name).map Prod.snd).or
    (defines.get? name)

/-- The table with definitions made on top of it, one after the other. -/
def overlay (defines : Defines) (definitions : List (String × String)) : Defines :=
  definitions.foldl (fun table definition => table.insert definition.1 definition.2) defines

/-- The name that opens a block, and whether it has to be undefined. -/
def opening? (line : SourceLine) : Option (Bool × String) :=
  match line.directive with
  | .opening negated name => some (negated, name)
  | _ => none

/-- Whether the condition of the block holds that opens behind `opened` of the lines, judged by the
definitions above it. -/
def condition? (defines : Defines) (lines : List SourceLine) (flags : List Bool) (opened : Nat) :
    Option Bool :=
  (lines[opened]?.bind opening?).map fun opening =>
    (valueIn? defines (definitions (lines.take opened) (flags.take opened))
      opening.2).isSome != opening.1

/-- A line with the given lines above it stands in the selected branch of every block around it. -/
def Selected (defines : Defines) (above : List SourceLine) (flags : List Bool) : Prop :=
  ∃ enclosures, Enclosed (above.map part?) enclosures ∧
    ∀ enclosure ∈ enclosures,
      condition? defines above flags enclosure.opened = some (!enclosure.inElse)

/-- The flags say which lines are kept: those that stand in the selected branch of every block
around them. -/
structure Selects (defines : Defines) (lines : List SourceLine) (flags : List Bool) : Prop where
  length_eq : flags.length = lines.length
  flag_iff : ∀ (place : Nat) (flag : Bool), flags[place]? = some flag →
    (flag = true ↔ Selected defines (lines.take place) (flags.take place))

/-- The text of a line: for an ordinary line that is kept, its words joined by single spaces, each
replaced once by the value that the definitions above give it; for every other line nothing. -/
def shown (defines : Defines) (above : List SourceLine) (flags : List Bool) (line : SourceLine)
    (flag : Bool) :
    String :=
  match line.directive, flag with
  | .text words, true =>
      " ".intercalate
        (words.map fun word => (valueIn? defines (definitions above flags) word).getD word)
  | _, _ => ""

variable {defines after final : Defines} {lines above rest more : List SourceLine}
  {flags others : List Bool}
  {line : SourceLine}

/-- A table overlaid by definitions has the values of the last definitions. -/
theorem get?_overlay (defines : Defines) (definitions : List (String × String)) (name : String) :
    (overlay defines definitions).get? name = valueIn? defines definitions name := by
  induction definitions using List.reverseRecOn with
  | nil => rfl
  | append_singleton front last ih =>
      rw [overlay, List.foldl_append, List.foldl_cons, List.foldl_nil, Dictionary.get?_insert]
      by_cases hname : name = last.1
      · simp [valueIn?, hname]
      · have hlast : (last.1 == name) = false := by simpa using Ne.symm hname
        rw [if_neg hname, valueIn?, List.reverse_append, List.reverse_singleton,
          List.singleton_append, List.find?_cons, hlast]
        exact ih

/-- One more definition. -/
theorem overlay_concat (defines : Defines) (definitions : List (String × String))
    (name value : String) :
    overlay defines (definitions ++ [(name, value)]) =
      (overlay defines definitions).insert name value := by
  rw [overlay, List.foldl_append]
  rfl

/-- The definitions of lines and of one more. -/
theorem definitions_concat (h : flags.length = lines.length) (line : SourceLine) (flag : Bool) :
    definitions (lines ++ [line]) (flags ++ [flag]) =
      definitions lines flags ++ (definition? line flag).toList := by
  rw [definitions, List.zip_append h.symm, List.filterMap_append]
  cases hdefinition : definition? line flag <;> simp [definitions, hdefinition]

/-- Conditions of blocks do not depend on later lines. -/
theorem condition?_append (hlength : flags.length = lines.length) {opened : Nat} {holds : Bool}
    (h : condition? defines lines flags opened = some holds) (more : List SourceLine)
    (others : List Bool) :
    condition? defines (lines ++ more) (flags ++ others) opened = some holds := by
  obtain ⟨opening, hopening, _⟩ := Option.map_eq_some_iff.mp h
  obtain ⟨line, hline, _⟩ := Option.bind_eq_some_iff.mp hopening
  have hlt : opened < lines.length := (List.getElem?_eq_some_iff.mp hline).1
  rw [condition?, List.getElem?_append_left hlt, List.take_append_of_le_length (Nat.le_of_lt hlt),
    List.take_append_of_le_length (by omega)]
  exact h

/-- The lines that are kept are determined. -/
theorem Selects.unique (h : Selects defines lines flags) (hother : Selects defines lines others) :
    flags = others := by
  have htake : ∀ count, flags.take count = others.take count := by
    intro count
    induction count with
    | zero => rfl
    | succ count ih =>
        rw [List.take_add_one, List.take_add_one, ih]
        congr 2
        by_cases hlt : count < lines.length
        · have hflag := List.getElem?_eq_getElem (h.length_eq ▸ hlt)
          have hotherFlag := List.getElem?_eq_getElem (hother.length_eq ▸ hlt)
          have hiff := h.flag_iff count _ hflag
          rw [ih, ← hother.flag_iff count _ hotherFlag] at hiff
          rw [hflag, hotherFlag, Bool.eq_iff_iff.mpr hiff]
        · rw [List.getElem?_eq_none (by rw [h.length_eq]; omega),
            List.getElem?_eq_none (by rw [hother.length_eq]; omega)]
  have hwhole := htake lines.length
  rwa [List.take_of_length_le (Nat.le_of_eq h.length_eq),
    List.take_of_length_le (Nat.le_of_eq hother.length_eq)] at hwhole

/-- One more line. -/
theorem Selects.concat (h : Selects defines lines flags) {flag : Bool}
    (hflag : flag = true ↔ Selected defines lines flags) (line : SourceLine) :
    Selects defines (lines ++ [line]) (flags ++ [flag]) := by
  refine ⟨by simp [h.length_eq], fun place other hother => ?_⟩
  rcases Nat.lt_or_ge place lines.length with hlt | hge
  · rw [List.getElem?_append_left (by rw [h.length_eq]; exact hlt)] at hother
    rw [List.take_append_of_le_length (Nat.le_of_lt hlt),
      List.take_append_of_le_length (by rw [h.length_eq]; exact Nat.le_of_lt hlt)]
    exact h.flag_iff place other hother
  · have hplace : place = lines.length := by
      have := (List.getElem?_eq_some_iff.mp hother).1
      rw [List.length_append, h.length_eq, List.length_singleton] at this
      omega
    subst hplace
    rw [List.take_left', List.take_left' h.length_eq]
    · rw [← h.length_eq, List.getElem?_concat_length, Option.some.injEq] at hother
      rw [← hother]
      exact hflag
    · rfl

/-- Every block remembers whether the lines around it are kept. -/
def Cached : List Block → Prop
  | [] => True
  | block :: outer => block.outer = kept outer ∧ Cached outer

/-- The lines inside blocks are kept if every block is in its selected branch. -/
theorem kept_iff_of_cached {blocks : List Block} (h : Cached blocks) :
    kept blocks = true ↔ ∀ block ∈ blocks, block.holds = !block.inElse := by
  induction blocks with
  | nil => simp [kept]
  | cons block outer ih =>
      rw [kept, Block.kept, h.1, Bool.and_eq_true, ih h.2, List.forall_mem_cons, and_comm]
      cases block.holds <;> cases block.inElse <;> simp

/-- An open block is the given one of those around a line. -/
structure Stacked (initial : Defines) (above : List SourceLine) (flags : List Bool) (block : Block)
    (enclosure : Enclosure) : Prop where
  inElse : block.inElse = enclosure.inElse
  condition : condition? initial above flags enclosure.opened = some block.holds

/-- What a run that started from the table `initial` has reached below the given lines. -/
structure Reached (initial : Defines) (above : List SourceLine) (flags : List Bool)
    (defines : Defines) (blocks : List Block) : Prop where
  selects : Selects initial above flags
  table : defines = overlay initial (definitions above flags)
  cached : Cached blocks
  stacked : ∃ enclosures, Enclosed (above.map part?) enclosures ∧
    List.Forall₂ (Stacked initial above flags) blocks enclosures

variable {initial : Defines} {blocks inside : List Block}

/-- Every block is in its selected branch exactly if every enclosure is. -/
theorem forall_stacked_iff {enclosures : List Enclosure}
    (h : List.Forall₂ (Stacked initial above flags) blocks enclosures) :
    (∀ block ∈ blocks, block.holds = !block.inElse) ↔
      ∀ enclosure ∈ enclosures,
        condition? initial above flags enclosure.opened = some (!enclosure.inElse) := by
  induction h with
  | nil => simp
  | cons hfirst _ ih =>
      rw [List.forall_mem_cons, List.forall_mem_cons, ih, hfirst.condition, hfirst.inElse,
        Option.some.injEq]

/-- The run keeps the next line exactly if it stands in the selected branch of every block around
it. -/
theorem Reached.kept_iff (h : Reached initial above flags defines blocks) :
    kept blocks = true ↔ Selected initial above flags := by
  obtain ⟨enclosures, henclosed, hstacked⟩ := h.stacked
  rw [kept_iff_of_cached h.cached, forall_stacked_iff hstacked]
  constructor
  · intro hchosen
    exact ⟨enclosures, henclosed, hchosen⟩
  · rintro ⟨others, hothers, hchosen⟩
    have hsame := henclosed.enclosing?.symm.trans hothers.enclosing?
    rw [Option.some.inj hsame]
    exact hchosen

/-- The blocks around a line stay what they are below it. -/
theorem Stacked.append (hlength : flags.length = above.length) {block : Block}
    {enclosure : Enclosure}
    (h : Stacked initial above flags block enclosure) (more : List SourceLine)
    (others : List Bool) :
    Stacked initial (above ++ more) (flags ++ others) block enclosure :=
  ⟨h.inElse, condition?_append hlength h.condition more others⟩

/-- A block that opens on the next line has the condition that the table gives. -/
theorem Reached.condition?_opening (h : Reached initial above flags defines blocks) {negated : Bool}
    {name : String} (hopening : line.directive = .opening negated name) (flag : Bool) :
    condition? initial (above ++ [line]) (flags ++ [flag]) above.length =
      some (defines.contains name != negated) := by
  rw [condition?, List.getElem?_concat_length, List.take_left' rfl,
    List.take_left' h.selects.length_eq]
  simp [opening?, hopening, h.table, Dictionary.contains, get?_overlay]

/-- What a line does if it can be expanded, by its directive. -/
theorem step_cases {result : Defines × List Block × String}
    (h : step defines blocks line = .ok result) :
    (∃ words, line.directive = .text words ∧
      result = (defines, blocks, if kept blocks then substitute defines words else "")) ∨
    (∃ negated name, line.directive = .opening negated name ∧
      result = (defines,
        ⟨line.number, line.text, kept blocks, defines.contains name != negated, false⟩ :: blocks,
        "")) ∨
    (∃ block outer, line.directive = .otherwise ∧ blocks = block :: outer ∧ block.inElse = false ∧
      result = (defines, { block with inElse := true } :: outer, "")) ∨
    (∃ block outer, line.directive = .closing ∧ blocks = block :: outer ∧
      result = (defines, outer, "")) ∨
    (∃ name value, line.directive = .define name value ∧
      result = (if kept blocks then defines.insert name value else defines, blocks, "")) := by
  revert h
  unfold step
  cases line.directive with
  | text words =>
      intro h
      exact .inl ⟨words, rfl, (Except.ok.inj h).symm⟩
  | opening negated name =>
      intro h
      exact .inr (.inl ⟨negated, name, rfl, (Except.ok.inj h).symm⟩)
  | otherwise =>
      intro h
      cases blocks with
      | nil => cases h
      | cons block outer =>
          cases hpassed : block.inElse with
          | true =>
              simp only [hpassed, if_true] at h
              cases h
          | false =>
              simp only [hpassed, Bool.false_eq_true, if_false] at h
              exact .inr (.inr (.inl ⟨block, outer, rfl, rfl, hpassed, (Except.ok.inj h).symm⟩))
  | closing =>
      intro h
      cases blocks with
      | nil => cases h
      | cons block outer =>
          exact .inr (.inr (.inr (.inl ⟨block, outer, rfl, rfl, (Except.ok.inj h).symm⟩)))
  | define name value =>
      intro h
      exact .inr (.inr (.inr (.inr ⟨name, value, rfl, (Except.ok.inj h).symm⟩)))
  | malformed =>
      intro h
      cases h
  | unknown word =>
      intro h
      cases h

/-- The text of the next line. -/
theorem Reached.shown_eq (h : Reached initial above flags defines blocks)
    {result : Defines × List Block × String}
    (hstep : Source.step defines blocks line = .ok result) :
    result.2.2 = shown initial above flags line (kept blocks) := by
  rcases step_cases hstep with ⟨words, hdirective, rfl⟩ | ⟨_, _, hdirective, rfl⟩ |
    ⟨_, _, hdirective, _, _, rfl⟩ | ⟨_, _, hdirective, _, rfl⟩ | ⟨_, _, hdirective, rfl⟩
  · cases hkept : kept blocks with
    | true => simp [shown, hdirective, substitute, h.table, get?_overlay]
    | false => simp [shown, hdirective]
  all_goals simp [shown, hdirective]

/-- The definitions that are made up to and on the next line. -/
theorem Reached.table_step (h : Reached initial above flags defines blocks)
    {result : Defines × List Block × String}
    (hstep : Source.step defines blocks line = .ok result) :
    result.1 = overlay initial (definitions (above ++ [line]) (flags ++ [kept blocks])) := by
  rw [definitions_concat h.selects.length_eq]
  rcases step_cases hstep with ⟨_, hdirective, rfl⟩ | ⟨_, _, hdirective, rfl⟩ |
    ⟨_, _, hdirective, _, _, rfl⟩ | ⟨_, _, hdirective, _, rfl⟩ | ⟨name, value, hdirective, rfl⟩
  case inr.inr.inr.inr =>
    cases hkept : kept blocks with
    | true => simp [definition?, hdirective, overlay_concat, h.table]
    | false => simp [definition?, hdirective, h.table]
  all_goals simp [definition?, hdirective, h.table]

/-- The blocks that are open below the next line. -/
theorem Reached.stacked_step (h : Reached initial above flags defines blocks)
    {result : Defines × List Block × String}
    (hstep : Source.step defines blocks line = .ok result) :
    Cached result.2.1 ∧ ∃ enclosures, Enclosed ((above ++ [line]).map part?) enclosures ∧
      List.Forall₂ (Stacked initial (above ++ [line]) (flags ++ [kept blocks])) result.2.1
        enclosures := by
  obtain ⟨enclosures, henclosed, hstacked⟩ := h.stacked
  have hcached := h.cached
  have hbelow :=
    hstacked.imp fun _ _ hblock => hblock.append h.selects.length_eq [line] [kept blocks]
  rw [List.map_append, List.map_singleton, part?]
  rcases step_cases hstep with ⟨_, hdirective, rfl⟩ | ⟨negated, name, hdirective, rfl⟩ |
    ⟨block, outer, hdirective, rfl, hpassed, rfl⟩ | ⟨block, outer, hdirective, rfl, rfl⟩ |
    ⟨_, _, hdirective, rfl⟩ <;> rw [hdirective]
  · exact ⟨hcached, enclosures, henclosed.plain, hbelow⟩
  · have hcondition := h.condition?_opening hdirective (kept blocks)
    refine ⟨⟨rfl, hcached⟩, _, henclosed.opening, .cons ⟨rfl, ?_⟩ hbelow⟩
    rw [List.length_map]
    exact hcondition
  · cases hbelow with
    | @cons _ enclosure _ outers hfirst houter =>
        obtain ⟨opened, inElse⟩ := enclosure
        obtain rfl : inElse = false := hfirst.inElse.symm.trans hpassed
        exact ⟨hcached, _, henclosed.otherwise, .cons ⟨rfl, hfirst.condition⟩ houter⟩
  · cases hbelow with
    | cons _ houter => exact ⟨hcached.2, _, henclosed.closing, houter⟩
  · exact ⟨hcached, enclosures, henclosed.plain, hbelow⟩

/-- A line takes what a run has reached to what it reaches below that line. -/
theorem Reached.step (h : Reached initial above flags defines blocks)
    {result : Defines × List Block × String}
    (hstep : Source.step defines blocks line = .ok result) :
    Reached initial (above ++ [line]) (flags ++ [kept blocks]) result.1 result.2.1 := by
  obtain ⟨hcached, hstacked⟩ := h.stacked_step hstep
  exact ⟨h.selects.concat h.kept_iff line, h.table_step hstep, hcached, hstacked⟩

/-- Lines that can be expanded are expanded one by one. -/
theorem expandLines_cons_eq_ok_iff {outputs : List String} :
    expandLines defines blocks (line :: rest) = (final, .ok outputs) ↔
      ∃ result others, Source.step defines blocks line = .ok result ∧
        expandLines result.1 result.2.1 rest = (final, .ok others) ∧
        outputs = result.2.2 :: (List.replicate line.absorbed "" ++ others) := by
  rw [expandLines]
  cases Source.step defines blocks line with
  | error fault => simp
  | ok result =>
      obtain ⟨after, inside, output⟩ := result
      simp only [Except.ok.injEq, exists_and_left, exists_eq_left']
      obtain ⟨last, outcome⟩ := expandLines after inside rest
      cases outcome <;> simp [eq_comm]

/-- A run through the remaining lines flags them all and gives each its text. -/
theorem Reached.run (h : Reached initial above flags defines blocks) {outputs : List String}
    (hrun : expandLines defines blocks rest = (final, .ok outputs)) :
    ∃ others texts, Reached initial (above ++ rest) (flags ++ others) final [] ∧
      texts.length = rest.length ∧ outputs = spread rest texts ∧
      ∀ place line flag, rest[place]? = some line → others[place]? = some flag →
        texts[place]? = some
          (shown initial (above ++ rest.take place) (flags ++ others.take place) line flag) := by
  induction rest generalizing above flags defines blocks outputs with
  | nil =>
      cases blocks with
      | nil =>
          cases hrun
          refine ⟨[], [], ?_, rfl, rfl, fun place line flag hline => by cases hline⟩
          rw [List.append_nil, List.append_nil]
          exact h
      | cons block outer => cases hrun
  | cons line rest ih =>
      obtain ⟨result, later, hstep, hrest, rfl⟩ := expandLines_cons_eq_ok_iff.mp hrun
      obtain ⟨others, texts, hreached, hlength, rfl, hshown⟩ := ih (h.step hstep) hrest
      refine ⟨kept blocks :: others, result.2.2 :: texts, ?_, congrArg Nat.succ hlength, rfl, ?_⟩
      · rwa [List.append_assoc, List.append_assoc] at hreached
      · intro place next flag hnext hflag
        cases place with
        | zero =>
            cases hnext
            cases hflag
            simp [h.shown_eq hstep]
        | succ place =>
            have htext := hshown place next flag hnext hflag
            rwa [List.append_assoc, List.append_assoc] at htext

/-- The texts of the lines of a source. Every line has one: a line of its own that of its source
line, a continuation line an empty one. -/
structure Texts (defines : Defines) (source : String) (flags : List Bool) (texts : List String) :
    Prop where
  length_eq : texts.length = (linesOf source).length
  text : ∀ place < (linesOf source).length, ∃ index line, (ofText source)[index]? = some line ∧
    ((∃ flag, flags[index]? = some flag ∧ line.ReadAt 1 (linesOf source) place ∧
        texts[place]? =
          some (shown defines ((ofText source).take index) (flags.take index) line flag)) ∨
      line.Absorbs 1 place ∧ texts[place]? = some "")

/-- The texts that a run gives the source lines, spread over the lines of the source. -/
theorem texts_spread {source : String} {texts : List String}
    (hflags : flags.length = (ofText source).length)
    (htexts : texts.length = (ofText source).length)
    (h : ∀ place line flag, (ofText source)[place]? = some line → flags[place]? = some flag →
      texts[place]? =
        some (shown defines ((ofText source).take place) (flags.take place) line flag)) :
    Texts defines source flags (spread (ofText source) texts) := by
  refine ⟨length_spread htexts, fun place hplace => ?_⟩
  obtain ⟨index, line, hline, ⟨hread, htext⟩ | ⟨habsorbs, htext⟩⟩ := getElem?_spread htexts hplace
  · have hlt : index < flags.length := hflags ▸ (List.getElem?_eq_some_iff.mp hline).1
    have hflag := List.getElem?_eq_getElem hlt
    exact ⟨index, line, hline, .inl ⟨_, hflag, hread, htext.trans (h index line _ hline hflag)⟩⟩
  · exact ⟨index, line, hline, .inr ⟨habsorbs, htext⟩⟩

/-- A source is expanded by expanding its lines. -/
theorem expand_eq_ok_iff {source output : String} :
    expand defines source = (final, .ok output) ↔
      ∃ outputs, expandLines defines [] (ofText source) = (final, .ok outputs) ∧
        "\n".intercalate outputs = output := by
  rw [expand]
  obtain ⟨last, outcome⟩ := expandLines defines [] (ofText source)
  cases outcome <;> simp

/-- A run starts above all lines, outside of all blocks. -/
theorem Reached.start (defines : Defines) : Reached defines [] [] defines [] where
  selects := ⟨rfl, fun place flag hflag => by cases hflag⟩
  table := rfl
  cached := trivial
  stacked := ⟨[], .nil .nil, .nil⟩

/-- What a source is expanded to: its lines have the texts that the lines kept give them, and the
table is overlaid by the definitions on these. Which lines are kept is determined. -/
theorem expand_meaning {source output : String} (h : expand defines source = (final, .ok output)) :
    ∃ flags texts, Selects defines (ofText source) flags ∧
      (∀ others, Selects defines (ofText source) others → others = flags) ∧
      Texts defines source flags texts ∧ output = "\n".intercalate texts ∧
      final = overlay defines (definitions (ofText source) flags) := by
  obtain ⟨outputs, hrun, rfl⟩ := expand_eq_ok_iff.mp h
  obtain ⟨flags, texts, hreached, hlength, rfl, hshown⟩ := (Reached.start defines).run hrun
  simp only [List.nil_append] at hreached hshown
  refine ⟨flags, _, hreached.selects, fun others hothers => hothers.unique hreached.selects, ?_,
    rfl, hreached.table⟩
  exact texts_spread hreached.selects.length_eq hlength hshown

/-- A source with a block in the first branch of another one. -/
def twoBlocks : String :=
  "#ifndef B\n#ifdef A\n#define x 1 y\\\n 2\n#else\nx\n#endif\n#else\n#define A b\n#endif\nx  A"

/-- The definition that is kept has a value of several words on two lines. It is used below the
blocks, where the words of the value are not replaced again. -/
theorem expand_meaning_branches :
    expand ⟨[("A", "a"), ("y", "z")]⟩ twoBlocks =
        (⟨[("A", "a"), ("x", "1 y\n2"), ("y", "z")]⟩, .ok "\n\n\n\n\n\n\n\n\n\n1 y\n2 a") ∧
      ∃ flags texts,
        Selects ⟨[("A", "a"), ("y", "z")]⟩ (ofText twoBlocks) flags ∧
        (∀ others, Selects ⟨[("A", "a"), ("y", "z")]⟩ (ofText twoBlocks) others → others = flags) ∧
        Texts ⟨[("A", "a"), ("y", "z")]⟩ twoBlocks flags texts ∧
        "\n\n\n\n\n\n\n\n\n\n1 y\n2 a" = "\n".intercalate texts ∧
        ⟨[("A", "a"), ("x", "1 y\n2"), ("y", "z")]⟩ =
          overlay ⟨[("A", "a"), ("y", "z")]⟩ (definitions (ofText twoBlocks) flags) := by
  have hexpand : expand ⟨[("A", "a"), ("y", "z")]⟩ twoBlocks =
      (⟨[("A", "a"), ("x", "1 y\n2"), ("y", "z")]⟩, .ok "\n\n\n\n\n\n\n\n\n\n1 y\n2 a") := by
    decide +kernel
  exact ⟨hexpand, expand_meaning hexpand⟩

end EventScript.Source
