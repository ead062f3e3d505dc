import EventScript.Proofs.Grammar
import EventScript.Proofs.Scan
import EventScript.Proofs.Text.Words

/-!
# The text of a template

`Field.Spells` says how a field is written in the text of a template, and `Field.SpellsAll` how
fields are, with any blanks between them; `Template.render` is one such text. A well-formed template
is read from each of its texts (`parse_of_spellsAll`), and what is read from any text is well formed
(`parse_wellFormed`). Indices of slots are machine words (`Template.Indexed`), since no larger index
can be read.
-/

namespace EventScript

open Text

namespace Field

/-- The item for a field: the two hexadecimal digits of a byte, or the width and the index of a slot
in brackets. -/
inductive Spells : Field → List Char → Prop where
  | literal {byte : UInt8} {high low : Char} {first second : Nat} :
      Numeral.digit? 16 high = some first → Numeral.digit? 16 low = some second →
      byte.toNat = first * 16 + second → Spells (.literal byte) [high, low]
  | slot {operand : Nat} {width : Width} :
      Spells (.slot operand width)
        ('$' :: '(' :: width.tag :: ':' :: (Nat.toDigits 10 operand ++ [')']))

/-- The text has the items for the fields in order, with blanks between any two of them, and maybe
in front of the first and behind the last. -/
inductive SpellsAll : List Field → List Char → Prop where
  | nil : SpellsAll [] []
  | blank {c fields text} : isBlank c = true → SpellsAll fields text → SpellsAll fields (c :: text)
  | item {field item fields text} : Spells field item → (∀ c ∈ text.head?, isBlank c = true) →
      SpellsAll fields text → SpellsAll (field :: fields) (item ++ text)

variable {operands : List OperandKind} {field : Field} {item : List Char}

/-- An item with a blank behind it in front of others. -/
theorem SpellsAll.item_blank {fields : List Field} {c : Char} {text : List Char}
    (hitem : Spells field item)
    (hblank : isBlank c = true) (h : SpellsAll fields text) :
    SpellsAll (field :: fields) (item ++ c :: text) := by
  refine .item hitem ?_ (.blank hblank h)
  rintro other ⟨rfl⟩
  exact hblank

/-- The last item, at the end of the text. -/
theorem SpellsAll.last (hitem : Spells field item) : SpellsAll [field] item := by
  rw [← List.append_nil item]
  exact .item hitem (fun c hc => nomatch hc) .nil

/-- The two digits of a byte are digits. -/
theorem isDigit_of_literal {high low : Char} {first second : Nat}
    (hhigh : Numeral.digit? 16 high = some first)
    (hlow : Numeral.digit? 16 low = some second) :
    ∀ c ∈ [high, low], Numeral.isDigit 16 c = true := by
  intro c hc
  rcases List.mem_pair.mp hc with rfl | rfl
  · rw [Numeral.isDigit, hhigh, Option.isSome_some]
  · rw [Numeral.isDigit, hlow, Option.isSome_some]

/-- Items are not empty and have no blanks. -/
theorem Spells.item_props (h : Spells field item) : item ≠ [] ∧ ∀ c ∈ item, isBlank c = false := by
  cases h with
  | literal hhigh hlow _ =>
      exact ⟨List.cons_ne_nil _ _,
        fun c hc => Token.isBlank_of_isDigit (isDigit_of_literal hhigh hlow c hc)⟩
  | @slot operand width =>
      refine ⟨List.cons_ne_nil _ _, fun c hc => ?_⟩
      simp only [List.mem_cons, List.mem_append, List.not_mem_nil, or_false] at hc
      rcases hc with rfl | rfl | rfl | rfl | hdigit | rfl
      · decide
      · decide
      · cases width <;> decide
      · decide
      · exact Token.isBlank_of_isDigit
          (Numeral.isDigit_of_mem_toDigits (by decide) (by decide) hdigit)
      · decide

/-- The two digits of a byte are read as this byte. -/
theorem ofItem_literal {byte : UInt8} (h : Spells (.literal byte) item) :
    ofItem operands item = .ok (.literal byte) := by
  cases h with
  | @literal _ high low first second hhigh hlow hbyte =>
      have hdigits := isDigit_of_literal hhigh hlow
      have hdollar : high ≠ '$' := by
        rintro rfl
        exact absurd (hdigits '$' List.mem_cons_self) (by decide)
      have hmark : low ≠ 'x' := by
        rintro rfl
        exact absurd (hdigits 'x' (by simp)) (by decide)
      have hmarks : dropMarks [high, low] = [high, low] := by
        unfold dropMarks
        split
        · rename_i heq
          simp_all
        · rfl
      have hvalue : Numeral.value? 16 [high, low] = some byte.toNat := by
        simp [Numeral.value?, Numeral.valueFrom?, hhigh, hlow, hbyte]
      have hread : Numeral.read? 16 255 [high, low] = some byte.toNat := by
        rw [Numeral.read?_of_plus_not_mem (Numeral.plus_not_mem_digits hdigits), hvalue,
          Option.filter_some]
        exact if_pos (decide_eq_true (Nat.le_of_lt_succ byte.toNat_lt))
      unfold ofItem
      split
      · rename_i heq
        exact absurd (List.cons.inj heq).1 hdollar
      · rw [hmarks, hread]
        simp

/-- The width that a slot is marked with is the one it has, if it suits the kind of the operand. -/
theorem slotWidth_marked {index : Nat} {kind : OperandKind} {width : Width}
    (h : kind = .label → width = .word) :
    slotWidth index kind (some width) = .ok width := by
  cases kind with
  | label => rw [h rfl]; rfl
  | value => rfl
  | keyword => rfl

/-- The item for an admitted slot is read as this slot. -/
theorem ofItem_slot {operand : Nat} {width : Width} (h : Spells (.slot operand width) item)
    (hadmitted : Admitted operands (.slot operand width)) :
    ofItem operands item = .ok (.slot operand width) := by
  obtain ⟨hindex, kind, hkind, hlabel⟩ := hadmitted
  cases h with
  | slot =>
      have hread : Numeral.read? 10 maxIndex (Nat.toDigits 10 operand) = some operand := by
        have hdigits : ∀ c ∈ Nat.toDigits 10 operand, Numeral.isDigit 10 c = true := fun c hc =>
          Numeral.isDigit_of_mem_toDigits (by decide) (by decide) hc
        rw [Numeral.read?_of_plus_not_mem (Numeral.plus_not_mem_digits hdigits),
          Numeral.value?_toDigits (by decide) (by decide), Option.filter_some]
        exact if_pos (decide_eq_true hindex)
      have hbracketed : bracketed? ('(' :: width.tag :: ':' :: (Nat.toDigits 10 operand ++ [')'])) =
          some (width.tag :: ':' :: Nat.toDigits 10 operand) := by
        simp [bracketed?]
      have hmarked : marked? (width.tag :: ':' :: Nat.toDigits 10 operand) =
          some (width.tag, Nat.toDigits 10 operand) := by
        cases width <;> rfl
      simp only [ofItem, hbracketed, hmarked, Width.ofTag?_tag, slotOf, hread, hkind,
        slotWidth_marked hlabel]

/-- The item for an admitted field is read as this field. -/
theorem ofItem_of_spells (h : Spells field item) (hadmitted : Admitted operands field) :
    ofItem operands item = .ok field := by
  cases field with
  | literal byte => exact ofItem_literal h
  | slot operand width => exact ofItem_slot h hadmitted

end Field

namespace Template

open EventScript.Field

variable {operands : List OperandKind} {template : Template} {fields : List Field}

/-- Indices of slots are machine words. -/
def Indexed (template : Template) : Prop :=
  ∀ operand width, Field.slot operand width ∈ template.fields → operand ≤ Field.maxIndex

/-- Admitted fields are read from their items, whatever blanks stand between these. -/
theorem fieldsOf_of_spellsAll {text : List Char} (h : SpellsAll fields text)
    (hadmitted : ∀ field ∈ fields, Admitted operands field) :
    fieldsOf operands (Text.words text) = .ok fields := by
  induction h with
  | nil => rfl
  | blank hblank _ ih =>
      rw [words_blank hblank]
      exact ih hadmitted
  | item hitem hstop _ ih =>
      obtain ⟨hfirst, hrest⟩ := List.forall_mem_cons.mp hadmitted
      obtain ⟨hne, hitemBlank⟩ := hitem.item_props
      rw [words_append hitemBlank hstop, if_neg hne]
      simp only [fieldsOf, ofItem_of_spells hitem hfirst, ih hrest]

/-- The fields of a well-formed template are admitted. -/
theorem WellFormed.admitted (h : template.WellFormed operands) (hindexed : template.Indexed) :
    ∀ field ∈ template.fields, Admitted operands field := by
  intro field hfield
  cases field with
  | literal byte => trivial
  | slot operand width =>
      have hlt := h.declared operand width hfield
      refine ⟨hindexed operand width hfield, operands[operand], List.getElem?_eq_getElem hlt,
        fun hlabel => ?_⟩
      exact h.label_width operand width hfield (by rw [List.getElem?_eq_getElem hlt, hlabel])

/-- A well-formed template is read from each of its texts. -/
theorem parse_of_spellsAll {text : String} (h : template.WellFormed operands)
    (hindexed : template.Indexed)
    (htext : SpellsAll template.fields text.toList) : parse text operands = .ok template :=
  parse_eq_ok_iff.mpr ⟨fieldsOf_of_spellsAll htext (h.admitted hindexed), h.label_placed, h.framed⟩

/-- The slots of a template that was read have indices that are machine words. -/
theorem indexed_of_parse {text : String} (h : parse text operands = .ok template) :
    template.Indexed :=
  fun _ _ hslot => (admitted_of_fieldsOf (parse_eq_ok_iff.mp h).1 _ hslot).1

/-- A byte in hexadecimal has two digits, the higher one first. -/
theorem toList_hexByte (byte : UInt8) :
    (Bytes.hexByte byte).toList =
      [Nat.digitChar (byte.toNat / 16), Nat.digitChar (byte.toNat % 16)] := by
  have hlt := byte.toNat_lt
  rw [Bytes.hexByte, String.toList_ofList, Numeral.hexDigitsPadded, Numeral.hexDigits,
    Nat.toDigits_eq_if (by decide)]
  split
  · rename_i hsmall
    rw [Nat.div_eq_of_lt hsmall, Nat.mod_eq_of_lt hsmall]
    rfl
  · rw [Nat.toDigits_of_lt_base (by omega)]
    rfl

/-- Every field is spelled by the item that is written for it. -/
theorem spells_render (field : Field) : Spells field field.render.toList := by
  cases field with
  | literal byte =>
      have hlt := byte.toNat_lt
      have hdigit : ∀ digit < 16, Numeral.digit? 16 (Nat.digitChar digit) = some digit :=
        fun digit hdigit =>
        Numeral.digit?_of_hexDigit? (Numeral.hexDigit?_digitChar digit hdigit) hdigit
      rw [Field.render, toList_hexByte]
      exact .literal (hdigit _ (by omega)) (hdigit _ (by omega)) (by omega)
  | slot operand width =>
      have htext : (Field.render (.slot operand width)).toList =
          '$' :: '(' :: width.tag :: ':' :: (Nat.toDigits 10 operand ++ [')']) := by
        simp [Field.render, toString]
      rw [htext]
      exact .slot

/-- Fields are spelled by their items with single spaces between them. -/
theorem spellsAll_intercalate (fields : List Field) :
    SpellsAll fields ([' '].intercalate (fields.map fun field => field.render.toList)) := by
  induction fields with
  | nil => exact .nil
  | cons field rest ih =>
      cases rest with
      | nil =>
          rw [List.map_singleton, List.intercalate_singleton]
          exact .last (spells_render field)
      | cons next more =>
          rw [List.map_cons, List.map_cons, List.intercalate_cons_cons, List.append_assoc,
            List.singleton_append]
          exact .item_blank (spells_render field) (by decide) ih

/-- A template is read from each of its texts, of which `render` gives one, just if it is well
formed, and no other template is ever read. -/
theorem parse_roundTrip (operands : List OperandKind) (template : Template) :
    (template.WellFormed operands → template.Indexed →
      ∀ text : String, SpellsAll template.fields text.toList → parse text operands = .ok template) ∧
    SpellsAll template.fields template.render.toList ∧
    (∀ text : String, parse text operands = .ok template →
      template.WellFormed operands ∧ template.Indexed) := by
  refine ⟨fun hwellFormed hindexed text htext =>
    parse_of_spellsAll hwellFormed hindexed htext, ?_, ?_⟩
  · rw [render, String.toList_intercalate, List.map_map]
    exact spellsAll_intercalate template.fields
  · exact fun text h => ⟨parse_wellFormed h, indexed_of_parse h⟩

/-- A template with a slot of two bytes and one of a label, in a text with several kinds of blanks.
-/
theorem parse_roundTrip_blanks :
    parse "\n0C 08\t$(u:0)\u2003 $(U:1)" [.value, .label] =
      .ok ⟨[.literal 12, .literal 8, .slot 0 .half, .slot 1 .word]⟩ := by
  have hwellFormed :
      (⟨[.literal 12, .literal 8, .slot 0 .half, .slot 1 .word]⟩ : Template).WellFormed
      [.value, .label] := by
    refine ⟨?_, ?_, ?_, ⟨8, rfl, rfl⟩⟩
    · intro operand width hslot
      simp only [List.mem_cons, reduceCtorEq, Field.slot.injEq, List.not_mem_nil, or_false,
        false_or] at hslot
      rcases hslot with ⟨rfl, rfl⟩ | ⟨rfl, rfl⟩ <;> decide
    · intro operand width hslot hlabel
      simp only [List.mem_cons, reduceCtorEq, Field.slot.injEq, List.not_mem_nil, or_false,
        false_or] at hslot
      rcases hslot with ⟨rfl, rfl⟩ | ⟨rfl, rfl⟩
      · cases hlabel
      · rfl
    · rintro (_ | _ | operand) hlabel
      · cases hlabel
      · exact ⟨.word, by decide⟩
      · cases hlabel
  have hindexed : (⟨[.literal 12, .literal 8, .slot 0 .half, .slot 1 .word]⟩ : Template).Indexed :=
    fun operand width hslot =>
      Nat.le_trans (Nat.le_of_lt (hwellFormed.declared operand width hslot)) (by decide)
  refine (parse_roundTrip _ _).1 hwellFormed hindexed _ ?_
  refine .blank (by decide) ?_
  refine @SpellsAll.item_blank _ ['0', 'C'] _ _ _ (.literal rfl rfl rfl) (by decide) ?_
  refine @SpellsAll.item_blank _ ['0', '8'] _ _ _ (.literal rfl rfl rfl) (by decide) ?_
  refine @SpellsAll.item_blank _ "$(u:0)".toList _ _ _ .slot (by decide) (.blank (by decide) ?_)
  exact .last .slot

end Template

end EventScript
