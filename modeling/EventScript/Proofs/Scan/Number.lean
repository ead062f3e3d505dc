import EventScript.CommandLine.Assembler
import EventScript.Proofs.Assembly.Spacing

/-!
# Numbers inside and outside of scripts

Scripts are cut into tokens by `Token.scan`; JSON texts and command lines give their numbers to
`Numeral.word?`. Both readers follow the same spelling (`Spells`): decimal digits, or hexadecimal
ones behind `0x` or `0X`, with any blanks around them. Only a plus sign makes a difference, which
`word?` allows and no number of a script has (`scan_number_iff` and `word?_eq_some_iff`).
-/

namespace EventScript

namespace Text.Numeral

/-- The spellings of a 32-bit number: decimal digits, or hexadecimal ones behind a mark. -/
inductive Spells (value : UInt32) : List Char → Prop where
  | decimal {digits} : value? 10 digits = some value.toNat → Spells value digits
  | hex {mark digits} : mark = 'x' ∨ mark = 'X' → value? 16 digits = some value.toNat →
      Spells value ('0' :: mark :: digits)

variable {text : List Char} {value : UInt32}

/-- No plus sign stands in the spelling of a number. -/
theorem Spells.plus_not_mem (h : Spells value text) : '+' ∉ text := by
  cases h with
  | decimal hvalue => exact plus_not_mem_digits (digits_of_value? hvalue).2
  | hex hmark hvalue =>
      have hdigits := plus_not_mem_digits (digits_of_value? hvalue).2
      rcases hmark with rfl | rfl <;> simpa using hdigits

/-- No blank stands in the spelling of a number. -/
theorem Spells.not_blank (h : Spells value text) : ∀ c ∈ text, isBlank c = false := by
  have hdigits : ∀ {radix number digits}, value? radix digits = some number →
      ∀ c ∈ digits, isBlank c = false :=
    fun hvalue c hc => Token.isBlank_of_isDigit ((digits_of_value? hvalue).2 c hc)
  cases h with
  | decimal hvalue => exact hdigits hvalue
  | hex hmark hvalue =>
      refine List.forall_mem_cons.mpr ⟨by decide, List.forall_mem_cons.mpr ⟨?_, hdigits hvalue⟩⟩
      rcases hmark with rfl | rfl <;> decide

/-- Numbers of at most 32 bits are told from their words. -/
theorem map_ofNat_eq_some_iff {number? : Option Nat} :
    (number?.filter fun number => number ≤ maxWord).map UInt32.ofNat = some value ↔
      number? = some value.toNat := by
  constructor
  · intro h
    obtain ⟨number, hnumber, rfl⟩ := Option.map_eq_some_iff.mp h
    obtain ⟨rfl, hle⟩ := Option.filter_eq_some_iff.mp hnumber
    have hlt : number < UInt32.size := Nat.lt_succ_of_le (of_decide_eq_true hle)
    rw [UInt32.toNat_ofNat_of_lt' hlt]
  · rintro rfl
    rw [Option.filter_some, if_pos (decide_eq_true (Token.toNat_le_maxWord value)), Option.map_some,
      UInt32.ofNat_toNat]

/-- The digits behind a hexadecimal mark are read as they are spelled: the mark is no decimal digit.
-/
theorem read?_hex_iff {mark : Char} {digits : List Char} (hmark : mark = 'x' ∨ mark = 'X')
    (hplus : '+' ∉ digits) :
    (read? 16 maxWord digits).map UInt32.ofNat = some value ↔
      Spells value ('0' :: mark :: digits) := by
  rw [read?_of_plus_not_mem hplus, map_ofNat_eq_some_iff]
  refine ⟨.hex hmark, fun hspells => ?_⟩
  cases hspells with
  | decimal hvalue =>
      have hdigit := (digits_of_value? hvalue).2 mark (List.mem_cons_of_mem _ List.mem_cons_self)
      rcases hmark with rfl | rfl <;> exact absurd hdigit (by decide)
  | hex _ hvalue => exact hvalue

/-- Without a plus sign, a number that stands between blanks is read as it is spelled. -/
theorem word?_eq_some_iff (h : '+' ∉ text) :
    word? text = some value ↔ Spells value (trim text) := by
  have hplus : '+' ∉ trim text := fun hmem => h ((mem_trim (by decide)).mp hmem)
  unfold word?
  generalize trim text = trimmed at hplus ⊢
  simp only
  split
  · exact read?_hex_iff (.inl rfl) fun hmem => hplus (by simp [hmem])
  · exact read?_hex_iff (.inr rfl) fun hmem => hplus (by simp [hmem])
  · rename_i hlower hupper
    rw [read?_of_plus_not_mem hplus, map_ofNat_eq_some_iff]
    refine ⟨.decimal, fun hspells => ?_⟩
    cases hspells with
    | decimal hvalue => exact hvalue
    | hex hmark _ =>
        rcases hmark with rfl | rfl
        · exact absurd rfl (hlower _)
        · exact absurd rfl (hupper _)

/-- The spelling of a number is read as this number. -/
theorem word?_of_spells (h : Spells value text) : word? text = some value := by
  rw [word?_eq_some_iff h.plus_not_mem, trim_eq_self h.not_blank]
  exact h

end Text.Numeral

namespace Token

open Text Text.Numeral

variable {c : Char} {rest text other : List Char} {tokens : List Token} {value : UInt32}

/-- A text without tokens is blank. -/
theorem Scans.isBlank (h : Scans text []) : ∀ c ∈ text, isBlank c = true := by
  generalize htokens : ([] : List Token) = tokens at h
  induction h with
  | nil => exact fun c hc => absurd hc List.not_mem_nil
  | blank hblank _ ih => exact List.forall_mem_cons.mpr ⟨hblank, ih htokens⟩
  | token => cases htokens

/-- Texts with the same words have the same tokens, unless there is a comment among them. -/
theorem Scans.of_words_eq (h : Scans text tokens)
    (hcomment : ∀ token ∈ tokens, token.isComment = false)
    (hwords : Text.words text = Text.words other) : Scans other tokens := by
  rcases scanFrom_of_words_eq hwords 0 0 0 with
    ⟨fault, _, hfault, _⟩ | ⟨found, others, hfound, hothers, hsame⟩
  · rw [scanFrom_of_scans h] at hfault
    cases hfault
  · rw [scanFrom_of_scans h] at hfound
    cases hfound
    rcases hsame with rfl | ⟨front, remark, _, rfl, _⟩
    · exact scans_of_scanFrom hothers
    · have hlast := hcomment (.comment remark) (List.mem_append_right _ List.mem_cons_self)
      cases hlast

/-- A numeral up to the end of a text is spelled by this text. -/
theorem spells_of_numeral (hvalue : (numeral c rest).number? = some value)
    (hrest : (numeral c rest).rest = []) :
    Spells value (c :: rest) := by
  unfold numeral at hvalue hrest
  cases rest with
  | nil => exact .decimal (map_ofNat_eq_some_iff.mp hvalue)
  | cons mark after =>
      by_cases hmark : mark = 'x' ∨ mark = 'X'
      · simp only [hmark, if_true] at hvalue hrest
        have hdigits : after.takeWhile (isDigit 16) = after :=
          List.takeWhile_eq_self_iff.mpr (List.dropWhile_eq_nil_iff.mp hrest)
        rw [hdigits] at hvalue
        simp only [Numeral.number?, true_and, List.head?_cons, ne_eq, Option.some.injEq] at hvalue
        split at hvalue
        · cases hvalue
        · rename_i hzero
          rw [Decidable.not_not.mp hzero]
          exact .hex hmark (map_ofNat_eq_some_iff.mp hvalue)
      · simp only [hmark, if_false] at hvalue hrest
        have hdigits : (mark :: after).takeWhile (isDigit 10) = mark :: after :=
          List.takeWhile_eq_self_iff.mpr (List.dropWhile_eq_nil_iff.mp hrest)
        rw [hdigits] at hvalue
        exact .decimal (map_ofNat_eq_some_iff.mp hvalue)

/-- Digits of radix ten are the decimal digits. -/
theorem isDigit_of_decimal (h : Text.Numeral.isDigit 10 c = true) : c.isDigit = true := by
  unfold Text.Numeral.isDigit digit? hexDigit? at h
  split at h
  · rename_i hrange
    exact Bool.and_eq_true_iff.mpr ⟨decide_eq_true hrange.1, decide_eq_true hrange.2⟩
  · split at h
    · simp only [Option.filter_some, decide_eq_true_eq, Option.isSome_ite] at h
      omega
    · split at h
      · simp only [Option.filter_some, decide_eq_true_eq, Option.isSome_ite] at h
        omega
      · cases h

/-- The spelling of a number is scanned as this number. -/
theorem scans_of_spells (h : Spells value text) : Scans text [.number value] := by
  cases h with
  | decimal hvalue =>
      obtain ⟨hne, hdigits⟩ := digits_of_value? hvalue
      obtain ⟨first, rest, rfl⟩ := List.exists_cons_of_ne_nil hne
      obtain ⟨hfirst, hrest⟩ := List.forall_mem_cons.mp hdigits
      have hnumeral := numeral_decimal first hrest
      have hnumber : (numeral first rest).number? = some value := by
        rw [hnumeral]
        exact map_ofNat_eq_some_iff.mpr hvalue
      have hlexes := Lexes.number (isDigit_of_decimal hfirst) hnumber
      rw [hnumeral] at hlexes
      exact .token (isBlank_of_isDigit hfirst) hlexes .nil
  | @hex mark digits hmark hvalue =>
      have hdigits := (digits_of_value? hvalue).2
      have hnumeral : numeral '0' (mark :: digits) = ⟨'0' :: mark :: digits, 16, digits, []⟩ := by
        simp only [numeral, hmark, if_true, List.takeWhile_eq_self_iff.mpr hdigits,
          List.dropWhile_eq_nil_iff.mpr hdigits]
      have hnumber : (numeral '0' (mark :: digits)).number? = some value := by
        rw [hnumeral]
        exact map_ofNat_eq_some_iff.mpr hvalue
      have hlexes := Lexes.number (by decide) hnumber
      rw [hnumeral] at hlexes
      exact .token (by decide) hlexes .nil

/-- A trimmed text that is scanned as a number spells it. -/
theorem spells_of_scans (h : Scans (trim text) [.number value]) : Spells value (trim text) := by
  generalize htrimmed : trim text = trimmed at h
  cases h with
  | @blank c rest _ hblank _ =>
      have hfirst := List.find?_some ((head?_trim text).symm.trans (congrArg List.head? htrimmed))
      simp [hblank] at hfirst
  | @token c rest _ _ _ _ hlexes hscans =>
      cases hlexes with
      | number _ hvalue =>
          refine spells_of_numeral hvalue ?_
          -- What is left behind the numeral is blank, and a trimmed text does not end with a blank.
          rcases List.eq_nil_or_concat (numeral c rest).rest with hnil | ⟨front, last, hlast⟩
          · exact hnil
          · obtain ⟨before, hbefore⟩ := numeral_rest_suffix c rest
            rw [hlast] at hbefore hscans
            have hend : trim text = (c :: before ++ front) ++ [last] := by
              rw [htrimmed, ← hbefore]
              simp
            have hblank := hscans.isBlank last (by simp)
            rw [isBlank_of_trim hend] at hblank
            cases hblank

/-- A line is scanned as a number just if it spells this number, up to blanks around it. -/
theorem scan_number_iff {line : Nat} :
    scan line text = .ok [.number value] ↔ Spells value (trim text) := by
  have hcomment : ∀ token ∈ [Token.number value], token.isComment = false :=
    List.forall_mem_singleton.mpr rfl
  rw [scan_eq_ok_iff]
  constructor
  · intro h
    exact spells_of_scans (h.of_words_eq hcomment (words_trim text).symm)
  · intro h
    exact (scans_of_spells h).of_words_eq hcomment (words_trim text)

end Token

namespace Json

open Text Text.Numeral

/-- The text of a number in JSON: its decimal digits, or what stands in the string. -/
def NumberForm.spelling : NumberForm → List Char
  | .integer value => Nat.toDigits 10 value.toNat
  | .text spelling => spelling.toList

/-- A number in JSON is the one that its text stands for elsewhere. -/
theorem NumberForm.value_eq_ok_iff {form : NumberForm} {value : UInt32} :
    form.value = .ok value ↔ word? form.spelling = some value := by
  cases form with
  | integer given =>
      have hgiven : word? (Nat.toDigits 10 given.toNat) = some given :=
        word?_of_spells (.decimal (value?_toDigits (by decide) (by decide) _))
      simp [NumberForm.value, NumberForm.spelling, hgiven]
  | text spelling =>
      simp only [NumberForm.value, NumberForm.spelling]
      cases word? spelling.toList <;> simp

/-- A number is read where a reader finds one, whatever the reader. -/
theorem numberOf_eq_ok_iff {decode : Reader NumberForm} {json after : List Char} {value : UInt32} :
    numberOf decode json = .ok (value, after) ↔
      ∃ form, decode json = .ok (form, after) ∧ word? form.spelling = some value := by
  simp only [← NumberForm.value_eq_ok_iff, numberOf, bind, Except.bind]
  cases decode json with
  | error fault => simp
  | ok result =>
      obtain ⟨form, rest⟩ := result
      cases hvalue : form.value with
      | error fault => simp [hvalue]
      | ok found => simp [hvalue, and_comm]

end Json

namespace Token

/-- A line is scanned as a number just if it is read as this number elsewhere and has no plus sign.
-/
theorem scan_eq_number_iff {line : Nat} {text : List Char} {value : UInt32} :
    scan line text = .ok [.number value] ↔ '+' ∉ text ∧ Text.Numeral.word? text = some value := by
  rw [scan_number_iff]
  constructor
  · intro hspells
    have hplus : '+' ∉ text :=
      fun hmem => hspells.plus_not_mem ((Text.mem_trim (by decide)).mpr hmem)
    exact ⟨hplus, (Text.Numeral.word?_eq_some_iff hplus).mpr hspells⟩
  · rintro ⟨hplus, hword⟩
    exact (Text.Numeral.word?_eq_some_iff hplus).mp hword

/-- Scripts and other texts have the same numbers. A line is one number just if its text, without a
plus sign, is read as this number; hence a number in JSON, whatever finds it there, or on a command
line means the same in a script, if no plus sign is in it. -/
theorem numbers_agree (line : Nat) (value : UInt32) :
    (∀ text : List Char, scan line text = .ok [.number value] ↔
      '+' ∉ text ∧ Text.Numeral.word? text = some value) ∧
    (∀ (decode : Json.Reader Json.NumberForm) (json after : List Char),
      Json.numberOf decode json = .ok (value, after) ↔
        ∃ form, decode json = .ok (form, after) ∧ Text.Numeral.word? form.spelling = some value ∧
          ('+' ∉ form.spelling → scan line form.spelling = .ok [.number value])) ∧
    (∀ (argument : String) (fallback : UInt32), CommandLine.isNumber argument = true →
      CommandLine.numberOr fallback (some argument) = value → '+' ∉ argument.toList →
      scan line argument.toList = .ok [.number value]) := by
  refine ⟨fun text => scan_eq_number_iff, ?_, ?_⟩
  · intro decode json after
    rw [Json.numberOf_eq_ok_iff]
    constructor
    · rintro ⟨form, hform, hword⟩
      exact ⟨form, hform, hword, fun hplus => scan_eq_number_iff.mpr ⟨hplus, hword⟩⟩
    · rintro ⟨form, hform, hword, _⟩
      exact ⟨form, hform, hword⟩
  · intro argument fallback haccepted hvalue hplus
    obtain ⟨found, hfound⟩ := Option.isSome_iff_exists.mp haccepted
    have hsame : found = value := by
      rw [← hvalue, CommandLine.numberOr, Option.bind_some, hfound, Option.getD_some]
    exact scan_eq_number_iff.mpr ⟨hplus, hsame ▸ hfound⟩

/-- The largest number in hexadecimal between unusual blanks, the same in a JSON string, a JSON
number, and a decimal number with leading zeros on a command line. -/
theorem numbers_agree_spellings :
    scan 1 "\u2003 0XFFFFFFFF\t".toList = .ok [.number 0xffffffff] ∧
      (∃ form, Json.numberForm " \"0xffffFFFF\",".toList = .ok (form, [',']) ∧
        Text.Numeral.word? form.spelling = some 0xffffffff ∧
        ('+' ∉ form.spelling → scan 1 form.spelling = .ok [.number 0xffffffff])) ∧
      (∃ form, Json.numberForm " 4096 ]".toList = .ok (form, " ]".toList) ∧
        Text.Numeral.word? form.spelling = some 0x1000 ∧
        ('+' ∉ form.spelling → scan 1 form.spelling = .ok [.number 0x1000])) ∧
      scan 1 "0012".toList = .ok [.number 12] := by
  refine ⟨((numbers_agree 1 0xffffffff).1 _).mpr (by decide), ?_, ?_,
    (numbers_agree 1 12).2.2 "0012" 0 (by decide) (by decide) (by decide)⟩
  · exact ((numbers_agree 1 0xffffffff).2.1 _ _ _).mp (by decide +kernel)
  · exact ((numbers_agree 1 0x1000).2.1 _ _ _).mp (by decide +kernel)

end Token

end EventScript
