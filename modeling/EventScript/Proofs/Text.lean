import EventScript.Text.Lines
import EventScript.Text.Numeral

/-!
# Numerals and lines read back

`value?_toDigits` and `valueFrom?_hexDigitsPadded_map` say that the digits written for a number are
read as this number, and `lines_append` that a text cut into lines begins with the line in front of
its first line feed.
-/

namespace EventScript.Text

/-- The longest run of characters in front that satisfy `p` is a given one that nothing continues.
-/
theorem takeWhile_append_of_stop {p : Char → Bool} {run rest : List Char}
    (hrun : ∀ c ∈ run, p c = true) (hrest : ∀ c ∈ rest.head?, p c = false) :
    (run ++ rest).takeWhile p = run := by
  rw [List.takeWhile_append_of_pos hrun]
  cases rest with
  | nil => simp
  | cons c rest => simp [hrest c (by simp)]

/-- What follows the longest run of characters in front that satisfy `p`. -/
theorem dropWhile_append_of_stop {p : Char → Bool} {run rest : List Char}
    (hrun : ∀ c ∈ run, p c = true) (hrest : ∀ c ∈ rest.head?, p c = false) :
    (run ++ rest).dropWhile p = rest := by
  rw [List.dropWhile_append_of_pos hrun]
  cases rest with
  | nil => simp
  | cons c rest => simp [hrest c (by simp)]

/-- A run of characters in front does not reach beyond a character outside of it. -/
theorem takeWhile_append_of_head {p : Char → Bool} {rest : List Char}
    (hrest : ∀ c ∈ rest.head?, p c = false) (front : List Char) :
    (front ++ rest).takeWhile p = front.takeWhile p := by
  induction front with
  | nil => exact takeWhile_append_of_stop (fun _ hc => absurd hc List.not_mem_nil) hrest
  | cons c front ih => rw [List.cons_append, List.takeWhile_cons, List.takeWhile_cons, ih]

/-- What follows a run of characters in front, up to a character outside of it and beyond. -/
theorem dropWhile_append_of_head {p : Char → Bool} {rest : List Char}
    (hrest : ∀ c ∈ rest.head?, p c = false) (front : List Char) :
    (front ++ rest).dropWhile p = front.dropWhile p ++ rest := by
  induction front with
  | nil => exact dropWhile_append_of_stop (fun _ hc => absurd hc List.not_mem_nil) hrest
  | cons c front ih =>
      rw [List.cons_append, List.dropWhile_cons, List.dropWhile_cons, ih]
      split <;> rfl

namespace Numeral

/-- The hexadecimal digits, as they are written. -/
theorem hexDigit?_digitChar : ∀ digit < 16, hexDigit? (Nat.digitChar digit) = some digit := by
  decide

/-- The hexadecimal digits in upper case. -/
theorem hexDigit?_toUpper_digitChar :
    ∀ digit < 16, hexDigit? (Nat.digitChar digit).toUpper = some digit := by
  decide

/-- Every character of a numeral is a digit. -/
theorem exists_digitChar_of_mem_toDigits {radix value : Nat} (hradix : 1 < radix) {c : Char}
    (h : c ∈ Nat.toDigits radix value) : ∃ digit < radix, c = Nat.digitChar digit := by
  induction value using Nat.strongRecOn with
  | ind value ih =>
      rw [Nat.toDigits_eq_if hradix] at h
      split at h
      · rename_i hlt
        exact ⟨value, hlt, List.mem_singleton.mp h⟩
      · rename_i hge
        have hsmaller : value / radix < value := Nat.div_lt_self (by omega) hradix
        rcases List.mem_append.mp h with h | h
        · exact ih (value / radix) hsmaller h
        · exact ⟨value % radix, Nat.mod_lt _ (by omega), List.mem_singleton.mp h⟩

/-- Every character of a hexadecimal numeral with leading zeros is a digit. -/
theorem exists_digitChar_of_mem_hexDigitsPadded {width value : Nat} {c : Char}
    (h : c ∈ hexDigitsPadded width value) : ∃ digit < 16, c = Nat.digitChar digit := by
  rcases List.mem_append.mp h with h | h
  · exact ⟨0, by decide, (List.mem_replicate.mp h).2⟩
  · exact exists_digitChar_of_mem_toDigits (by decide) h

/-- Digits are read one part after the other. -/
theorem valueFrom?_append (radix high : Nat) (first second : List Char) :
    valueFrom? radix high (first ++ second) =
      (valueFrom? radix high first).bind fun value => valueFrom? radix value second := by
  induction first generalizing high with
  | nil => rfl
  | cons c rest ih =>
      simp only [List.cons_append, valueFrom?]
      cases digit? radix c with
      | none => rfl
      | some low => exact ih _

/-- What is a hexadecimal digit at all is a digit of every radix above its value. -/
theorem digit?_of_hexDigit? {radix : Nat} {c : Char} {digit : Nat} (h : hexDigit? c = some digit)
    (hdigit : digit < radix) : digit? radix c = some digit := by
  simp [digit?, h, Option.filter_some, hdigit]

/-- A single digit that is read behind others. -/
theorem valueFrom?_digit {radix : Nat} {c : Char} {digit : Nat} (h : hexDigit? c = some digit)
    (hdigit : digit < radix) (high : Nat) :
    valueFrom? radix high [c] = some (high * radix + digit) := by
  simp [valueFrom?, digit?_of_hexDigit? h hdigit]

/-- The digits of a number are read as this number, whichever case they are written in. -/
theorem valueFrom?_toDigits_map {radix : Nat} (hradix : 1 < radix) {spelling : Char → Char}
    (hspelling : ∀ digit < radix, hexDigit? (spelling (Nat.digitChar digit)) = some digit)
    (value : Nat) : valueFrom? radix 0 ((Nat.toDigits radix value).map spelling) = some value := by
  induction value using Nat.strongRecOn with
  | ind value ih =>
      rw [Nat.toDigits_eq_if hradix]
      split
      · rename_i hlt
        simpa using valueFrom?_digit (hspelling value hlt) hlt 0
      · rename_i hge
        have hlow : value % radix < radix := Nat.mod_lt _ (by omega)
        have hhigh := ih (value / radix) (Nat.div_lt_self (by omega) hradix)
        rw [List.map_append, valueFrom?_append, hhigh, Option.bind_some, List.map_singleton,
          valueFrom?_digit (hspelling _ hlow) hlow, Nat.div_add_mod']

/-- Leading zeros do not count. -/
theorem valueFrom?_replicate_zero {zero : Char} (hzero : hexDigit? zero = some 0) (count : Nat)
    (digits : List Char) :
    valueFrom? 16 0 (List.replicate count zero ++ digits) = valueFrom? 16 0 digits := by
  induction count with
  | zero => rfl
  | succ count ih =>
      simpa [List.replicate_succ, valueFrom?, digit?_of_hexDigit? hzero] using ih

/-- The digits of a number with leading zeros are read as this number, whichever case they are
written in. -/
theorem valueFrom?_hexDigitsPadded_map {spelling : Char → Char}
    (hspelling : ∀ digit < 16, hexDigit? (spelling (Nat.digitChar digit)) = some digit)
    (width value : Nat) :
    valueFrom? 16 0 ((hexDigitsPadded width value).map spelling) = some value := by
  have hzero : hexDigit? (spelling '0') = some 0 := hspelling 0 (by decide)
  simp only [hexDigitsPadded, List.map_append, List.map_replicate]
  rw [valueFrom?_replicate_zero hzero, hexDigits, valueFrom?_toDigits_map (by decide) hspelling]

/-- The digits of a number are read as this number. -/
theorem value?_toDigits {radix : Nat} (hlow : 1 < radix) (hhigh : radix ≤ 16) (value : Nat) :
    value? radix (Nat.toDigits radix value) = some value := by
  have hdigits : valueFrom? radix 0 ((Nat.toDigits radix value).map id) = some value :=
    valueFrom?_toDigits_map hlow
      (fun digit hdigit => hexDigit?_digitChar digit (Nat.lt_of_lt_of_le hdigit hhigh)) value
  simpa [value?] using hdigits

/-- Every character of a numeral is a digit of its radix. -/
theorem isDigit_of_mem_toDigits {radix value : Nat} (hlow : 1 < radix)
    (hhigh : radix ≤ 16) {c : Char}
    (h : c ∈ Nat.toDigits radix value) : isDigit radix c = true := by
  obtain ⟨digit, hdigit, rfl⟩ := exists_digitChar_of_mem_toDigits hlow h
  have hvalue := hexDigit?_digitChar digit (Nat.lt_of_lt_of_le hdigit hhigh)
  rw [isDigit, digit?_of_hexDigit? hvalue hdigit, Option.isSome_some]

/-- What is read as digits are digits. -/
theorem isDigit_of_valueFrom? {radix high number : Nat} {digits : List Char}
    (h : valueFrom? radix high digits = some number) :
    ∀ c ∈ digits, isDigit radix c = true := by
  induction digits generalizing high with
  | nil => exact fun c hc => absurd hc List.not_mem_nil
  | cons first rest ih =>
      simp only [valueFrom?] at h
      split at h
      · cases h
      · rename_i low hlow
        exact List.forall_mem_cons.mpr ⟨by rw [isDigit, hlow, Option.isSome_some], ih h⟩

/-- What is read as a run of digits is one. -/
theorem digits_of_value? {radix number : Nat} {digits : List Char}
    (h : value? radix digits = some number) :
    digits ≠ [] ∧ ∀ c ∈ digits, isDigit radix c = true := by
  rw [value?] at h
  split at h
  · cases h
  · rename_i hne
    exact ⟨by simpa using hne, isDigit_of_valueFrom? h⟩

/-- No plus sign stands among digits. -/
theorem plus_not_mem_digits {radix : Nat} {digits : List Char}
    (h : ∀ c ∈ digits, isDigit radix c = true) :
    '+' ∉ digits := by
  intro hplus
  have hdigit := h '+' hplus
  simp [isDigit, digit?, (by decide : hexDigit? '+' = none)] at hdigit

/-- Without a plus sign, a bounded numeral is a run of digits. -/
theorem read?_of_plus_not_mem {radix limit : Nat} {text : List Char} (h : '+' ∉ text) :
    read? radix limit text = (value? radix text).filter fun number => number ≤ limit := by
  unfold read?
  split
  · exact absurd List.mem_cons_self h
  · rfl

/-- A bounded numeral is within its limit. -/
theorem read?_le {radix limit value : Nat} {text : List Char}
    (h : read? radix limit text = some value) :
    value ≤ limit :=
  of_decide_eq_true (Option.filter_eq_some_iff.mp h).2

end Numeral

/-- A space and what is not blank do not end a line. -/
theorem ne_break {c : Char} (h : c = ' ' ∨ isBlank c = false) : c ≠ '\n' ∧ c ≠ '\r' := by
  rcases h with rfl | hblank
  · decide
  · constructor <;> (rintro rfl; exact absurd hblank (by decide))

/-- A text whose first line feed stands behind `line` begins with that line. -/
theorem lines_append {line : List Char} (hline : ∀ c ∈ line, c ≠ '\n' ∧ c ≠ '\r')
    (rest : List Char) : lines (line ++ '\n' :: rest) = line :: lines rest := by
  induction line with
  | nil => simp [lines]
  | cons c more ih =>
      obtain ⟨hfeed, hreturn⟩ := hline c List.mem_cons_self
      have hmore := ih fun c hc => hline c (List.mem_cons_of_mem _ hc)
      rw [List.cons_append, lines, hmore]
      · exact hfeed
      · intro after hc
        exact absurd hc hreturn

end EventScript.Text
