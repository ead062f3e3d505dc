import EventScript.Proofs.Text
import EventScript.Token.Scan

/-!
# Tokens read back

`scanFrom_text` says that the text of a token in front of a text is scanned as this token, provided
that the token can be written at all (`Written`) and that nothing behind it continues it (`Stops`).
A space continues no token, so `scanFrom_spaced` follows: texts of tokens with a space in front of
each are scanned as these tokens.
-/

namespace EventScript.Token

open Text

/-- The text is a letter that is followed by letters, digits and underscores. -/
def isName (name : String) : Bool :=
  match name.toList with
  | [] => false
  | c :: rest => isNameStart c && rest.all isNameChar

/-- The token is one that can be read from a line. -/
def Written : Token → Prop
  | .label name => isName name = true
  | .symbol name => isName name = true
  | .keyword word => isName word = true
  | .raw c => isBlank c = false ∧ c ∉ ['.', '%', ':', ';'] ∧ isNameStart c = false ∧
      c.isDigit = false
  | _ => True

/-- The text does not continue the token in front of it. -/
def Stops : Token → List Char → Prop
  | .label _, rest => ∀ c ∈ rest.head?, isNameChar c = false
  | .symbol _, rest => ∀ c ∈ rest.head?, isNameChar c = false
  | .keyword _, rest => ∀ c ∈ rest.head?, isNameChar c = false
  | .number _, rest => ∀ c ∈ rest.head?, Text.Numeral.isDigit 16 c = false
  | .comment _, rest => rest = []
  | _, _ => True

/-- The codes of letters. -/
theorem toNat_of_isAlpha {c : Char} (h : c.isAlpha = true) :
    (65 ≤ c.toNat ∧ c.toNat ≤ 90) ∨ (97 ≤ c.toNat ∧ c.toNat ≤ 122) := by
  have hcase : c.isUpper = true ∨ c.isLower = true := Bool.or_eq_true_iff.mp h
  rcases hcase with hupper | hlower
  · have hrange : c.val ≥ 'A'.val ∧ c.val ≤ 'Z'.val := of_decide_eq_true hupper
    exact Or.inl hrange
  · obtain ⟨hlow, hhigh⟩ := Bool.and_eq_true_iff.mp hlower
    exact Or.inr ⟨of_decide_eq_true hlow, of_decide_eq_true hhigh⟩

/-- The codes of characters that continue names. -/
theorem toNat_of_isNameChar {c : Char} (h : isNameChar c = true) :
    (48 ≤ c.toNat ∧ c.toNat ≤ 57) ∨ (65 ≤ c.toNat ∧ c.toNat ≤ 90) ∨ c.toNat = 95 ∨
      (97 ≤ c.toNat ∧ c.toNat ≤ 122) := by
  simp only [isNameChar, Char.isAlphanum, Bool.or_eq_true, beq_iff_eq] at h
  rcases h with (h | h) | rfl
  · have := toNat_of_isAlpha h
    omega
  · simp only [Char.isDigit, Bool.and_eq_true, decide_eq_true_eq, ge_iff_le,
      UInt32.le_iff_toNat_le] at h
    exact Or.inl h
  · exact Or.inr (Or.inr (Or.inl rfl))

/-- No blank has a code from the exclamation mark to the tilde. -/
theorem isBlank_eq_false {c : Char} (hlow : 33 ≤ c.toNat) (hhigh : c.toNat ≤ 126) :
    isBlank c = false := by
  simp only [isBlank, Bool.or_eq_false_iff, Bool.and_eq_false_iff, decide_eq_false_iff_not,
    beq_eq_false_iff_ne, ne_eq]
  omega

/-- Letters and digits continue names. -/
theorem isAlphanum_eq_false {c : Char} (h : isNameChar c = false) :
    c.isAlpha = false ∧ c.isDigit = false := by
  simp only [isNameChar, Char.isAlphanum, Bool.or_eq_false_iff] at h
  exact h.1

/-- What continues no name is no digit of any radix. -/
theorem isDigit_eq_false {c : Char} (h : isNameChar c = false) (radix : Nat) :
    Text.Numeral.isDigit radix c = false := by
  obtain ⟨halpha, hdigit⟩ := isAlphanum_eq_false h
  have hdecimal : ¬ ('0' ≤ c ∧ c ≤ '9') := by
    rintro ⟨hlow, hhigh⟩
    have hother : c.isDigit = true :=
      Bool.and_eq_true_iff.mpr ⟨decide_eq_true hlow, decide_eq_true hhigh⟩
    simp [hdigit] at hother
  have hlower : ¬ ('a' ≤ c ∧ c ≤ 'f') := by
    rintro ⟨hlow, hhigh⟩
    have hrange : c ≤ 'z' := Char.le_trans hhigh (by decide)
    have hother : c.isAlpha = true :=
      Bool.or_eq_true_iff.mpr
        (.inr (Bool.and_eq_true_iff.mpr ⟨decide_eq_true hlow, decide_eq_true hrange⟩))
    simp [halpha] at hother
  have hupper : ¬ ('A' ≤ c ∧ c ≤ 'F') := by
    rintro ⟨hlow, hhigh⟩
    have hrange : c ≤ 'Z' := Char.le_trans hhigh (by decide)
    have hother : c.isAlpha = true := Bool.or_eq_true_iff.mpr (.inl (decide_eq_true ⟨hlow, hrange⟩))
    simp [halpha] at hother
  have hnone : Text.Numeral.hexDigit? c = none := by
    rw [Text.Numeral.hexDigit?, if_neg hdecimal, if_neg hlower, if_neg hupper]
  simp [Text.Numeral.isDigit, Text.Numeral.digit?, hnone]

/-- A digit of any radix is a letter or a decimal digit. -/
theorem isNameChar_of_isDigit {radix : Nat} {c : Char} (h : Text.Numeral.isDigit radix c = true) :
    isNameChar c = true := by
  cases hname : isNameChar c with
  | true => rfl
  | false =>
      rw [isDigit_eq_false hname radix] at h
      cases h

/-- No blank is a digit. -/
theorem isBlank_of_isDigit {radix : Nat} {c : Char} (h : Text.Numeral.isDigit radix c = true) :
    isBlank c = false := by
  have hcode := toNat_of_isNameChar (isNameChar_of_isDigit h)
  exact isBlank_eq_false (by omega) (by omega)

/-- A letter is neither a blank nor a mark of another token. -/
theorem isNameStart_props {c : Char} (h : isNameStart c = true) :
    isBlank c = false ∧ ¬ (c = '.' ∨ c = '%') ∧ c ≠ ':' ∧ c ≠ ';' := by
  have hcode := toNat_of_isAlpha h
  refine ⟨isBlank_eq_false (by omega) (by omega), ?_, ?_, ?_⟩
  · rintro (rfl | rfl) <;> exact absurd h (by decide)
  · rintro rfl
    exact absurd h (by decide)
  · rintro rfl
    exact absurd h (by decide)

/-- The parts of a name. -/
theorem exists_of_isName {name : String} (h : isName name = true) :
    ∃ c rest, name.toList = c :: rest ∧ isNameStart c = true ∧
      ∀ other ∈ rest, isNameChar other = true := by
  unfold isName at h
  split at h
  · cases h
  · rename_i c rest hname
    simp only [Bool.and_eq_true, List.all_eq_true] at h
    exact ⟨c, rest, hname, h.1, h.2⟩

/-- A name in front of a text that does not continue it is read as this name. -/
theorem name?_append {name : String} (h : isName name = true) {rest : List Char}
    (hrest : ∀ c ∈ rest.head?, isNameChar c = false) :
    name? (name.toList ++ rest) = some (name, rest) := by
  obtain ⟨c, more, hname, hstart, hmore⟩ := exists_of_isName h
  rw [hname, List.cons_append]
  simp only [name?, hstart, if_true]
  rw [takeWhile_append_of_stop hmore hrest, dropWhile_append_of_stop hmore hrest, ← hname,
    String.ofList_toList]

/-- Every 32-bit number is at most the largest one. -/
theorem toNat_le_maxWord (value : UInt32) : value.toNat ≤ Text.Numeral.maxWord := by
  have := value.toNat_lt
  simp only [Text.Numeral.maxWord]
  omega

/-- The numeral of a number in front of a text that does not continue it is read as this number. -/
theorem number?_append (value : UInt32) {rest : List Char}
    (hrest : ∀ c ∈ rest.head?, Text.Numeral.isDigit 16 c = false) :
    (numeral '0' ('x' :: (Text.Numeral.hexDigits value.toNat ++ rest))).number? = some value ∧
      (numeral '0' ('x' :: (Text.Numeral.hexDigits value.toNat ++ rest))).rest = rest := by
  have hdigits : ∀ c ∈ Text.Numeral.hexDigits value.toNat, Text.Numeral.isDigit 16 c = true :=
    fun c hc => Text.Numeral.isDigit_of_mem_toDigits (by decide) (by decide) hc
  have hvalue : Text.Numeral.value? 16 (Text.Numeral.hexDigits value.toNat) = some value.toNat :=
    Text.Numeral.value?_toDigits (by decide) (by decide) _
  simp only [numeral, true_or, if_true]
  rw [takeWhile_append_of_stop hdigits hrest, dropWhile_append_of_stop hdigits hrest]
  simp [Numeral.number?, hvalue, Option.filter_some, toNat_le_maxWord]

/-- A run of decimal digits up to the end of a text is a decimal numeral. -/
theorem numeral_decimal (first : Char) {rest : List Char}
    (hrest : ∀ c ∈ rest, Text.Numeral.isDigit 10 c = true) :
    numeral first rest = ⟨first :: rest, 10, first :: rest, []⟩ := by
  cases rest with
  | nil => rfl
  | cons mark after =>
      have hmark : ¬ (mark = 'x' ∨ mark = 'X') := by
        rintro (rfl | rfl) <;> exact absurd (hrest _ List.mem_cons_self) (by decide)
      have htake : ((mark :: after) ++ []).takeWhile (Text.Numeral.isDigit 10) = mark :: after :=
        takeWhile_append_of_stop hrest (by simp)
      have hdrop : ((mark :: after) ++ []).dropWhile (Text.Numeral.isDigit 10) = [] :=
        dropWhile_append_of_stop hrest (by simp)
      rw [List.append_nil] at htake hdrop
      simp only [numeral, hmark, if_false, htake, hdrop]

/-- The text of a token in front of a text that does not continue it is read as this token. -/
theorem lexeme_text {token : Token} (hwritten : token.Written) {rest : List Char}
    (hstops : token.Stops rest) (line total : Nat) :
    ∃ c more, token.text.toList = c :: more ∧ isBlank c = false ∧
      lexeme line total c (more ++ rest) = .ok (token, rest) := by
  cases token with
  | label name =>
      refine ⟨'.', name.toList, by simp [text], by decide, ?_⟩
      simp [lexeme, name?_append hwritten hstops]
  | symbol name =>
      refine ⟨'%', name.toList, by simp [text], by decide, ?_⟩
      simp [lexeme, name?_append hwritten hstops]
  | keyword word =>
      obtain ⟨c, more, hword, hstart, hmore⟩ := exists_of_isName hwritten
      obtain ⟨hblank, hsigil, hcolon, hcomment⟩ := isNameStart_props hstart
      refine ⟨c, more, hword, hblank, ?_⟩
      simp only [lexeme, hsigil, hcolon, hcomment, hstart, if_true, if_false]
      rw [takeWhile_append_of_stop hmore hstops, dropWhile_append_of_stop hmore hstops, ← hword,
        String.ofList_toList]
  | number value =>
      obtain ⟨hnumber, hrest⟩ := number?_append value hstops
      refine ⟨'0', 'x' :: Text.Numeral.hexDigits value.toNat,
        by simp [text, Text.Numeral.hex], by decide, ?_⟩
      have hzero : isNameStart '0' = false := by decide
      simp [lexeme, hzero, hnumber, hrest]
  | colon => exact ⟨':', [], rfl, by decide, by simp [lexeme]⟩
  | comment remark =>
      cases hstops
      exact ⟨';', remark.toList, by simp [text], by decide, by simp [lexeme]⟩
  | raw c =>
      obtain ⟨hblank, hmarks, hstart, hdigit⟩ := hwritten
      simp only [List.mem_cons, List.not_mem_nil, or_false, not_or] at hmarks
      refine ⟨c, [], by simp [text], hblank, ?_⟩
      simp [lexeme, hmarks, hstart, hdigit]

-- The equations of this recursion are slow to derive from its patterns; unfolding it once is not.
/-- An empty text has no tokens. -/
theorem scanFrom_nil {line total : Nat} : scanFrom line total [] = .ok [] := by
  rw [scanFrom.eq_def]

/-- Blanks are skipped. -/
theorem scanFrom_blank {c : Char} (hblank : isBlank c = true) (line total : Nat)
    (rest : List Char) : scanFrom line total (c :: rest) = scanFrom line total rest := by
  conv => lhs; rw [scanFrom.eq_def]
  simp only [hblank, if_true]

/-- Spaces in front are skipped. -/
theorem scanFrom_replicate (count line total : Nat) (rest : List Char) :
    scanFrom line total (List.replicate count ' ' ++ rest) = scanFrom line total rest := by
  induction count with
  | zero => rfl
  | succ count ih => rw [List.replicate_succ, List.cons_append, scanFrom_blank (by decide), ih]

/-- Scanning goes on behind the token in front. -/
theorem scanFrom_cons {c : Char} {rest after : List Char} {token : Token} {line total : Nat}
    (hblank : isBlank c = false) (h : lexeme line total c rest = .ok (token, after)) :
    scanFrom line total (c :: rest) = (scanFrom line total after).map (token :: ·) := by
  conv => lhs; rw [scanFrom.eq_def]
  simp only [hblank, Bool.false_eq_true, if_false]
  split
  · rename_i heq
    simp [h] at heq
  · rename_i heq
    simp only [h, Except.ok.injEq, Prod.mk.injEq] at heq
    obtain ⟨rfl, rfl⟩ := heq
    cases scanFrom line total after <;> rfl

/-- A fault of the token in front is one of the text. -/
theorem scanFrom_error {c : Char} {rest : List Char} {line total : Nat} {fault : LexError}
    (hblank : isBlank c = false) (h : lexeme line total c rest = .error fault) :
    scanFrom line total (c :: rest) = .error fault := by
  conv => lhs; rw [scanFrom.eq_def]
  simp only [hblank, Bool.false_eq_true, if_false]
  split
  · rename_i heq
    rw [h] at heq
    cases heq
    rfl
  · rename_i heq
    rw [h] at heq
    cases heq

/-- The text of a token in front of a text that does not continue it is scanned as this token. -/
theorem scanFrom_text {token : Token} (hwritten : token.Written) {rest : List Char}
    (hstops : token.Stops rest) (line total : Nat) :
    scanFrom line total (token.text.toList ++ rest) =
      (scanFrom line total rest).map (token :: ·) := by
  obtain ⟨c, more, htext, hblank, hlexeme⟩ := lexeme_text hwritten hstops line total
  rw [htext, List.cons_append]
  exact scanFrom_cons hblank hlexeme

/-- The token can stand in front of other tokens: it is no comment. -/
def isComment : Token → Bool
  | .comment _ => true
  | _ => false

/-- A space continues no token that can stand in front of others. -/
theorem stops_space {token : Token} (h : token.isComment = false) (rest : List Char) :
    token.Stops (' ' :: rest) := by
  cases token with
  | comment remark => simp [isComment] at h
  | label | symbol | keyword =>
      intro c hc
      cases hc
      decide
  | number value =>
      intro c hc
      cases hc
      decide
  | colon | raw => trivial

/-- The end of a text continues no token. -/
theorem stops_nil (token : Token) : token.Stops [] := by
  cases token <;> simp [Stops]

/-- Tokens behind a space continue no token that can stand in front of others. -/
theorem stops_spaced {token : Token} (h : token.isComment = false) (tokens : List Token) :
    token.Stops (tokens.flatMap fun other => ' ' :: other.text.toList) := by
  cases tokens with
  | nil => exact stops_nil token
  | cons next more => exact stops_space h _

/-- Tokens are scanned from their texts with a space in front of each. -/
theorem scanFrom_spaced {tokens : List Token} (hwritten : ∀ token ∈ tokens, token.Written)
    (hcomment : ∀ token ∈ tokens, token.isComment = false) (line total : Nat) :
    scanFrom line total (tokens.flatMap fun token => ' ' :: token.text.toList) = .ok tokens := by
  induction tokens with
  | nil => exact scanFrom_nil
  | cons token rest ih =>
      have hrest := ih (fun other hother => hwritten other (List.mem_cons_of_mem _ hother))
        (fun other hother => hcomment other (List.mem_cons_of_mem _ hother))
      rw [List.flatMap_cons, List.cons_append, scanFrom_blank (by decide),
        scanFrom_text (hwritten token List.mem_cons_self)
          (stops_spaced (hcomment token List.mem_cons_self) rest), hrest]
      rfl

/-- No blank stands in the text of a token that is no comment. -/
theorem isBlank_of_mem_text {token : Token} (hwritten : token.Written)
    (hcomment : token.isComment = false) {c : Char} (h : c ∈ token.text.toList) :
    isBlank c = false := by
  have hname : ∀ {name : String}, isName name = true → c ∈ name.toList → isBlank c = false := by
    intro name hisName hmem
    obtain ⟨first, rest, hname, hstart, hrest⟩ := exists_of_isName hisName
    rw [hname] at hmem
    rcases List.mem_cons.mp hmem with rfl | hmem
    · exact (isNameStart_props hstart).1
    · have hcode := toNat_of_isNameChar (hrest c hmem)
      exact isBlank_eq_false (by omega) (by omega)
  cases token with
  | comment remark => simp [isComment] at hcomment
  | label name =>
      simp only [text, String.toList_append, List.mem_append] at h
      rcases h with h | h
      · obtain rfl : c = '.' := by simpa using h
        decide
      · exact hname hwritten h
  | symbol name =>
      simp only [text, String.toList_append, List.mem_append] at h
      rcases h with h | h
      · obtain rfl : c = '%' := by simpa using h
        decide
      · exact hname hwritten h
  | keyword word => exact hname hwritten h
  | number value =>
      simp only [text, Numeral.hex, String.toList_append, String.toList_ofList,
        List.mem_append] at h
      rcases h with h | h
      · have hmark : c = '0' ∨ c = 'x' := by simpa using h
        rcases hmark with rfl | rfl <;> decide
      · exact isBlank_of_isDigit (Numeral.isDigit_of_mem_toDigits (by decide) (by decide) h)
  | colon =>
      obtain rfl : c = ':' := by simpa [text] using h
      decide
  | raw other =>
      obtain rfl : c = other := by simpa [text] using h
      exact hwritten.1

end EventScript.Token
