import Mathlib.Data.List.TakeWhile
import EventScript.Proofs.Scan

/-!
# Tokens of a line, written and scanned again

`Lexes` and `Scans` say which tokens a text has, without the places that only faults need: scanning
succeeds exactly with these tokens (`scan_eq_ok_iff`). Every list of tokens that is scanned from
some line is `Readable`, and the texts of such tokens with single spaces between them are scanned as
the same tokens (`scanFrom_of_readable`).
-/

namespace EventScript.Token

open Text

/-- The token at the front of a text, given by the first character and the rest, and what is left
behind it. -/
inductive Lexes : Char → List Char → Token → List Char → Prop where
  | label {rest name after} : name? rest = some (name, after) → Lexes '.' rest (.label name) after
  | symbol {rest name after} : name? rest = some (name, after) → Lexes '%' rest (.symbol name) after
  | colon {rest} : Lexes ':' rest .colon rest
  | comment {rest} : Lexes ';' rest (.comment (String.ofList rest)) []
  | keyword {c rest} : isNameStart c = true →
      Lexes c rest (.keyword (String.ofList (c :: rest.takeWhile isNameChar)))
        (rest.dropWhile isNameChar)
  | number {c rest value} : c.isDigit = true → (numeral c rest).number? = some value →
      Lexes c rest (.number value) (numeral c rest).rest
  | raw {c rest} : c ∉ ['.', '%', ':', ';'] → isNameStart c = false → c.isDigit = false →
      Lexes c rest (.raw c) rest

/-- The tokens of a text: blanks are skipped, and a token is followed by those of what is left
behind it. -/
inductive Scans : List Char → List Token → Prop where
  | nil : Scans [] []
  | blank {c rest tokens} : isBlank c = true → Scans rest tokens → Scans (c :: rest) tokens
  | token {c rest token after tokens} : isBlank c = false → Lexes c rest token after →
      Scans after tokens →
      Scans (c :: rest) (token :: tokens)

variable {c : Char} {rest after text : List Char} {token : Token} {tokens : List Token}

/-- A decimal digit is neither a letter nor a mark of another token. -/
theorem isDigit_props (h : c.isDigit = true) :
    ¬ (c = '.' ∨ c = '%') ∧ c ≠ ':' ∧ c ≠ ';' ∧ isNameStart c = false := by
  refine ⟨?_, ?_, ?_, ?_⟩
  · rintro (rfl | rfl) <;> exact absurd h (by decide)
  · rintro rfl
    exact absurd h (by decide)
  · rintro rfl
    exact absurd h (by decide)
  · cases hstart : isNameStart c with
    | false => rfl
    | true =>
        have hletter := toNat_of_isAlpha hstart
        have hdigit : 48 ≤ c.toNat ∧ c.toNat ≤ 57 := by
          simpa [Char.isDigit, UInt32.le_iff_toNat_le] using h
        omega

/-- A token that is read stands at the front. -/
theorem lexes_of_lexeme {line total : Nat} (h : lexeme line total c rest = .ok (token, after)) :
    Lexes c rest token after := by
  unfold lexeme at h
  split at h
  · rename_i hsigil
    split at h
    · cases h
    · rename_i name found hname
      rcases hsigil with rfl | rfl
      · cases h
        exact .label hname
      · cases h
        exact .symbol hname
  · rename_i hsigil
    split at h
    · rename_i hcolon
      cases h
      exact hcolon ▸ .colon
    · rename_i hcolon
      split at h
      · rename_i hcomment
        cases h
        exact hcomment ▸ .comment
      · rename_i hcomment
        split at h
        · rename_i hstart
          cases h
          exact .keyword hstart
        · rename_i hstart
          split at h
          · rename_i hdigit
            simp only at h
            split at h
            · cases h
            · rename_i value hvalue
              cases h
              exact .number hdigit hvalue
          · rename_i hdigit
            cases h
            refine .raw ?_ (Bool.eq_false_iff.mpr hstart) (Bool.eq_false_iff.mpr hdigit)
            simpa [hcolon, hcomment] using hsigil

/-- The token at the front is read, on whatever line it stands. -/
theorem lexeme_of_lexes (h : Lexes c rest token after) (line total : Nat) :
    lexeme line total c rest = .ok (token, after) := by
  cases h with
  | label hname => simp [lexeme, hname]
  | symbol hname => simp [lexeme, hname]
  | colon => simp [lexeme]
  | comment => simp [lexeme]
  | keyword hstart =>
      obtain ⟨_, hsigil, hcolon, hcomment⟩ := isNameStart_props hstart
      simp only [lexeme, hsigil, hcolon, hcomment, hstart, if_true, if_false]
  | number hdigit hvalue =>
      obtain ⟨hsigil, hcolon, hcomment, hstart⟩ := isDigit_props hdigit
      simp [lexeme, hsigil, hcolon, hcomment, hstart, hdigit, hvalue]
  | raw hmarks hstart hdigit =>
      simp only [List.mem_cons, List.not_mem_nil, or_false, not_or] at hmarks
      simp [lexeme, hmarks, hstart, hdigit]

/-- What is found by scanning are the tokens of the text. -/
theorem scans_of_scanFrom {line total : Nat} (h : scanFrom line total text = .ok tokens) :
    Scans text tokens := by
  induction hlength : text.length using Nat.strongRecOn generalizing text tokens with
  | ind length ih =>
      cases text with
      | nil =>
          rw [scanFrom_nil] at h
          cases h
          exact .nil
      | cons c rest =>
          subst hlength
          cases hblank : isBlank c with
          | true =>
              rw [scanFrom_blank hblank] at h
              exact .blank hblank (ih rest.length (Nat.lt_succ_self _) h rfl)
          | false =>
              cases hlexeme : lexeme line total c rest with
              | error fault =>
                  rw [scanFrom_error hblank hlexeme] at h
                  cases h
              | ok result =>
                  obtain ⟨token, after⟩ := result
                  have hle := lexeme_rest_length hlexeme
                  rw [scanFrom_cons hblank hlexeme] at h
                  cases hafter : scanFrom line total after with
                  | error fault =>
                      rw [hafter] at h
                      cases h
                  | ok more =>
                      rw [hafter] at h
                      cases h
                      have hmore := ih after.length (Nat.lt_succ_of_le hle) hafter rfl
                      exact .token hblank (lexes_of_lexeme hlexeme) hmore

/-- The tokens of a text are found by scanning, on whatever line it stands. -/
theorem scanFrom_of_scans (h : Scans text tokens) (line total : Nat) :
    scanFrom line total text = .ok tokens := by
  induction h with
  | nil => exact scanFrom_nil
  | blank hblank _ ih => rw [scanFrom_blank hblank, ih]
  | token hblank hlexes _ ih =>
      rw [scanFrom_cons hblank (lexeme_of_lexes hlexes line total), ih]
      rfl

/-- Scanning a line succeeds exactly with its tokens. -/
theorem scan_eq_ok_iff {line : Nat} : scan line text = .ok tokens ↔ Scans text tokens :=
  ⟨scans_of_scanFrom, fun h => scanFrom_of_scans h line text.length⟩

/-- What is read as a name is one. -/
theorem isName_of_name? {name : String} (h : name? text = some (name, after)) :
    isName name = true := by
  cases text with
  | nil => cases h
  | cons c rest =>
      simp only [name?] at h
      split at h
      · rename_i hstart
        cases h
        simp only [isName, String.toList_ofList, hstart, Bool.true_and]
        exact List.all_takeWhile
      · cases h

/-- A token at the front of a text can be written. -/
theorem Lexes.written (h : Lexes c rest token after) (hblank : isBlank c = false) :
    token.Written := by
  cases h with
  | label hname => exact isName_of_name? hname
  | symbol hname => exact isName_of_name? hname
  | keyword hstart =>
      simp only [Written, isName, String.toList_ofList, hstart, Bool.true_and]
      exact List.all_takeWhile
  | raw hmarks hstart hdigit => exact ⟨hblank, hmarks, hstart, hdigit⟩
  | colon | comment | number => trivial

/-- The tokens can be written in one line: each of them can be written, and no token stands behind a
comment. -/
def Readable : List Token → Prop
  | [] => True
  | token :: rest => token.Written ∧ (token.isComment = true → rest = []) ∧ Readable rest

/-- The tokens of a text can be written in one line. -/
theorem Scans.readable (h : Scans text tokens) : Readable tokens := by
  induction h with
  | nil => trivial
  | blank _ _ ih => exact ih
  | token hblank hlexes hscans ih =>
      refine ⟨hlexes.written hblank, fun hcomment => ?_, ih⟩
      cases hlexes with
      | comment =>
          cases hscans
          rfl
      | _ => cases hcomment

/-- Tokens that can be written in one line are scanned from their texts with single spaces between
them. -/
theorem scanFrom_of_readable (h : Readable tokens) (line total : Nat) :
    scanFrom line total ([' '].intercalate (tokens.map fun token => token.text.toList)) =
      .ok tokens := by
  induction tokens with
  | nil => exact scanFrom_nil
  | cons token rest ih =>
      obtain ⟨hwritten, hlast, hrest⟩ := h
      cases rest with
      | nil =>
          have htext := scanFrom_text hwritten (stops_nil token) line total
          rw [List.append_nil, scanFrom_nil] at htext
          rw [List.map_singleton, List.intercalate_singleton]
          exact htext
      | cons next more =>
          -- A space ends every token but a comment, and a comment is no token in front of others.
          have hcomment : token.isComment = false :=
            Bool.eq_false_iff.mpr fun hcomment => List.cons_ne_nil _ _ (hlast hcomment)
          rw [List.map_cons, List.map_cons, List.intercalate_cons_cons, List.append_assoc,
            List.singleton_append, scanFrom_text hwritten (stops_space hcomment _),
            scanFrom_blank (by decide)]
          have hmore := ih hrest
          rw [List.map_cons] at hmore
          rw [hmore]
          rfl

/-- The tokens of any line are scanned again from their texts with single spaces between them. -/
theorem scan_printed {line : Nat} {text : List Char} {tokens : List Token}
    (h : scan line text = .ok tokens)
    (again : Nat) : scan again (" ".intercalate (tokens.map Token.text)).toList = .ok tokens := by
  have hreadable : Readable tokens := (scan_eq_ok_iff.mp h).readable
  rw [String.toList_intercalate, List.map_map]
  exact scanFrom_of_readable hreadable again _

/-- A line with tokens of every kind, some without a blank between them, and a comment that ends
with blanks. -/
theorem scan_printed_mixed :
    scan 3 ".End:12ab 0XfF\t%key_1 _é$;; has it? ".toList =
        .ok [.label "End", .colon, .number 12, .keyword "ab", .number 255, .symbol "key_1",
          .raw '_', .raw 'é',
          .raw '$', .comment "; has it? "] ∧
      scan 4 ".End : 0xc ab 0xff %key_1 _ é $ ;; has it? ".toList =
        .ok [.label "End", .colon, .number 12, .keyword "ab", .number 255, .symbol "key_1",
          .raw '_', .raw 'é',
          .raw '$', .comment "; has it? "] := by
  have hscan : scan 3 ".End:12ab 0XfF\t%key_1 _é$;; has it? ".toList =
      .ok [.label "End", .colon, .number 12, .keyword "ab", .number 255, .symbol "key_1",
        .raw '_', .raw 'é',
        .raw '$', .comment "; has it? "] := by
    decide +kernel
  exact ⟨hscan, scan_printed hscan 4⟩

end EventScript.Token
