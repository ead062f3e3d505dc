import EventScript.Proofs.Assembly.Reading
import EventScript.Proofs.Text.Words

/-!
# Lines with the same words

No token but a comment goes on behind a blank, so the tokens of a line are those of its words: lines
with the same words have the same tokens, or both have none (`scanFrom_of_words_eq`), and are read
alike (`readAlike_of_words_eq`).
-/

namespace EventScript

namespace Token

open Text

variable {c : Char} {text other rest : List Char}

/-- No blank continues a name. -/
theorem isNameChar_of_isBlank (h : isBlank c = true) : isNameChar c = false := by
  cases hname : isNameChar c with
  | false => rfl
  | true =>
      have hcode := toNat_of_isNameChar hname
      rw [isBlank_eq_false (by omega) (by omega)] at h
      cases h

/-- What is left after a numeral stands at the end of what followed its first digit. -/
theorem numeral_rest_suffix (first : Char) (rest : List Char) :
    (numeral first rest).rest <:+ rest := by
  unfold numeral
  split
  · rename_i mark after
    split
    · exact (List.dropWhile_suffix _).trans (List.suffix_cons mark after)
    · exact List.dropWhile_suffix _
  · exact List.suffix_rfl

/-- What is left after a name stands at the end of the text. -/
theorem name?_rest_suffix {name : String} {after : List Char}
    (h : name? text = some (name, after)) : after <:+ text := by
  cases text with
  | nil => cases h
  | cons first rest =>
      simp only [name?] at h
      split at h
      · cases h
        exact (List.dropWhile_suffix _).trans (List.suffix_cons first rest)
      · cases h

/-- What is left after a token stands at the end of what followed its first character. -/
theorem Lexes.rest_suffix {after : List Char} {token : Token} (h : Lexes c rest token after) :
    after <:+ rest := by
  cases h with
  | label hname => exact name?_rest_suffix hname
  | symbol hname => exact name?_rest_suffix hname
  | keyword => exact List.dropWhile_suffix _
  | number => exact numeral_rest_suffix c rest
  | comment => exact List.nil_suffix
  | colon | raw => exact List.suffix_rfl

/-- The tokens are the same but for the text of a comment at the end. -/
def SameTokens (tokens others : List Token) : Prop :=
  tokens = others ∨
    ∃ front remark otherRemark, tokens = front ++ [.comment remark] ∧
      others = front ++ [.comment otherRemark]

/-- The same token in front. -/
theorem SameTokens.cons {tokens others : List Token} (h : SameTokens tokens others)
    (token : Token) :
    SameTokens (token :: tokens) (token :: others) := by
  rcases h with rfl | ⟨front, remark, otherRemark, rfl, rfl⟩
  · exact .inl rfl
  · exact .inr ⟨token :: front, remark, otherRemark, rfl, rfl⟩

/-- Both texts have no tokens, or they have the same ones but for the text of a comment. -/
def ScannedAlike (line total : Nat) (text : List Char) (otherTotal : Nat) (other : List Char) :
    Prop :=
  (∃ fault otherFault, scanFrom line total text = .error fault ∧
    scanFrom line otherTotal other = .error otherFault) ∨
    ∃ tokens others, scanFrom line total text = .ok tokens ∧
      scanFrom line otherTotal other = .ok others ∧
      SameTokens tokens others

/-- A word without a semicolon in front stands in front of texts that do not continue it: if what is
left after its first token is scanned alike, so is the whole. -/
theorem ScannedAlike.word {line total otherTotal : Nat} {word rest otherRest : List Char}
    (hblank : isBlank c = false)
    (hcomment : c ≠ ';') (hrest : ∀ d ∈ rest.head?, isBlank d = true)
    (hother : ∀ d ∈ otherRest.head?, isBlank d = true)
    (h : ∀ after, after <:+ word →
      ScannedAlike line total (after ++ rest) otherTotal (after ++ otherRest)) :
    ScannedAlike line total (c :: word ++ rest) otherTotal (c :: word ++ otherRest) := by
  have hstop : ∀ d ∈ rest.head?, isNameChar d = false :=
    fun d hd => isNameChar_of_isBlank (hrest d hd)
  have hotherStop : ∀ d ∈ otherRest.head?, isNameChar d = false :=
    fun d hd => isNameChar_of_isBlank (hother d hd)
  rw [List.cons_append, List.cons_append]
  cases hlexeme : lexeme line 0 c word with
  | error fault =>
      obtain ⟨first, hfirst⟩ := exists_lexeme_append_error hcomment hstop hlexeme total
      obtain ⟨second, hsecond⟩ := exists_lexeme_append_error hcomment hotherStop hlexeme otherTotal
      exact .inl ⟨first, second, scanFrom_error hblank hfirst, scanFrom_error hblank hsecond⟩
  | ok result =>
      obtain ⟨token, after⟩ := result
      have hscan := scanFrom_cons hblank (lexeme_append_ok hcomment hstop hlexeme total)
      have hotherScan :=
        scanFrom_cons hblank (lexeme_append_ok hcomment hotherStop hlexeme otherTotal)
      rcases h after (lexes_of_lexeme hlexeme).rest_suffix with
        ⟨fault, otherFault, hfault, hotherFault⟩ | ⟨tokens, others, htokens, hothers, hsame⟩
      · exact .inl ⟨fault, otherFault, by rw [hscan, hfault]; rfl,
          by rw [hotherScan, hotherFault]; rfl⟩
      · exact .inr ⟨token :: tokens, token :: others, by rw [hscan, htokens]; rfl,
          by rw [hotherScan, hothers]; rfl,
          hsame.cons token⟩

/-- Blanks at the start are skipped. -/
theorem scanFrom_trimStart (line total : Nat) (text : List Char) :
    scanFrom line total (trimStart text) = scanFrom line total text := by
  induction text with
  | nil => rfl
  | cons c text ih =>
      cases hblank : isBlank c with
      | true =>
          rw [trimStart, List.dropWhile_cons_of_pos hblank, ← trimStart, ih, scanFrom_blank hblank]
      | false => rw [trimStart, List.dropWhile_cons_of_neg (by simp [hblank])]

/-- Texts with the same words have the same tokens, or both have none. -/
theorem scanFrom_of_words_eq (h : words text = words other) (line total otherTotal : Nat) :
    ScannedAlike line total text otherTotal other := by
  induction hlength : text.length using Nat.strongRecOn generalizing text other with
  | ind length ih =>
      rw [ScannedAlike, ← scanFrom_trimStart line total text,
        ← scanFrom_trimStart line otherTotal other]
      rw [← words_trimStart text, ← words_trimStart other] at h
      have hle : (trimStart text).length ≤ text.length := (List.dropWhile_sublist isBlank).length_le
      cases htext : trimStart text with
      | nil =>
          cases hother : trimStart other with
          | nil => exact .inr ⟨[], [], scanFrom_nil, scanFrom_nil, .inl rfl⟩
          | cons d rest =>
              obtain ⟨_, _, _, _, _, hwords⟩ := exists_word (isBlank_of_trimStart hother) rest
              rw [htext, hother, hwords] at h
              cases h
      | cons c rest =>
          have hblank := isBlank_of_trimStart htext
          obtain ⟨word, later, rfl, hword, hlater, hwords⟩ := exists_word hblank rest
          cases hother : trimStart other with
          | nil =>
              rw [htext, hother, hwords] at h
              cases h
          | cons d otherRest =>
              obtain ⟨otherWord, otherLater, rfl, _, hotherLater, hotherWords⟩ :=
                exists_word (isBlank_of_trimStart hother) otherRest
              rw [htext, hother, hwords, hotherWords] at h
              obtain ⟨hfirst, hrest⟩ := List.cons.inj h
              cases hfirst
              by_cases hcomment : c = ';'
              · subst hcomment
                exact .inr ⟨_, _, scanFrom_semicolon .., scanFrom_semicolon ..,
                  .inr ⟨[], _, _, rfl, rfl⟩⟩
              · refine ScannedAlike.word hblank hcomment hlater hotherLater fun after hafter => ?_
                -- What is left of the word is scanned with the rest, which has the same words.
                have hpart : ∀ d ∈ after, isBlank d = false := fun d hd =>
                  hword d (List.mem_cons_of_mem _ (hafter.subset hd))
                have hshorter : (after ++ later).length < length := by
                  have := hafter.length_le
                  rw [htext] at hle
                  simp only [List.length_cons, List.length_append] at hle ⊢
                  omega
                refine ih _ hshorter ?_ rfl
                rw [words_append hpart hlater, words_append hpart hotherLater, hrest]

end Token

namespace Assembly

open Text

/-- Tokens that are the same but for the text of a comment have the same statement. -/
theorem withoutComment_of_sameTokens {tokens others : List Token}
    (h : Token.SameTokens tokens others) :
    Token.withoutComment others = Token.withoutComment tokens := by
  rcases h with rfl | ⟨front, remark, otherRemark, rfl, rfl⟩
  · rfl
  · rw [withoutComment_concat, withoutComment_concat]

/-- A line is read as any line with the same words. -/
theorem Reads.of_words_eq {number : Nat} {text other : List Char} {statement : Statement}
    (h : Reads number text statement) (hwords : Text.words text = Text.words other) :
    Reads number other statement := by
  obtain ⟨tokens, htokens, hstatement⟩ := h
  rcases Token.scanFrom_of_words_eq hwords number text.length other.length with
    ⟨fault, _, hfault, _⟩ | ⟨found, others, hfound, hothers, hsame⟩
  · rw [Token.scan, hfault] at htokens
    cases htokens
  · rw [Token.scan, hfound] at htokens
    cases htokens
    exact ⟨others, hothers, ofTokens_eq_ok hstatement (withoutComment_of_sameTokens hsame) _⟩

/-- Lines with the same words are read alike. -/
theorem readAlike_of_words_eq {text other : List Char} (h : Text.words text = Text.words other) :
    ReadAlike text other :=
  fun _ _ => ⟨fun hreads => hreads.of_words_eq h, fun hreads => hreads.of_words_eq h.symm⟩

end Assembly

end EventScript
