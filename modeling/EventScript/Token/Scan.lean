import EventScript.Text.Blank
import EventScript.Token

/-!
# Scanning a line into tokens

`Token.scan` splits one line into its tokens. Blanks separate tokens and are dropped; every other
character belongs to exactly one token. `lexeme` reads the one token at the front of a text, and
`lexeme_rest_length` shows that it always moves forward, which is why scanning ends.
-/

namespace EventScript

/-- Why a line has no tokens: the place of the fault and what stands there. -/
inductive LexError where
  /-- A `.` or `%` with no name after it. -/
  | badName (line column : Nat) (sigil : Char)
  /-- A numeral that has no digits, or is too large, or has a hexadecimal mark after a digit other
  than zero. -/
  | badNumber (line column : Nat) (text : String)
deriving DecidableEq, Repr

/-- The text that reports the fault. -/
def LexError.message : LexError → String
  | .badName line column sigil =>
      s!"line {line}, column {column}: `{sigil}` must be followed by a letter"
  | .badNumber line column text =>
      s!"line {line}, column {column}: malformed number `{text}`"

namespace Token

open Text

/-- A character that can start a name or a keyword. -/
def isNameStart (c : Char) : Bool :=
  c.isAlpha

/-- A character that can continue a name or a keyword. -/
def isNameChar (c : Char) : Bool :=
  c.isAlphanum || c == '_'

/-- The name at the front of a text, if a letter stands there, with the text after it. -/
def name? : List Char → Option (String × List Char)
  | [] => none
  | c :: rest =>
      if isNameStart c then
        some (String.ofList (c :: rest.takeWhile isNameChar), rest.dropWhile isNameChar)
      else none

/-- A numeral as it stands in a line: the characters it takes, its radix and its digits, and the
text after it. -/
structure Numeral where
  text : List Char
  radix : Nat
  digits : List Char
  rest : List Char

/-- The numeral that starts with the digit `first`. A hexadecimal mark after the first digit makes
it hexadecimal, whatever that digit is. -/
def numeral (first : Char) (rest : List Char) : Numeral :=
  match rest with
  | mark :: after =>
      if mark = 'x' ∨ mark = 'X' then
        let digits := after.takeWhile (Text.Numeral.isDigit 16)
        { text := first :: mark :: digits
          radix := 16
          digits := digits
          rest := after.dropWhile (Text.Numeral.isDigit 16) }
      else
        let digits := first :: rest.takeWhile (Text.Numeral.isDigit 10)
        { text := digits
          radix := 10
          digits := digits
          rest := rest.dropWhile (Text.Numeral.isDigit 10) }
  | [] => { text := [first], radix := 10, digits := [first], rest := [] }

/-- The 32-bit number a numeral stands for. A hexadecimal numeral has to start with zero. -/
def Numeral.number? (numeral : Numeral) : Option UInt32 :=
  if numeral.radix = 16 ∧ numeral.text.head? ≠ some '0' then none
  else
    (((Text.Numeral.value? numeral.radix numeral.digits).filter
      fun value => value ≤ Text.Numeral.maxWord)).map UInt32.ofNat

/-- The token at the front of the text `c :: rest`, where `c` is not blank, with the text after it.
The text stands at the end of a line of `total` characters, which gives the column of `c`. -/
def lexeme (line total : Nat) (c : Char) (rest : List Char) :
    Except LexError (Token × List Char) :=
  if c = '.' ∨ c = '%' then
    match name? rest with
    | none => .error (.badName line (total - rest.length) c)
    | some (name, after) => .ok (if c = '.' then .label name else .symbol name, after)
  else if c = ':' then .ok (.colon, rest)
  else if c = ';' then .ok (.comment (String.ofList rest), [])
  else if isNameStart c then
    .ok (.keyword (String.ofList (c :: rest.takeWhile isNameChar)), rest.dropWhile isNameChar)
  else if c.isDigit then
    let numeral := numeral c rest
    match numeral.number? with
    | none => .error (.badNumber line (total - rest.length) (String.ofList numeral.text))
    | some value => .ok (.number value, numeral.rest)
  else .ok (.raw c, rest)

/-- What is left after a name is no longer than the text was. -/
theorem name?_rest_length {text after : List Char} {name : String}
    (h : name? text = some (name, after)) : after.length ≤ text.length := by
  cases text with
  | nil => simp [name?] at h
  | cons c rest =>
      simp only [name?] at h
      split at h
      · simp only [Option.some.injEq, Prod.mk.injEq] at h
        rw [← h.2]
        have := (List.dropWhile_sublist isNameChar (l := rest)).length_le
        simp only [List.length_cons]
        omega
      · simp at h

/-- What is left after a numeral is no longer than what followed its first digit. -/
theorem numeral_rest_length (first : Char) (rest : List Char) :
    (numeral first rest).rest.length ≤ rest.length := by
  unfold numeral
  split
  · rename_i mark after
    have hhex := (List.dropWhile_sublist (Text.Numeral.isDigit 16) (l := after)).length_le
    have hdec := (List.dropWhile_sublist (Text.Numeral.isDigit 10) (l := mark :: after)).length_le
    split
    · simp only [List.length_cons]
      omega
    · exact hdec
  · simp

/-- Every token takes at least its first character. -/
theorem lexeme_rest_length {line total : Nat} {c : Char} {rest after : List Char} {token : Token}
    (h : lexeme line total c rest = .ok (token, after)) : after.length ≤ rest.length := by
  have hname := (List.dropWhile_sublist isNameChar (l := rest)).length_le
  have hnumeral := numeral_rest_length c rest
  unfold lexeme at h
  split at h
  · split at h
    · simp at h
    · rename_i heq
      have := name?_rest_length heq
      simp only [Except.ok.injEq, Prod.mk.injEq] at h
      rw [← h.2]
      exact this
  · split at h
    · simp_all
    · split at h
      · simp_all
      · split at h
        · simp_all
        · split at h
          · simp only at h
            split at h
            · simp at h
            · simp_all
          · simp_all

/-- The tokens of a text that stands at the end of a line of `total` characters. -/
def scanFrom (line total : Nat) : List Char → Except LexError (List Token)
  | [] => .ok []
  | c :: rest =>
      if isBlank c then scanFrom line total rest
      else
        match h : lexeme line total c rest with
        | .error fault => .error fault
        | .ok (token, after) =>
            have := lexeme_rest_length h
            match scanFrom line total after with
            | .error fault => .error fault
            | .ok tokens => .ok (token :: tokens)
termination_by text => text.length

/-- The tokens of a line. The line's number is only used to report faults; columns count characters
from one. -/
def scan (line : Nat) (text : List Char) : Except LexError (List Token) :=
  scanFrom line text.length text

example : lexeme 1 4 '1' ['2', 'a', 'b'] = .ok (.number 12, ['a', 'b']) := rfl
example : lexeme 1 4 '%' ['2'] = .error (.badName 1 3 '%') := rfl

end Token

end EventScript
