/-!
# Blanks and words

Script text is read as a list of characters. `isBlank` is the Unicode property White_Space; `trim`
removes blanks at both ends and `words` gives the pieces between blanks.
-/

namespace EventScript.Text

/-- The character has the Unicode property White_Space. The zero-width space, the byte order mark
and the separators U+001C to U+001F do not have it. -/
def isBlank (c : Char) : Bool :=
  let code := c.toNat
  (9 ≤ code && code ≤ 13) || code == 0x20 || code == 0x85 || code == 0xa0 || code == 0x1680 ||
    (0x2000 ≤ code && code ≤ 0x200a) || code == 0x2028 || code == 0x2029 || code == 0x202f ||
    code == 0x205f || code == 0x3000

/-- The text without its leading blanks. -/
def trimStart (text : List Char) : List Char :=
  text.dropWhile isBlank

/-- The text without its trailing blanks. -/
def trimEnd (text : List Char) : List Char :=
  (text.reverse.dropWhile isBlank).reverse

/-- The text without the blanks at its two ends. -/
def trim (text : List Char) : List Char :=
  trimEnd (trimStart text)

/-- The pieces between single blanks, empty pieces included. A text with `n` blanks has `n + 1`
pieces. -/
def pieces : List Char → List (List Char)
  | [] => [[]]
  | c :: rest =>
      if isBlank c then [] :: pieces rest
      else match pieces rest with
        | [] => [[c]]
        | piece :: more => (c :: piece) :: more

/-- The words of a text: its longest runs of characters that are not blank, in order. -/
def words (text : List Char) : List (List Char) :=
  (pieces text).filter (fun piece => !piece.isEmpty)

end EventScript.Text
