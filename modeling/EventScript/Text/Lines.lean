/-!
# Lines of a text

`lines` cuts a text at line feeds. A carriage return right before a line feed belongs to the line
ending, and a text that ends with a line feed has no empty last line.
-/

namespace EventScript.Text

/-- The lines of a text, without their endings. -/
def lines : List Char → List (List Char)
  | [] => []
  | '\n' :: rest => [] :: lines rest
  | '\r' :: '\n' :: rest => [] :: lines rest
  | c :: rest =>
      match lines rest with
      | [] => [[c]]
      | line :: more => (c :: line) :: more

/-- The lines of a string. -/
def linesOf (text : String) : List (List Char) :=
  lines text.toList

example : linesOf "a\r\n\nb\r\r\nc\r" = ["a", "", "b\r", "c\r"].map String.toList := by decide

end EventScript.Text
