import EventScript.Text.Blank
import EventScript.Text.Lines

/-!
# Source lines and directives

A source is a list of lines. A line whose first character is `#` is a directive, and a `#define`
takes in the lines that follow as long as its value ends with a backslash. `SourceLine.ofText` reads
a whole source this way: what a line asks for depends neither on the lines before it nor on any
definition.
-/

namespace EventScript

open Text

/-- What one line of a source asks for. -/
inductive Directive where
  /-- An ordinary line, with its words. -/
  | text (words : List String)
  /-- The start of a block that is kept if `name` is defined, or if it is not defined when
  `negated`. -/
  | opening (negated : Bool) (name : String)
  /-- The start of the other branch of a block. -/
  | otherwise
  /-- The end of a block. -/
  | closing
  /-- A definition of `name`. -/
  | define (name value : String)
  /-- A directive without the name it needs. -/
  | malformed
  /-- A directive of no known kind. -/
  | unknown (word : String)
deriving DecidableEq, Repr

/-- A line of a source with the continuation lines it takes in. -/
structure SourceLine where
  /-- Number of the line, counted from one. -/
  number : Nat
  /-- The line without the blanks around it, and without its continuation lines. -/
  text : String
  directive : Directive
  /-- How many continuation lines it takes in. -/
  absorbed : Nat
deriving DecidableEq, Repr

namespace SourceLine

/-- The value in a definition line: what follows the name, except for one separating blank. -/
def valueOf (line : List Char) : List Char :=
  let afterDirective := trimStart (line.dropWhile fun c => !isBlank c)
  match afterDirective.dropWhile fun c => !isBlank c with
  | [] => []
  | _ :: value => value

/-- The text in front of a final backslash. -/
def beforeBackslash? (value : List Char) : Option (List Char) :=
  match value.reverse with
  | '\\' :: front => some front.reverse
  | _ => none

/-- A value with the lines that continue it, and how many these are. While the value ends with a
backslash, that backslash is replaced by a line feed and the next line; at the end of the source it
is dropped. -/
def continued : List Char → List (List Char) → List Char × Nat
  | value, [] => ((beforeBackslash? value).getD value, 0)
  | value, next :: rest =>
      match beforeBackslash? value with
      | none => (value, 0)
      | some front =>
          let whole := continued (front ++ '\n' :: trim next) rest
          (whole.1, whole.2 + 1)

/-- What a trimmed line asks for, given the lines that follow it, and how many of these it takes in.
-/
def classify (line : List Char) (following : List (List Char)) : Directive × Nat :=
  let lineWords := (words line).map String.ofList
  if line.head? ≠ some '#' then (.text lineWords, 0)
  else
    match lineWords with
    | [] => (.malformed, 0)
    | word :: arguments =>
        if word = "#ifdef" ∨ word = "#ifndef" then
          match arguments with
          | [] => (.malformed, 0)
          | name :: _ => (.opening (word = "#ifndef") name, 0)
        else if word = "#else" then (.otherwise, 0)
        else if word = "#endif" then (.closing, 0)
        else if word = "#define" then
          match arguments with
          | [] => (.malformed, 0)
          | name :: _ =>
              let value := continued (valueOf line) following
              (.define name (String.ofList value.1), value.2)
        else (.unknown word, 0)

/-- The source lines of a list of lines, the first of which has the given number. -/
def ofLines (number : Nat) : List (List Char) → List SourceLine
  | [] => []
  | line :: following =>
      let read := classify (trim line) following
      { number := number
        text := String.ofList (trim line)
        directive := read.1
        absorbed := read.2 } :: ofLines (number + 1 + read.2) (following.drop read.2)
termination_by lines => lines.length
decreasing_by
  simp only [List.length_drop, List.length_cons]
  omega

/-- The lines of a source. -/
def ofText (source : String) : List SourceLine :=
  ofLines 1 (linesOf source)

end SourceLine

end EventScript
