import EventScript.Dictionary
import EventScript.Source.Directive

/-!
# Expansion of a source

`expand` carries out the directives of a source: it replaces defined words and keeps or blanks the
branches of conditional blocks. A directive, a continuation line and a line in a branch that is not
kept come out as empty lines, so lines keep their numbers. The definitions made before a fault stay
made, so `expand` returns the table of definitions beside its result.
-/

namespace EventScript

/-- Replacement texts by name. -/
abbrev Defines := Dictionary String String

/-- Why a source cannot be expanded. -/
inductive ExpansionError where
  /-- The directive needs an open block. -/
  | unbalanced (directive : String) (line : Nat)
  /-- The block opened on line `opened` has its second `#else`. -/
  | duplicateElse (line opened : Nat)
  /-- The source ends inside the block that `text` opened. -/
  | unterminated (opened : Nat) (text : String)
  /-- A directive without its name. -/
  | malformed (line : Nat) (text : String)
  /-- A directive of no known kind. -/
  | unknownDirective (line : Nat) (directive : String)
deriving DecidableEq, Repr

/-- The text that reports the fault. -/
def ExpansionError.message : ExpansionError → String
  | .unbalanced directive line => s!"line {line}: `{directive}` without an open #ifdef/#ifndef"
  | .duplicateElse line opened =>
      s!"line {line}: second #else in the block opened on line {opened}"
  | .unterminated opened text =>
      s!"end of input inside the block opened on line {opened}: {text}"
  | .malformed line text => s!"line {line}: malformed directive: {text}"
  | .unknownDirective line directive => s!"line {line}: unknown directive `{directive}`"

namespace Source

/-- A conditional block that is still open. -/
structure Block where
  /-- Number of the line that opened the block. -/
  opened : Nat
  /-- Text of the line that opened the block. -/
  text : String
  /-- The block stands where lines are kept. -/
  outer : Bool
  /-- The condition held at the opening line. -/
  holds : Bool
  /-- The `#else` of the block has been passed. -/
  inElse : Bool
deriving DecidableEq, Repr

/-- Lines are kept in the current branch of the block. -/
def Block.kept (block : Block) : Bool :=
  block.outer && (block.holds != block.inElse)

/-- Lines are kept inside these open blocks, of which the innermost comes first. -/
def kept : List Block → Bool
  | [] => true
  | block :: _ => block.kept

/-- Replace each defined word once, and join the words by single spaces. -/
def substitute (defines : Defines) (words : List String) : String :=
  " ".intercalate (words.map fun word => (defines.get? word).getD word)

/-- What one line does: the definitions and open blocks after it, and the line it becomes. -/
def step (defines : Defines) (blocks : List Block) (line : SourceLine) :
    Except ExpansionError (Defines × List Block × String) :=
  match line.directive with
  | .text words => .ok (defines, blocks, if kept blocks then substitute defines words else "")
  | .opening negated name =>
      let block : Block :=
        { opened := line.number
          text := line.text
          outer := kept blocks
          holds := defines.contains name != negated
          inElse := false }
      .ok (defines, block :: blocks, "")
  | .otherwise =>
      match blocks with
      | [] => .error (.unbalanced "#else" line.number)
      | block :: outer =>
          if block.inElse then .error (.duplicateElse line.number block.opened)
          else .ok (defines, { block with inElse := true } :: outer, "")
  | .closing =>
      match blocks with
      | [] => .error (.unbalanced "#endif" line.number)
      | _ :: outer => .ok (defines, outer, "")
  | .define name value =>
      .ok (if kept blocks then defines.insert name value else defines, blocks, "")
  | .malformed => .error (.malformed line.number line.text)
  | .unknown word => .error (.unknownDirective line.number word)

/-- Expand the remaining lines of a source inside the given open blocks. -/
def expandLines (defines : Defines) (blocks : List Block) :
    List SourceLine → Defines × Except ExpansionError (List String)
  | [] =>
      match blocks with
      | [] => (defines, .ok [])
      | block :: _ => (defines, .error (.unterminated block.opened block.text))
  | line :: rest =>
      match step defines blocks line with
      | .error fault => (defines, .error fault)
      | .ok (after, inside, output) =>
          match expandLines after inside rest with
          | (final, .error fault) => (final, .error fault)
          | (final, .ok outputs) =>
              (final, .ok (output :: (List.replicate line.absorbed "" ++ outputs)))

/-- Expand a source, starting from a table of definitions. The result comes with the table after
it. -/
def expand (defines : Defines) (source : String) : Defines × Except ExpansionError String :=
  match expandLines defines [] (SourceLine.ofText source) with
  | (final, .error fault) => (final, .error fault)
  | (final, .ok outputs) => (final, .ok ("\n".intercalate outputs))

end Source

end EventScript
