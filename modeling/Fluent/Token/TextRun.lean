import Fluent.Token

/-!
# Text runs and dedenting

A pattern is read as *runs*: the text between two line breaks or placeables, with the breaks and
the indentation in front of it kept apart. How much of an indentation is content is known only
when the pattern ends: what all its continuation lines have in common is not. `dedent` then writes
each run out and drops those that hold nothing.
-/

namespace Fluent

/-- A run of pattern text. -/
structure TextRun where
  /-- Line feeds in front of the run. -/
  breaks : Nat
  /-- Spaces in front of the run, where it begins a line. -/
  indent : Option Nat
  /-- The offset of the text. -/
  start : Nat
  text : List Char
  deriving Repr

namespace TextRun

/-- The run that ends a pattern loses its trailing white space. -/
def trimEnd (r : TextRun) : TextRun :=
  { r with text := (r.text.reverse.dropWhile Line.isBlankChar).reverse }

/-- The text of a run in a pattern whose lines share an indentation of `common`. -/
def value (common : Nat) (r : TextRun) : List Char :=
  List.replicate r.breaks '\n' ++ List.replicate (r.indent.getD common - common) ' ' ++ r.text

end TextRun

/-- A part of a pattern that is still being read. -/
inductive PatternItem where
  | run (r : TextRun)
  | lexeme (l : Lexeme)
  deriving Repr

namespace PatternItem

def indent? : PatternItem → Option Nat
  | run r => r.indent
  | lexeme _ => none

/-- The part as a token; a run without text is none. -/
def settle? (common : Nat) : PatternItem → Option Lexeme
  | lexeme l => some l
  | run r =>
    match r.value common with
    | [] => none
    | value => some ⟨.pureText (String.ofList value), ⟨r.start, r.start + byteCount r.text⟩⟩

end PatternItem

/-- The least of a list of indentations, and zero for none. -/
def commonIndent : List Nat → Nat
  | [] => 0
  | n :: ns => ns.foldl min n

/-- The tokens of a pattern, in the order of its parts. -/
def dedent (items : List PatternItem) : List Lexeme :=
  items.filterMap (PatternItem.settle? (commonIndent (items.filterMap PatternItem.indent?)))

end Fluent
