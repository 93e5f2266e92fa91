/-!
# Reading TOML in steps

A `Reader` takes a value off the front of a text and leaves the rest, or refuses the text. Nothing is said
about why: a document is valid or it is not.
-/

namespace Fluent.Toml

abbrev Reader (α : Type) := List Char → Option (α × List Char)

/-- Spaces and tabs. -/
def isSpace (c : Char) : Bool := c == ' ' || c == '\t'

def skipSpaces (cs : List Char) : List Char := cs.dropWhile isSpace

/-- Characters that text may hold as they are: tabs, and all but the control characters. -/
def isPrintable (c : Char) : Bool := c == '\t' || (0x20 ≤ c.toNat && c.toNat != 0x7F)

/-- What follows a line break, if the text begins with one. -/
def lineBreak? : List Char → Option (List Char)
  | '\n' :: cs => some cs
  | '\r' :: '\n' :: cs => some cs
  | _ => none

/-- What follows a comment, if there is one. -/
def skipComment : List Char → List Char
  | '#' :: cs => cs.dropWhile isPrintable
  | cs => cs

/-- The end of a line: spaces, a comment, and a line break unless the text ends. -/
def lineEnd? (cs : List Char) : Option (List Char) :=
  match skipComment (skipSpaces cs) with
  | [] => some []
  | cs => lineBreak? cs

/-- A reader repeated as often as it takes something off the text. -/
def many {α : Type} (p : Reader α) (cs : List Char) : List α × List Char :=
  match p cs with
  | none => ([], cs)
  | some (a, rest) =>
    if _h : rest.length < cs.length then
      let (as, rest) := many p rest
      (a :: as, rest)
    else ([], cs)
termination_by cs.length
decreasing_by exact _h

/-- What follows spaces, comments and line breaks. A comment ends with its line. -/
def skipLines (cs : List Char) : List Char :=
  (many (fun cs => (lineBreak? (skipComment (skipSpaces cs))).map fun rest => ((), rest)) cs).2
    |> skipSpaces

end Fluent.Toml
