/-!
# Lines

What a line of a source looks like from its first character on: blank or not, how far indented,
a comment, the header of an entry or of an attribute. Every character that matters for layout
takes one byte.

* `nextContent?`: the first line after a line feed that is not blank.
* `commentLevel?`, `entryHeader?`, `attributeHeader?`: how a line opens.
-/

namespace Fluent

/-- How far a comment reaches: the next entry, a group of entries or the whole resource. -/
inductive CommentLevel where
  | comment
  | group
  | resource
  deriving DecidableEq, Repr, Inhabited

namespace CommentLevel

def hashes : CommentLevel → Nat
  | .comment => 1
  | .group => 2
  | .resource => 3

def ofHashes? : Nat → Option CommentLevel
  | 1 => some .comment
  | 2 => some .group
  | 3 => some .resource
  | _ => none

/-- The hashes that open a comment of this level. -/
def sigil (l : CommentLevel) : String := String.ofList (List.replicate l.hashes '#')

end CommentLevel

/-- A letter of the ASCII alphabet. -/
def isIdentifierStart (c : Char) : Bool := c.isAlpha

/-- A character that may follow the first one of an identifier. -/
def isIdentifierChar (c : Char) : Bool := c.isAlphanum || c == '_' || c == '-'

/-- The identifier that a text begins with, and the text after it. -/
def identifier? : List Char → Option (List Char × List Char)
  | [] => none
  | c :: cs =>
    if isIdentifierStart c then
      some (c :: cs.takeWhile isIdentifierChar, cs.dropWhile isIdentifierChar)
    else none

namespace Line

/-- White space within a line. -/
def isBlankChar (c : Char) : Bool := c == ' ' || c == '\t' || c == '\r'

/-- The text up to the next line feed. -/
def head (cs : List Char) : List Char := cs.takeWhile (· != '\n')

/-- The text from the next line feed on. -/
def tail (cs : List Char) : List Char := cs.dropWhile (· != '\n')

/-- Nothing but white space up to the next line feed. -/
def isBlank (cs : List Char) : Bool := (head cs).all isBlankChar

/-- A text without a carriage return at its end. -/
def dropReturn (cs : List Char) : List Char :=
  if cs.getLast? = some '\r' then cs.dropLast else cs

/-- The lines of a text without what ends them. A line feed at the very end begins no line. -/
def all : List Char → List (List Char)
  | [] => []
  | c :: cs =>
    match _h : tail (c :: cs) with
    | [] => [c :: cs]
    | _ :: rest => dropReturn (head (c :: cs)) :: all rest
termination_by cs => cs.length
decreasing_by
  have := (List.dropWhile_suffix (fun c : Char => c != '\n') (l := c :: cs)).length_le
  rw [tail] at _h
  rw [_h, List.length_cons] at this
  exact this

/-- The number of spaces that a text begins with. -/
def indent (cs : List Char) : Nat := (cs.takeWhile (· == ' ')).length

/-- Characters that cannot start a further line of a pattern. -/
def isSpecialStart (c : Char) : Bool := c == '.' || c == '[' || c == '*' || c == '}'

/-- Characters that go on with an expression even without indentation. -/
def continuesExpression (c : Char) : Bool := c == '}' || c == '[' || c == '*' || c == ')'

/-- The first line with content after a line feed. -/
structure Next where
  /-- Line feeds crossed on the way, those of blank lines included. -/
  breaks : Nat
  /-- Bytes from the first line feed to the start of the line. -/
  skipped : Nat
  /-- Spaces that the line begins with. -/
  indent : Nat
  /-- The first character after the indentation. -/
  first : Char
  /-- What follows that character. -/
  after : List Char
  deriving Repr

namespace Next

/-- Everything after the indentation. -/
def content (l : Next) : List Char := l.first :: l.after

/-- Bytes from the first line feed to the end of the indentation. -/
def distance (l : Next) : Nat := l.skipped + l.indent

/-- An indented line that goes on with a pattern. -/
def continuesPattern (l : Next) : Bool := decide (0 < l.indent) && !isSpecialStart l.first

/-- A line that goes on with an expression: indented, or starting with a closing or variant mark. -/
def continuesExpression (l : Next) : Bool :=
  decide (0 < l.indent) || Line.continuesExpression l.first

/-- An indented line that may hold an attribute. -/
def opensAttribute (l : Next) : Bool := decide (0 < l.indent) && l.first == '.'

end Next

/-- The next line with content, seen from a line feed; `none` elsewhere, and when only blank lines
remain. -/
def nextContent? (cs : List Char) : Option Next :=
  match cs with
  | '\n' :: line =>
    if isBlank line then
      (nextContent? (tail line)).map fun l =>
        { l with breaks := l.breaks + 1, skipped := l.skipped + 1 + (head line).length }
    else
      match line.dropWhile (· == ' ') with
      | [] => none
      | c :: after => some ⟨1, 1, indent line, c, after⟩
  | _ => none
termination_by cs.length
decreasing_by
  have := (List.dropWhile_suffix (fun c : Char => c != '\n') (l := line)).length_le
  simp only [tail, List.length_cons]
  omega

/-- The content lies beyond the line feed. -/
theorem length_content_lt {cs : List Char} {l : Next} (h : nextContent? cs = some l) :
    l.content.length < cs.length := by
  fun_induction nextContent? cs generalizing l with
  | case1 line _ ih =>
    obtain ⟨m, hm, rfl⟩ := Option.map_eq_some_iff.1 h
    have := ih hm
    have := (List.dropWhile_suffix (fun c : Char => c != '\n') (l := line)).length_le
    simp only [tail, Next.content, List.length_cons] at *
    omega
  | case2 => simp at h
  | case3 line _ c after hc =>
    have := (List.dropWhile_suffix (fun c : Char => c == ' ') (l := line)).length_le
    simp only [Option.some.injEq] at h
    subst h
    simp only [hc, Next.content, List.length_cons] at *
    omega
  | case4 => simp at h

/-- The level of a comment line: one to three hashes before a space or the end of the line. -/
def commentLevel? (cs : List Char) : Option CommentLevel :=
  match CommentLevel.ofHashes? (cs.takeWhile (· == '#')).length, cs.dropWhile (· == '#') with
  | some l, [] => some l
  | some l, ' ' :: _ => some l
  | some l, '\n' :: _ => some l
  | some l, '\r' :: '\n' :: _ => some l
  | _, _ => none

/-- A name, the spaces after it, and what follows the equals sign after those. -/
structure Assignment where
  name : List Char
  spaces : Nat
  rest : List Char
  deriving Repr

/-- The bytes from the name to the equals sign, both included. -/
def Assignment.width (a : Assignment) : Nat := a.name.length + a.spaces + 1

/-- `name =`, with spaces allowed before the sign. -/
def assignment? (cs : List Char) : Option Assignment := do
  let (name, after) ← identifier? cs
  match after.dropWhile (· == ' ') with
  | '=' :: rest => some ⟨name, indent after, rest⟩
  | _ => none

/-- The header of an entry: whether it is a term, and the name it defines. -/
def entryHeader? : List Char → Option (Bool × Assignment)
  | '-' :: cs => (assignment? cs).map (true, ·)
  | cs => (assignment? cs).map (false, ·)

/-- The header of an attribute, from its dot on. -/
def attributeHeader? : List Char → Option Assignment
  | '.' :: cs => assignment? cs
  | _ => none

end Line

end Fluent
