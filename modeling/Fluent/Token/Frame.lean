import Fluent.Source.Cursor
import Fluent.Token.Scan
import Fluent.Token.TextRun

/-!
# Reading an entry

From its equals sign on, an entry is read by a machine whose stack holds the constructs that are
still open: a pattern, a placeable, the arguments of a call, the variants of a select expression.
One `State.step` reads one token, or one run of text, or closes a pattern; the entry goes on until
nothing that follows belongs to it, or until it is cut short inside an expression.

* `State.step`: one step.
* `Frame.nests`: what counts towards the nesting limit.
-/

namespace Fluent

/-- An open construct. -/
inductive Frame where
  /-- A pattern: what was read before it, and the line breaks and indentation in front of its next
  run of text. -/
  | pattern (outer : List PatternItem) (breaks : Nat) (indent : Option Nat)
  | placeable
  /-- The arguments of a call: whether they are still positional, and whether the next token begins
  an argument. -/
  | arguments (positional atStart : Bool)
  /-- The variants of a select expression, which its placeable's brace closes. -/
  | variants
  /-- The inside of a variant's brackets, and whether the key was read. -/
  | key (read : Bool)
  deriving Repr

/-- A construct that counts towards the nesting limit. -/
def Frame.nests : Frame → Bool
  | placeable | arguments .. | variants => true
  | _ => false

/-- How the reading of an entry ended. -/
inductive Ending where
  | complete
  /-- Nothing goes on with an open expression. -/
  | cutShort
  /-- A placeable at this offset is nested too deep. -/
  | tooDeep (offset : Nat)
  deriving DecidableEq, Repr

/-- A state of the machine; the latest item and the innermost frame come first. -/
structure State where
  cursor : Cursor
  items : List PatternItem
  frames : List Frame
  deriving Repr

/-- The outcome of a step. -/
inductive Step where
  | next (s : State)
  | stop (e : Ending) (s : State)

namespace State

/-- Reads a token of `n` characters. -/
def emit (s : State) (t : Token) (n : Nat) : State :=
  let next := s.cursor.skip n
  { s with cursor := next, items := .lexeme ⟨t, ⟨s.cursor.offset, next.offset⟩⟩ :: s.items }

/-- Places a marker. -/
def mark (s : State) (t : Token) : State :=
  { s with items := .lexeme ⟨t, .at s.cursor.offset⟩ :: s.items }

def toLineEnd (s : State) : State := { s with cursor := s.cursor.lineEnd }

/-- The rest of the line belongs nowhere. -/
def emitUnfinished (s : State) : State := s.emit .unfinishedLine (Line.head s.cursor.rest).length

/-- What is left of the line is unfinished unless it is blank. -/
def finishLine (s : State) : State :=
  if Line.isBlank s.cursor.rest then s.toLineEnd else s.emitUnfinished

/-- Reads the name and the equals sign of a header. -/
def emitAssignment (s : State) (a : Line.Assignment) : State :=
  let s := s.emit (.identifier (String.ofList a.name)) a.name.length
  { s with cursor := s.cursor.skip a.spaces }.emit .equals 1

/-- Opens a pattern whose first text run has this indentation. -/
def openPattern (s : State) (indent : Option Nat) : State :=
  let s := s.mark .patternStart
  ⟨s.cursor, [], .pattern s.items 0 indent :: s.frames⟩

/-- After a sign that a value may follow: a pattern on the same line, a pattern that begins on the
next indented line, or none. -/
def beginValue (s : State) : State :=
  let s := { s with cursor := s.cursor.skipWhile (· == ' ') }
  if Line.isBlank s.cursor.rest then
    let lineEnd := s.cursor.lineEnd
    match Line.nextContent? lineEnd.rest with
    | some l =>
      if l.continuesPattern then { s with cursor := lineEnd.toContent l }.openPattern (some l.indent)
      else (s.mark .patternSkip).toLineEnd
    | none => (s.mark .patternSkip).toLineEnd
  else s.openPattern none

/-- Between two attributes, or an attribute and the end of the entry. -/
def betweenAttributes (s : State) : Step :=
  let s := s.finishLine
  match Line.nextContent? s.cursor.rest with
  | some l =>
    if l.opensAttribute then
      let s := { s with cursor := s.cursor.toContent l }
      match Line.attributeHeader? s.cursor.rest with
      | some a => .next ((s.emit .dot 1).emitAssignment a).beginValue
      | none => .next s.emitUnfinished
    else .stop .complete s
  | none => .stop .complete s

/-- The number of open constructs that count towards the nesting limit. -/
def depth (s : State) : Nat := s.frames.countP Frame.nests

/-- Opens a placeable at its brace, unless that nests too deep. -/
def openPlaceable (limit : Nat) (s : State) : Step :=
  if s.depth < limit then .next { s.emit .openBrace 1 with frames := .placeable :: s.frames }
  else .stop (.tooDeep s.cursor.offset) s.emitUnfinished

/-- Opens a list of arguments at its parenthesis, unless that nests too deep. -/
def openArguments (limit : Nat) (s : State) : Step :=
  if s.depth < limit then .next { s.emit .openParen 1 with frames := .arguments true true :: s.frames }
  else .stop .cutShort s.emitUnfinished

/-- Ends a pattern after its last run. -/
def closePattern (s : State) (run : TextRun) (outer : List PatternItem) (frames : List Frame) : State :=
  let inner := dedent (.run run.trimEnd :: s.items)
  { s with items := inner.map PatternItem.lexeme ++ outer, frames := frames }.mark .patternEnd

/-- In a pattern: a run of text, and whatever ends it. -/
def readText (limit : Nat) (s : State) (outer : List PatternItem) (breaks : Nat)
    (indent : Option Nat) (frames : List Frame) : Step :=
  let text := s.cursor.rest.takeWhile fun c => c != '{' && c != '}' && c != '\n'
  let after := s.cursor.skip text.length
  match after.rest with
  | '{' :: _ =>
    openPlaceable limit
      ⟨after, .run ⟨breaks, indent, s.cursor.offset, text⟩ :: s.items, .pattern outer 0 none :: frames⟩
  | '\n' :: _ =>
    let run : TextRun := ⟨breaks, indent, s.cursor.offset, Line.dropReturn text⟩
    match Line.nextContent? after.rest with
    | some l =>
      if l.continuesPattern then
        .next ⟨after.toContent l, .run run :: s.items, .pattern outer l.breaks (some l.indent) :: frames⟩
      else .next ({ s with cursor := after }.closePattern run outer frames)
    | none => .next ({ s with cursor := after }.closePattern run outer frames)
  | _ => .next ({ s with cursor := after }.closePattern ⟨breaks, indent, s.cursor.offset, text⟩ outer frames)

/-- Reads one expression token. -/
def emitScanned (s : State) : Step :=
  match s.cursor.rest with
  | [] => .stop .cutShort s
  | c :: cs =>
    let (t, more) := Token.scan c cs
    .next (s.emit t (more.length + 1))

/-- A name that a colon follows, blanks other than tabs and line breaks allowed in between. -/
def namedArgumentAhead (cs : List Char) : Bool :=
  match (cs.dropWhile isIdentifierChar).dropWhile fun c => c == ' ' || c == '\r' || c == '\n' with
  | ':' :: _ => true
  | _ => false

/-- In a placeable, at the next character that is not blank. -/
def readPlaceable (limit : Nat) (s : State) (frames : List Frame) : Step :=
  match s.cursor.rest with
  | '}' :: _ => .next { s.emit .closeBrace 1 with frames := frames }
  | '{' :: _ => s.openPlaceable limit
  | '(' :: _ => s.openArguments limit
  | '-' :: '>' :: _ => .next { s.emit .arrow 2 with frames := .variants :: frames }
  | _ => s.emitScanned

/-- In the arguments of a call, at the next character that is not blank. The marker between
positional and named arguments stands before the first name that a colon follows, and before the
closing parenthesis if there is none. -/
def readArguments (limit : Nat) (s : State) (positional atStart : Bool) (frames : List Frame) : Step :=
  match s.cursor.rest with
  | [] => .stop .cutShort s
  | ')' :: _ =>
    let s := if positional then s.mark .endPositional else s
    .next { s.emit .closeParen 1 with frames := frames }
  | '{' :: _ => { s with frames := .arguments positional false :: frames }.openPlaceable limit
  | '(' :: _ => { s with frames := .arguments positional false :: frames }.openArguments limit
  | c :: cs =>
    let named := positional && atStart && isIdentifierStart c && namedArgumentAhead (c :: cs)
    let s := if named then s.mark .endPositional else s
    let (t, more) := Token.scan c cs
    .next { s.emit t (more.length + 1) with
      frames := .arguments (positional && !named) (t == .comma) :: frames }

/-- Among variants, at the next character that is not blank. -/
def readVariants (s : State) (frames : List Frame) : Step :=
  match s.cursor.rest with
  | '}' :: _ => .next { s.emit .closeBrace 1 with frames := frames }
  | '[' :: _ => .next { s.emit .openBracket 1 with frames := .key false :: s.frames }
  | _ => s.emitScanned

/-- In a variant's brackets, at the next character that is not blank: one token is the key, and a
value follows the closing bracket. -/
def readKey (s : State) (read : Bool) (frames : List Frame) : Step :=
  match s.cursor.rest with
  | ']' :: _ => .next { s.emit .closeBracket 1 with frames := frames }.beginValue
  | _ => if read then .next { s with frames := frames } else { s with frames := .key true :: frames }.emitScanned

/-- Reads on in an expression, past blanks, if it goes on at all. -/
def onContent (s : State) (read : State → Step) : Step :=
  match s.cursor.skipBlank? with
  | none => .stop .cutShort s
  | some c => read { s with cursor := c }

/-- One step: a token, a run of text, or the end of a construct. -/
def step (limit : Nat) (s : State) : Step :=
  match s.frames with
  | [] => s.betweenAttributes
  | .pattern outer breaks indent :: frames => s.readText limit outer breaks indent frames
  | .placeable :: frames => s.onContent (readPlaceable limit · frames)
  | .arguments positional atStart :: frames =>
    s.onContent (readArguments limit · positional atStart frames)
  | .variants :: frames => s.onContent (readVariants · frames)
  | .key read :: frames => s.onContent (readKey · read frames)

end State

end Fluent
