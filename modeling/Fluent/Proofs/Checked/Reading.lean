import Fluent.Proofs.Checked.Lines
import Fluent.Proofs.Checked.Pieces
import Fluent.Token.Run

/-!
# Reading an entry, with checks

The machine that reads an entry once more, over offsets instead of cursors, and with one list of tokens for everything
instead of the items of each construct. Every slice, every index and every difference is checked.

* `Checked.State`: an offset, the tokens so far, and the open constructs; an open pattern knows the pieces it has to fill
  in.
* `Checked.step?`: one step.
* `Checked.run?`: an entry to its end. Where it is cut short, the patterns that are still open are filled in, the
  innermost first.
-/

namespace Fluent.Checked

/-- An open construct. In place of the items of the patterns around, it has the pieces whose payloads are to be filled
in when the pattern ends. -/
inductive Frame where
  /-- A pattern: its pieces, the latest first, and what stands in front of its next run of text. -/
  | pattern (pieces : List Piece) (breaks : Nat) (indent : Option Nat)
  | placeable
  | arguments (positional atStart : Bool)
  | variants
  | key (read : Bool)

def Frame.nests : Frame → Bool
  | placeable | arguments .. | variants => true
  | _ => false

structure State where
  pos : Nat
  tokens : List Lexeme
  frames : List Frame

/-- The outcome of a step. -/
inductive Step where
  | next (s : State)
  | stop (s : State)

section Reading

variable (source : List Char) (limit : Nat)

/-- Where an expression goes on behind an offset, and whether it does: past blanks, and past a line break if the next
line with content belongs to the expression. -/
def skipBlank? (offset : Nat) : Option (Nat × Bool) :=
  if offset < byteCount source then do
    let x ← char? source offset
    if Line.isBlankChar x then skipBlank? (offset + 1)
    else if x = '\n' then
      match ← nextContent? source offset with
      | some l =>
        if l.continuesExpression then
          let ⟨content, _⟩ ← ahead? offset l.content
          skipBlank? content
        else return (offset, false)
      | none => return (offset, false)
    else return (offset, true)
  else return (offset, false)
termination_by byteCount source - offset

/-- Where the bytes from an offset on stop to satisfy `p`, each of them read only if it exists. -/
def passWhile? (p : Char → Bool) (offset : Nat) : Option Nat :=
  if offset < byteCount source then do
    let x ← char? source offset
    if p x then passWhile? p (offset + 1) else return offset
  else return offset
termination_by byteCount source - offset

/-- A name that a colon follows, blanks other than tabs and line breaks allowed in between. -/
def namedArgumentAhead? (offset : Nat) : Option Bool := do
  let name ← passWhile? source isIdentifierChar offset
  let gap ← passWhile? source (fun c => c == ' ' || c == '\r' || c == '\n') name
  let c ← cursor? source gap
  return c.rest.head? == some ':'

/-- Whether an argument that may have a name has one. -/
def hasName? (mayHave : Bool) (offset : Nat) : Option Bool :=
  if mayHave then namedArgumentAhead? source offset else some false

/-- The token that a text begins with, and its length. What a string literal holds is a slice of it. -/
def scan? : List Char → Option (Token × Nat)
  | [] => none
  | x :: xs => do
    let slice := x :: (Token.scan x xs).2
    match (Token.scan x xs).1 with
    | .string _ =>
      let stop ← minus? (byteCount slice) 1
      let body ← text? slice 1 stop
      return (.string (String.ofList body), byteCount slice)
    | .unterminatedString _ =>
      let body ← text? slice 1 (byteCount slice)
      return (.unterminatedString (String.ofList (trimReturns body)), byteCount slice)
    | t => return (t, byteCount slice)

/-- Where a run of text from `start` to `after` ends: in front of the carriage return of a line end. -/
def textEnd? (start : Nat) (after : Cursor) : Option Nat :=
  if after.rest.head? = some '\n' then textStop? source start after.offset else some after.offset

namespace State

variable (s : State)

def moveTo (pos : Nat) : State := { s with pos }

def reframe (frames : List Frame) : State := { s with frames }

/-- Reads a token of `n` bytes. -/
def emit (t : Token) (n : Nat) : State :=
  { s with pos := s.pos + n, tokens := s.tokens ++ [⟨t, ⟨s.pos, s.pos + n⟩⟩] }

/-- Places a marker. -/
def mark (t : Token) : State := { s with tokens := s.tokens ++ [⟨t, .at s.pos⟩] }

/-- The rest of the line belongs nowhere. -/
def emitUnfinished? : Option State := do
  let stop ← lineEnd? source s.pos
  return { s with pos := stop, tokens := s.tokens ++ [⟨.unfinishedLine, ⟨s.pos, stop⟩⟩] }

/-- What is left of the line is unfinished unless it is blank. -/
def finishLine? : Option State := do
  let stop ← lineEnd? source s.pos
  if ← isBlank? source s.pos stop then return s.moveTo stop else s.emitUnfinished? source

/-- Reads the name and the equals sign of a header. -/
def emitAssignment? (a : Line.Assignment) : Option State := do
  let stop := s.pos + a.width
  let sign ← minus? stop 1
  return { s with
    pos := stop
    tokens := s.tokens ++
      [⟨.identifier (String.ofList a.name), ⟨s.pos, s.pos + a.name.length⟩⟩, ⟨.equals, ⟨sign, stop⟩⟩] }

def openPattern (indent : Option Nat) : State :=
  { s.mark .patternStart with frames := .pattern [] 0 indent :: s.frames }

/-- After a sign that a value may follow. -/
def beginValue? : Option State := do
  let c ← cursor? source s.pos
  let start := (c.skipWhile (· == ' ')).offset
  let stop ← lineEnd? source start
  if ← isBlank? source start stop then
    match ← nextContent? source stop with
    | some l =>
      if l.continuesPattern then return (s.moveTo l.content).openPattern (some l.indent)
      else return ((s.moveTo start).mark .patternSkip).moveTo stop
    | none => return ((s.moveTo start).mark .patternSkip).moveTo stop
  else return (s.moveTo start).openPattern none

/-- Between two attributes, or an attribute and the end of the entry. -/
def betweenAttributes? : Option Step := do
  let s ← s.finishLine? source
  match ← nextContent? source s.pos with
  | some l =>
    if l.opensAttribute then
      let stop ← lineEnd? source l.content
      let line ← text? source l.content stop
      match Line.attributeHeader? line with
      | some a =>
        let s ← ((s.moveTo l.content).emit .dot 1).emitAssignment? a
        (s.beginValue? source).map .next
      | none => ((s.moveTo l.content).emitUnfinished? source).map .next
    else return .stop s
  | none => return .stop s

/-- Opens a placeable at its brace, unless that nests too deep. -/
def openPlaceable? : Option Step :=
  if s.frames.countP Frame.nests < limit then
    return .next ((s.emit .openBrace 1).reframe (.placeable :: s.frames))
  else (s.emitUnfinished? source).map .stop

/-- Opens a list of arguments at its parenthesis, unless that nests too deep. -/
def openArguments? : Option Step :=
  if s.frames.countP Frame.nests < limit then
    return .next ((s.emit .openParen 1).reframe (.arguments true true :: s.frames))
  else (s.emitUnfinished? source).map .stop

/-- Gives a run of text its place, unless it is void, and says whether it has one. -/
def place? (stop : Nat) (pieces : List Piece) (breaks : Nat) (indent : Option Nat) :
    Option (List Lexeme × List Piece × Bool) :=
  if s.pos < stop ∨ 0 < breaks ∨ indent.isSome then do
    let tokens := s.tokens ++ [⟨.pureText "", ⟨s.pos, stop⟩⟩]
    let token ← minus? tokens.length 1
    return (tokens, ⟨token, breaks, indent, s.pos, stop⟩ :: pieces, true)
  else return (s.tokens, pieces, false)

/-- Ends a pattern. -/
def closePattern? (pieces : List Piece) (trims : Bool) (frames : List Frame) : Option Step := do
  let tokens ← finish? source pieces trims s.tokens
  return .next (State.mark { s with tokens, frames } .patternEnd)

/-- In a pattern: a run of text, and whatever ends it. -/
def readText? (pieces : List Piece) (breaks : Nat) (indent : Option Nat) (frames : List Frame) : Option Step := do
  let c ← cursor? source s.pos
  let after := c.skipWhile fun c => c != '{' && c != '}' && c != '\n'
  let stop ← textEnd? source s.pos after
  let (tokens, pieces, trims) ← s.place? stop pieces breaks indent
  let s : State := { s with pos := after.offset, tokens }
  match after.rest with
  | '{' :: _ => (s.reframe (.pattern pieces 0 none :: frames)).openPlaceable? source limit
  | '\n' :: _ =>
    match ← nextContent? source after.offset with
    | some l =>
      if l.continuesPattern then
        return .next ((s.moveTo l.content).reframe (.pattern pieces l.breaks (some l.indent) :: frames))
      else s.closePattern? source pieces trims frames
    | none => s.closePattern? source pieces trims frames
  | _ => s.closePattern? source pieces trims frames

/-- Reads one expression token. -/
def emitScanned? : Option State := do
  let c ← cursor? source s.pos
  let (t, n) ← scan? c.rest
  return s.emit t n

/-- In a placeable, at the next character that is not blank. -/
def readPlaceable? (frames : List Frame) : Option Step := do
  let c ← cursor? source s.pos
  match c.rest with
  | '}' :: _ => return .next ((s.emit .closeBrace 1).reframe frames)
  | '{' :: _ => s.openPlaceable? source limit
  | '(' :: _ => s.openArguments? source limit
  | '-' :: '>' :: _ => return .next ((s.emit .arrow 2).reframe (.variants :: frames))
  | _ => (s.emitScanned? source).map .next

/-- In the arguments of a call, at the next character that is not blank. -/
def readArguments? (positional atStart : Bool) (frames : List Frame) : Option Step := do
  let c ← cursor? source s.pos
  match c.rest with
  | ')' :: _ =>
    let s := if positional then s.mark .endPositional else s
    return .next ((s.emit .closeParen 1).reframe frames)
  | '{' :: _ => (s.reframe (.arguments positional false :: frames)).openPlaceable? source limit
  | '(' :: _ => (s.reframe (.arguments positional false :: frames)).openArguments? source limit
  | [] => return .stop s
  | x :: _ =>
    let named ← hasName? source (positional && atStart && isIdentifierStart x) s.pos
    let s ← (if named then s.mark .endPositional else s).emitScanned? source
    let comma := s.tokens.getLast?.map (·.token) == some .comma
    return .next (s.reframe (.arguments (positional && !named) comma :: frames))

/-- Among variants, at the next character that is not blank. -/
def readVariants? (frames : List Frame) : Option Step := do
  let c ← cursor? source s.pos
  match c.rest with
  | '}' :: _ => return .next ((s.emit .closeBrace 1).reframe frames)
  | '[' :: _ => return .next ((s.emit .openBracket 1).reframe (.key false :: s.frames))
  | _ => (s.emitScanned? source).map .next

/-- In a variant's brackets, at the next character that is not blank. -/
def readKey? (read : Bool) (frames : List Frame) : Option Step := do
  let c ← cursor? source s.pos
  match c.rest with
  | ']' :: _ => (((s.emit .closeBracket 1).reframe frames).beginValue? source).map .next
  | _ =>
    if read then return .next (s.reframe frames)
    else ((s.reframe (.key true :: frames)).emitScanned? source).map .next

/-- Reads on in an expression, past blanks, if it goes on at all. -/
def onContent? (read : State → Option Step) : Option Step := do
  let (pos, goesOn) ← skipBlank? source s.pos
  if goesOn then read (s.moveTo pos) else return .stop (s.moveTo pos)

/-- One step. -/
def step? : Option Step :=
  match s.frames with
  | [] => s.betweenAttributes? source
  | .pattern pieces breaks indent :: frames => s.readText? source limit pieces breaks indent frames
  | .placeable :: frames => s.onContent? source fun s => s.readPlaceable? source limit frames
  | .arguments positional atStart :: frames =>
    s.onContent? source fun s => s.readArguments? source limit positional atStart frames
  | .variants :: frames => s.onContent? source fun s => s.readVariants? source frames
  | .key read :: frames => s.onContent? source fun s => s.readKey? source read frames

end State

/-- Fills in the patterns that are still open. -/
def unwind? : List Frame → List Lexeme → Option (List Lexeme)
  | [], tokens => some tokens
  | .pattern pieces _ _ :: frames, tokens => do
    let tokens ← finish? source pieces false tokens
    unwind? frames tokens
  | _ :: frames, tokens => unwind? frames tokens

/-- What is left to read and to close; a character counts twice, since reading one opens at most one construct. -/
def State.measure (s : State) : Nat := 2 * ((fromOffset? s.pos source).getD []).length + s.frames.length

/-- Reads an entry to its end: the offset there, and the tokens. A step has to get on. -/
def run? (s : State) : Option (Nat × List Lexeme) := do
  match ← s.step? source limit with
  | .next t => if t.measure source < s.measure source then run? t else none
  | .stop t =>
    let tokens ← unwind? source t.frames t.tokens
    return (t.pos, tokens)
termination_by s.measure source

end Reading

end Fluent.Checked
