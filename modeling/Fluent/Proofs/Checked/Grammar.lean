import Fluent.Grammar.Entry
import Fluent.Proofs.Checked.Access

/-!
# The grammar, with checks

The grammar once more, over indices into the tokens of a whole source. Tokens at or behind a limit are not seen, but an
index may stand in front of one of them. Slices of the tokens, slices of a string literal and the search for lines and
columns are checked, and so is how deep calls nest.

* `Checked.Reader`: reading from an index on; `none` is a failed check.
* `Checked.Parser`: the tokens that are read, and the functions of the grammar.
* `Checked.unescape?`: the escapes of a string literal.
-/

namespace Fluent.Checked

/-! ## Escapes -/

/-- A unit at the beginning of a text: its meaning and its length, or the slice at fault. -/
def escapeUnit? (raw : List Char) : Option (Except (List Char) (Char × Nat)) :=
  match raw with
  | [] => none
  | '\\' :: [] => return .error ['\\']
  | '\\' :: '\\' :: _ => return .ok ('\\', 2)
  | '\\' :: '"' :: _ => return .ok ('"', 2)
  | '\\' :: 'u' :: rest => return codePoint raw 4 rest
  | '\\' :: 'U' :: rest => return codePoint raw 6 rest
  | '\\' :: other :: _ => (text? raw 0 (1 + other.utf8Size)).map .error
  | c :: _ => return .ok (c, c.utf8Size)
where
  /-- A code point of exactly `n` digits. -/
  codePoint (raw : List Char) (n : Nat) (rest : List Char) : Except (List Char) (Char × Nat) :=
    let digits := rest.take n
    if digits.length = n ∧ digits.all Text.isHexDigit then
      .ok (Text.charOfCodePoint (Text.hexValue digits), n + 2)
    else .error (raw.take (n + 2))

/-- The meaning of the text of a string literal that stands at `offset`, from an offset in it on. -/
def unescape? (offset : Nat) (raw : List Char) (start : Nat) : Option (Except Text.BadEscape (List Char)) :=
  if start < byteCount raw then do
    let c ← cursor? raw start
    match ← escapeUnit? c.rest with
    | .error bad => return .error ⟨⟨offset + start, offset + start + byteCount bad⟩, bad⟩
    | .ok (value, n) =>
      let ⟨next, _⟩ ← ahead? start (start + n)
      let more ← unescape? offset raw next
      return more.map (value :: ·)
  else return .ok []
termination_by byteCount raw - start

/-! ## Tokens -/

/-- Reading from an index on: what is read or the fault that is found, and the index behind it. -/
abbrev Reader := ExceptT Fault (StateT Nat Option)

/-- A check. -/
def checked {α : Type} (x : Option α) : Reader α := ExceptT.lift (StateT.lift x)

/-- Something that the grammar asks for. -/
def required {α : Type} (x : Except Fault α) : Reader α := ExceptT.mk (pure x)

/-- The first elements of a list. -/
def firsts? {α : Type} (n : Nat) (xs : List α) : Option (List α) := if n ≤ xs.length then some (xs.take n) else none

/-- Where the last of some tokens ends that stands for source text. -/
def lastEnd (ls : List Lexeme) : Nat := ((ls.reverse.find? (!·.token.isMarker)).map (·.span.stop)).getD 0

/-- The tokens of a source, of which those at or behind the limit are not seen. -/
structure Parser where
  source : List Char
  tokens : List Lexeme
  limit : Nat

namespace Parser

variable (p : Parser)

/-- The token at an index, if it is seen. -/
def tokenAt? (n : Nat) : Option Token := if n < p.limit then p.tokens[n]?.map (·.token) else none

/-- Where the token at an index stands, seen or not. -/
def spanAt (n : Nat) : Span := (p.tokens[n]?.map (·.span)).getD (.at (byteCount p.source))

/-- What is found at an index, seen or not. -/
def foundAt (n : Nat) : Found := (p.tokens[n]?.map fun l => Found.token l.token).getD .endOfInput

def peek : Reader (Option Token) := return p.tokenAt? (← get)

def peekSecond : Reader (Option Token) := return p.tokenAt? ((← get) + 1)

def span : Reader Span := return p.spanAt (← get)

/-- Reads a token if one is seen. -/
def advance : Reader Span := do
  let n ← get
  set (if n < p.limit then n + 1 else n)
  return p.spanAt n

/-- The fault of not finding what is expected. -/
def fault {α : Type} (e : Expected) : Reader α := do
  let n ← get
  throw (.unexpected (p.spanAt n).start e (p.foundAt n))

/-- Reads a token if it is the one that is asked for. -/
def eat (t : Token) : Reader Bool := do
  if (← p.peek) = some t then
    let _ ← p.advance
    return true
  else return false

def expect (t : Token) (e : Expected) : Reader Span := do
  if (← p.peek) = some t then p.advance else p.fault e

/-- Where the last token that was read ends, markers apart. -/
def previousEnd : Reader Nat := do
  let n ← get
  let read ← checked (firsts? n p.tokens)
  return lastEnd read

def locate (start stop : Nat) : Reader Location := checked (locate? (.ofChars p.source) ⟨start, stop⟩)

def identifier (e : Expected) : Reader Identifier := do
  match ← p.peek with
  | some (.identifier name) =>
    let span ← p.advance
    let location ← p.locate span.start span.stop
    return ⟨name, location⟩
  | _ => p.fault e

/-- An identifier that starts at an offset. -/
def identifierAt (offset : Nat) (e : Expected) : Reader Identifier := do
  let next ← p.peek
  let span ← p.span
  if next.isSome ∧ span.start ≠ offset then p.fault e else p.identifier e

def number (e : Expected) : Reader NumberLiteral := do
  let position ← p.span
  match ← p.peek with
  | some (.number raw) =>
    match Binary64.read? raw.toList with
    | some value =>
      let span ← p.advance
      let location ← p.locate span.start span.stop
      return ⟨raw, value, location⟩
    | none => throw (.unexpected position.start .number (.raw raw))
  | _ => p.fault e

/-- A dot and the identifier behind it, both without white space, after something that ends at an offset. -/
def accessor (offset : Nat) : Reader (Option Identifier) := do
  let next ← p.peek
  let span ← p.span
  if next = some .dot ∧ span.start = offset then
    let dot ← p.advance
    let id ← p.identifierAt dot.stop .accessorName
    return some id
  else return none

/-! ## Values -/

def checkVariants (variants : List Variant) : Reader Unit := do
  if variants.isEmpty then p.fault .variants
  else
    match variants.filter (·.isDefault) with
    | [] =>
      let span ← p.span
      throw (.unexpected span.start .defaultVariant .noDefault)
    | [_] => return
    | _ :: second :: _ => throw (.unexpected second.location.span.start .oneDefaultVariant .secondDefault)

def variantKey : Reader VariantKey := do
  match ← p.peek with
  | some (.identifier _) =>
    let id ← p.identifier .variantKey
    return .identifier id
  | some (.number _) =>
    let n ← p.number .variantKey
    return .number n
  | _ => p.fault .variantKey

/-- Reads the quotes of a string literal off. -/
def string (raw : String) : Reader Expression := do
  let span ← p.advance
  let value ← checked (unescape? (span.start + 1) raw.toList 0)
  let value ← required (value.mapError Fault.ofBadEscape)
  let location ← p.locate span.start span.stop
  return .string (String.ofList value) raw location

/-- The brace that closes a placeable. -/
def closed (start : Nat) (e : Expression) : Reader Placeable := do
  let closing ← p.expect .closeBrace .closeBrace
  let location ← p.locate start closing.stop
  return ⟨e, location⟩

/-! Calls do not nest deeper than they are allowed to: at depth zero a check fails. -/

mutual

def placeable : Nat → Reader Placeable
  | 0 => checked none
  | depth + 1 => do
    let opening ← p.expect .openBrace .openBrace
    let e ← inline depth
    if ← p.eat .arrow then
      required (checkSelector e)
      let variants ← variants depth
      p.checkVariants variants
      let stop ← p.previousEnd
      let location ← p.locate e.location.span.start stop
      p.closed opening.start (.select e variants location)
    else
      required (checkPlaced e)
      p.closed opening.start e

def inline : Nat → Reader Expression
  | 0 => checked none
  | depth + 1 => do
    match ← p.peek with
    | some .openBrace =>
      let inner ← placeable depth
      return .placeable inner
    | some (.string raw) => p.string raw
    | some (.unterminatedString _) =>
      let span ← p.span
      throw (.unterminatedString span)
    | some (.number _) =>
      let literal ← p.number .number
      return .number literal
    | some .dollar =>
      let sign ← p.advance
      let id ← p.identifierAt (sign.start + 1) .variableName
      let location ← p.locate sign.start id.location.span.stop
      return .variableRef id location
    | some .minus => termReference depth
    | some (.identifier _) =>
      if (← p.peekSecond) = some .openParen then functionReference depth
      else
        let id ← p.identifier .expression
        let accessor ← p.accessor id.location.span.stop
        let stop ← p.previousEnd
        let location ← p.locate id.location.span.start stop
        return .messageRef id accessor location
    | _ => p.fault .expression

def termReference : Nat → Reader Expression
  | 0 => checked none
  | depth + 1 => do
    let sign ← p.expect .minus .expression
    let id ← p.identifierAt (sign.start + 1) .termName
    let accessor ← p.accessor id.location.span.stop
    if (← p.peek) = some .openParen then
      let arguments ← callArguments depth
      let stop ← p.previousEnd
      let location ← p.locate sign.start stop
      return .termRef id accessor (some arguments) location
    else
      let stop ← p.previousEnd
      let location ← p.locate sign.start stop
      return .termRef id accessor none location

def functionReference : Nat → Reader Expression
  | 0 => checked none
  | depth + 1 => do
    let id ← p.identifier .expression
    if isFunctionName id.name then
      let arguments ← callArguments depth
      let location ← p.locate id.location.span.start arguments.location.span.stop
      return .functionRef id arguments location
    else throw (.unexpected id.location.span.start .functionName (.raw id.name))

def callArguments : Nat → Reader CallArguments
  | 0 => checked none
  | depth + 1 => do
    let opening ← p.expect .openParen .openParen
    let positional ← positionalArguments depth
    let (named, closing) ← namedArguments depth []
    let location ← p.locate opening.start closing.stop
    return ⟨positional, named, location⟩

/-- Positional arguments, and the marker that ends them. -/
def positionalArguments : Nat → Reader (List Expression)
  | 0 => checked none
  | depth + 1 => do
    if ← p.eat .endPositional then return []
    else
      let e ← inline depth
      match ← p.peek with
      | some .comma =>
        let _ ← p.advance
        let es ← positionalArguments depth
        return e :: es
      | some .endPositional =>
        let _ ← p.advance
        return [e]
      | _ => p.fault .argumentEnd

/-- Named arguments after those in `seen`, and the parenthesis that ends them. -/
def namedArguments : Nat → List String → Reader (List NamedArgument × Span)
  | 0, _ => checked none
  | depth + 1, seen => do
    match ← p.peek with
    | some .closeParen =>
      let closing ← p.advance
      return ([], closing)
    | some (.identifier _) =>
      if (← p.peekSecond) = some .colon then
        let name ← p.identifier .namedArgument
        let _ ← p.advance
        let value ← inline depth
        if seen.contains name.name then
          throw (.unexpected name.location.span.start .uniqueArgument (.repeatedArgument name.name))
        else
          let location ← p.locate name.location.span.start value.location.span.stop
          match ← p.peek with
          | some .comma =>
            let _ ← p.advance
            let (arguments, closing) ← namedArguments depth (name.name :: seen)
            return (⟨name, value, location⟩ :: arguments, closing)
          | some .closeParen =>
            let closing ← p.advance
            return ([⟨name, value, location⟩], closing)
          | _ => p.fault .argumentEnd
      else p.fault .namedArgument
    | some _ => p.fault .namedArgument
    | none => p.fault .closeParen

def variants : Nat → Reader (List Variant)
  | 0 => checked none
  | depth + 1 => do
    let next ← p.peek
    if next = some .star ∨ next = some .openBracket then
      let v ← variant depth
      let vs ← variants depth
      return v :: vs
    else return []

def variant : Nat → Reader Variant
  | 0 => checked none
  | depth + 1 => do
    let first ← p.span
    let isDefault ← p.eat .star
    let _ ← p.expect .openBracket .openBracket
    let key ← p.variantKey
    let _ ← p.expect .closeBracket .closeBracket
    let next ← p.span
    match ← pattern? depth with
    | none => throw (.unexpected next.start .variantValue .nothing)
    | some value =>
      let stop ← p.previousEnd
      let location ← p.locate first.start stop
      return ⟨key, value, isDefault, location⟩

/-- A pattern, or the mark of a missing one. -/
def pattern? : Nat → Reader (Option Pattern)
  | 0 => checked none
  | depth + 1 => do
    match ← p.peek with
    | some .patternSkip =>
      let _ ← p.advance
      return none
    | some .patternStart =>
      let opening ← p.advance
      let elements ← patternElements depth
      match Location.boundingBox? (elements.map (·.location)) with
      | none => throw (.unexpected opening.start .value .nothing)
      | some location => return some ⟨elements, location⟩
    | _ => p.fault .value

def patternElements : Nat → Reader (List PatternElement)
  | 0 => checked none
  | depth + 1 => do
    match ← p.peek with
    | some (.pureText text) =>
      let span ← p.advance
      let location ← p.locate span.start span.stop
      let es ← patternElements depth
      return .text ⟨text, location⟩ :: es
    | some .openBrace =>
      let inner ← placeable depth
      let es ← patternElements depth
      return .placeable inner :: es
    | some .patternEnd =>
      let _ ← p.advance
      return []
    | _ => p.fault .patternPart

end

/-! ## Entries -/

/-- In front of the offset a line ends, or nothing stands. -/
def isLineStart? (offset : Nat) : Option Bool :=
  if offset = 0 then some true
  else do
    let last ← minus? offset 1
    return (utf8 p.source)[last]? == some (UInt8.ofNat '\n'.toNat)

/-- The token at an index begins something else, or there is none. -/
def isFence? (n : Nat) : Option Bool :=
  match p.tokens[n]? with
  | some l => if l.token.startsItem then p.isLineStart? l.span.start else some false
  | none => some true

/-- How deep calls may nest: as deep as three to a token. -/
def depth : Nat := 3 * p.tokens.length + 1

def oneAttribute : Reader Attribute := do
  let dot ← p.expect .dot .entryEnd
  let id ← p.identifier .attributeName
  let _ ← p.expect .equals .equals
  let next ← p.span
  match ← p.pattern? p.depth with
  | none => throw (.unexpected next.start .attributeValue .nothing)
  | some value =>
    let stop ← p.previousEnd
    let location ← p.locate dot.start stop
    return ⟨id, value, location⟩

def attributes : Nat → Reader (List Attribute)
  | 0 => checked none
  | depth + 1 => do
    if (← p.peek) = some .dot then
      let a ← p.oneAttribute
      let as ← attributes depth
      return a :: as
    else return []

/-- An entry, which ends where something else begins. -/
def entry : Reader Entry := do
  let first ← p.span
  let isTerm ← p.eat .minus
  let id ← p.identifier .entryName
  let _ ← p.expect .equals .equals
  let next ← p.span
  let value? ← p.pattern? p.depth
  let attributes ← p.attributes p.depth
  if ← checked (p.isFence? (← get)) then
    let stop ← p.previousEnd
    let location ← p.locate first.start stop
    match isTerm, value? with
    | true, some value => return .term ⟨id, value, attributes, none, location⟩
    | true, none => throw (.unexpected next.start .termValue .nothing)
    | false, none =>
      if attributes.isEmpty then throw (.unexpected next.start .messageContent .nothing)
      else return .message ⟨id, none, attributes, none, location⟩
    | false, some value => return .message ⟨id, some value, attributes, none, location⟩
  else p.fault .entryEnd

end Parser

end Fluent.Checked
