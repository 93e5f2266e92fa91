import Fluent.Token
import Fluent.Source.Cursor

/-!
# One expression token

Inside placeables no layout matters to a single token: `Token.scan` takes the longest token that a
text begins with, and a character that begins none is a token of its own. `Cursor.scanAll` cuts a whole
text in this way.
-/

namespace Fluent

/-- The inside of a string literal: every backslash takes the next character with it, and neither
runs past the end of the line. -/
def stringBody : List Char → List Char × List Char
  | [] => ([], [])
  | '"' :: cs => ([], '"' :: cs)
  | '\n' :: cs => ([], '\n' :: cs)
  | '\\' :: [] => ([], ['\\'])
  | '\\' :: c :: cs =>
    if c = '\n' then ([], '\\' :: c :: cs)
    else let (body, rest) := stringBody cs; ('\\' :: c :: body, rest)
  | c :: cs => let (body, rest) := stringBody cs; (c :: body, rest)

/-- Digits, and a dot with further digits if there are any. -/
def digits (cs : List Char) : List Char :=
  let whole := cs.takeWhile Char.isDigit
  match cs.dropWhile Char.isDigit with
  | '.' :: rest =>
    match rest.takeWhile Char.isDigit with
    | [] => whole
    | fraction => whole ++ '.' :: fraction
  | _ => whole

/-- A text without the carriage returns at its end. -/
def trimReturns (cs : List Char) : List Char := (cs.reverse.dropWhile (· == '\r')).reverse

namespace Token

/-- The token of a single character. -/
def ofChar : Char → Token
  | '-' => minus
  | '=' => equals
  | '.' => dot
  | '*' => star
  | '$' => dollar
  | ',' => comma
  | ':' => colon
  | '{' => openBrace
  | '}' => closeBrace
  | '[' => openBracket
  | ']' => closeBracket
  | '(' => openParen
  | ')' => closeParen
  | c => unknown c

/-- The token that a text beginning with `c` begins with, and the characters of it after `c`. -/
def scan (c : Char) (cs : List Char) : Token × List Char :=
  if isIdentifierStart c then
    let more := cs.takeWhile isIdentifierChar
    (identifier (String.ofList (c :: more)), more)
  else if c.isDigit then
    let raw := digits (c :: cs)
    (number (String.ofList raw), raw.tail)
  else if c = '"' then
    match stringBody cs with
    | (body, '"' :: _) => (string (String.ofList body), body ++ ['"'])
    | (body, _) => (unterminatedString (String.ofList (trimReturns body)), body)
  else if c = '-' then
    match cs with
    | '>' :: _ => (arrow, ['>'])
    | d :: _ =>
      if d.isDigit then
        let raw := digits cs
        (number (String.ofList ('-' :: raw)), raw)
      else (minus, [])
    | [] => (minus, [])
  else (ofChar c, [])

end Token

/-- The tokens of a text in which nothing is layout: a blank is a token like any other. -/
def Cursor.scanAll (c : Cursor) : List Lexeme :=
  match _h : c.rest with
  | [] => []
  | d :: ds =>
    let (t, more) := Token.scan d ds
    let next := c.skip (more.length + 1)
    ⟨t, ⟨c.offset, next.offset⟩⟩ :: next.scanAll
termination_by c.rest.length
decreasing_by
  simp only [Cursor.length_rest_skip, _h, List.length_cons]
  omega

end Fluent
