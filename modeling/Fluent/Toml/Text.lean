import Fluent.Text.Escape
import Fluent.Toml.Reader

/-!
# TOML strings and keys

Strings stand in double quotes, with escapes, or in single quotes, without. Three quotes open a string of
several lines. A key is a string or a bare word, and dots join keys to a path.
-/

namespace Fluent.Toml

/-- A code point of so many hexadecimal digits. -/
def readCodePoint (digits : Nat) : Reader Char := fun cs =>
  let hex := cs.take digits
  let n := hex.foldl (fun n c => 16 * n + Text.hexDigitValue c) 0
  if hex.length = digits ∧ hex.all Text.isHexDigit ∧ n.isValidChar then
    some (Char.ofNat n, cs.drop digits)
  else none

/-- What an escape stands for, after its backslash. -/
def readEscape : Reader Char
  | 'b' :: cs => some ('\x08', cs)
  | 't' :: cs => some ('\t', cs)
  | 'n' :: cs => some ('\n', cs)
  | 'f' :: cs => some ('\x0c', cs)
  | 'r' :: cs => some ('\r', cs)
  | '"' :: cs => some ('"', cs)
  | '\\' :: cs => some ('\\', cs)
  | 'u' :: cs => readCodePoint 4 cs
  | 'U' :: cs => readCodePoint 8 cs
  | _ => none

/-- One character between double quotes. -/
def readBasicChar : Reader Char
  | '\\' :: cs => readEscape cs
  | c :: cs => if c ≠ '"' ∧ isPrintable c then some (c, cs) else none
  | [] => none

/-- One character between single quotes. -/
def readLiteralChar : Reader Char
  | c :: cs => if c ≠ '\'' ∧ isPrintable c then some (c, cs) else none
  | [] => none

/-- The rest of a string on one line, up to its closing quote. -/
def readClosed (quote : Char) (char : Reader Char) : Reader String := fun cs =>
  match many char cs with
  | (text, c :: rest) => if c = quote then some (String.ofList text, rest) else none
  | (_, []) => none

/-- A line break that a backslash takes out of a string, together with all blanks and line breaks after
it. -/
def readJoin : Reader (List Char)
  | '\\' :: cs =>
    (lineBreak? (skipSpaces cs)).map fun rest =>
      ([], (many (fun cs => (lineBreak? (skipSpaces cs)).map (((), ·))) rest).2 |> skipSpaces)
  | _ => none

/-- A line break, which counts as a line feed. -/
def readBreak : Reader (List Char) := fun cs => (lineBreak? cs).map (['\n'], ·)

/-- One or two quotes that do not close the string. -/
def readQuotes (quote : Char) : Reader (List Char) := fun cs =>
  let run := cs.takeWhile (· == quote)
  if 1 ≤ run.length ∧ run.length ≤ 2 then some (run, cs.drop run.length) else none

/-- The rest of a string of several lines. The quotes at its end may be two more than close it. -/
def readLongClosed (quote : Char) (piece : Reader (List Char)) : Reader String := fun cs =>
  let (pieces, rest) := many piece ((lineBreak? cs).getD cs)
  let run := rest.takeWhile (· == quote)
  if 3 ≤ run.length ∧ run.length ≤ 5 then
    some (String.ofList (pieces.flatten ++ run.drop 3), rest.drop run.length)
  else none

def readLongBasic : Reader String :=
  readLongClosed '"' fun cs =>
    readJoin cs <|> ((readBasicChar cs).map fun (c, rest) => ([c], rest)) <|> readBreak cs
      <|> readQuotes '"' cs

def readLongLiteral : Reader String :=
  readLongClosed '\'' fun cs =>
    ((readLiteralChar cs).map fun (c, rest) => ([c], rest)) <|> readBreak cs <|> readQuotes '\'' cs

/-- A string of one line. -/
def readShortString : Reader String
  | '"' :: cs => readClosed '"' readBasicChar cs
  | '\'' :: cs => readClosed '\'' readLiteralChar cs
  | _ => none

def readString : Reader String
  | '"' :: '"' :: '"' :: cs => readLongBasic cs
  | '\'' :: '\'' :: '\'' :: cs => readLongLiteral cs
  | cs => readShortString cs

def isBareChar (c : Char) : Bool := c.isAlphanum || c == '_' || c == '-'

/-- A key without dots. -/
def readKey : Reader String := fun cs =>
  let bare := cs.takeWhile isBareChar
  if bare = [] then readShortString cs else some (String.ofList bare, cs.drop bare.length)

/-- A dot and the key after it. -/
def readNextKey : Reader String := fun cs =>
  match skipSpaces cs with
  | '.' :: rest => readKey (skipSpaces rest)
  | _ => none

/-- Lists and tables nest less deep than this, and a path has fewer keys. -/
def nestingLimit : Nat := 80

/-- Keys with dots between them, and the spaces around them. -/
def readPath : Reader (List String) := fun cs => do
  let (key, rest) ← readKey (skipSpaces cs)
  let (keys, rest) := many readNextKey rest
  if keys.length + 1 < nestingLimit then some (key :: keys, skipSpaces rest) else none

end Fluent.Toml
