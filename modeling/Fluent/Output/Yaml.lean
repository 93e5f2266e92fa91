import Fluent.Output.Datum

/-!
# YAML

Plain data as YAML in block style. Mappings are indented by two columns, the items of a list stand in
the column of their key. A string is written plain where that reads back as the same string; otherwise
in quotes, or line by line as a literal block if it has line feeds.
-/

namespace Fluent.Yaml

/-- Characters that end a line. -/
def isBreak (c : Char) : Bool :=
  c == '\n' || c == '\r' || c == '\x85' || c == '\u2028' || c == '\u2029'

def isBlank (c : Char) : Bool := c == ' ' || c == '\t' || isBreak c

/-- A blank character, or the end of the text. -/
def isBlankOrEnd : Option Char → Bool
  | none => true
  | some c => isBlank c

/-- Characters that only an escape can write. -/
def isSpecial (c : Char) : Bool :=
  let n := c.toNat
  !(c == '\n' || (0x20 ≤ n && n ≤ 0x7E) || (0xA0 ≤ n && n ≤ 0xD7FF)
    || (0xE000 ≤ n && n ≤ 0xFFFD && n != 0xFEFF) || 0x10000 ≤ n)

/-- Numbers stand without an exponent where they do in JSON. -/
def numberLayout : NumberLayout := ⟨fun e => -5 ≤ e && e < 16, true, false⟩

def number : Binary64 → String
  | .infinite negative => if negative then "-.inf" else ".inf"
  | .notANumber => ".nan"
  | x => ((x.shortest .toEven).map numberLayout.render).getD ""

-- What a plain scalar reads as

/-- Leading zeros before more digits make no number. -/
def isZeroRun (cs : List Char) : Bool :=
  match (Decimal.takeSign cs).2 with
  | '0' :: d :: rest => (d :: rest).all Char.isDigit
  | _ => false

/-- The value of a digit in any base up to 16. -/
def digitValue? (c : Char) : Option Nat :=
  if Text.isHexDigit c then some (Text.hexDigitValue c) else none

/-- A nonempty run of digits of a base. -/
def readDigits? (base : Nat) (cs : List Char) : Option Nat :=
  if cs = [] then none
  else cs.foldlM (fun n c => (digitValue? c).bind fun d => if d < base then some (base * n + d) else none) 0

/-- A whole number of at most 128 bits: an optional sign, then decimal digits, or digits of another
base behind its mark. -/
def isInteger (cs : List Char) : Bool :=
  let (negative, magnitude) := Decimal.takeSign cs
  let value? := match magnitude with
    | '0' :: 'x' :: rest => readDigits? 16 rest
    | '0' :: 'o' :: rest => readDigits? 8 rest
    | '0' :: 'b' :: rest => readDigits? 2 rest
    | _ => if isZeroRun cs then none else readDigits? 10 magnitude
  match value? with
  | some n => if negative then n ≤ Nat.pow 2 127 else n < Nat.pow 2 128
  | none => false

/-- A number with or without a point, or a word for what is not finite. -/
def isFloat (cs : List Char) : Bool :=
  ["inf", "Inf", "INF"].any (fun w => (Decimal.takeSign cs).2 == '.' :: w.toList)
    || ["nan", "NaN", "NAN"].any (fun w => cs == '.' :: w.toList)
    || !isZeroRun cs && (((Decimal.read? cs).map fun d => (Binary64.ofDecimal d).isFinite).getD false)

/-- A text that would read as something other than a string, were it written plain. -/
def readsOtherwise (s : String) : Bool :=
  ["", "~", "null", "Null", "NULL", "true", "True", "TRUE", "false", "False", "FALSE"].contains s
    || isInteger s.toList || isZeroRun s.toList || isFloat s.toList

-- Which style a string allows

/-- Characters that cannot begin a plain scalar. -/
def isIndicator (c : Char) : Bool := "#,[]{}&*!|>'\"%@\x60".toList.contains c

/-- A colon before a blank, or a hash after one. -/
def hasMark : List Char → Bool
  | [] => false
  | c :: cs =>
    (c == ':' && isBlankOrEnd cs.head?) || (isBlank c && cs.head? == some '#') || hasMark cs

/-- A text that a plain scalar can hold. -/
def allowsPlain (cs : List Char) : Bool :=
  match cs with
  | [] => true
  | c :: rest =>
    !(cs.any isSpecial || cs.any isBreak || c == ' ' || cs.getLast? == some ' ' || isIndicator c
      || ((c == '-' || c == '?') && isBlankOrEnd rest.head?)
      || ['-', '-', '-'].isPrefixOf cs || ['.', '.', '.'].isPrefixOf cs || hasMark cs)

/-- Some character that satisfies `p` has one that satisfies `q` right after it. -/
def hasPair (p q : Char → Bool) : List Char → Bool
  | c :: d :: cs => (p c && q d) || hasPair p q (d :: cs)
  | _ => false

def isSpace (c : Char) : Bool := c == ' '

/-- A text that single quotes can hold. -/
def allowsSingle (cs : List Char) : Bool :=
  !(cs.any isSpecial || hasPair isSpace isBreak cs || hasPair isBreak isSpace cs)

/-- A text that a literal block can hold. -/
def allowsLiteral (cs : List Char) : Bool :=
  !(cs.any isSpecial || cs.getLast? == some ' ' || hasPair isSpace isBreak cs)

-- Writing strings

def spaces (n : Nat) : List Char := List.replicate n ' '

/-- Hexadecimal digits in upper case, zeros in front. -/
def hex (width n : Nat) : List Char :=
  let digits := (Nat.toDigits 16 n).map Char.toUpper
  List.replicate (width - digits.length) '0' ++ digits

/-- A character in double quotes. -/
def escapeChar (c : Char) : List Char :=
  if c == '"' || c == '\\' then ['\\', c]
  else if !(isSpecial c || isBreak c) then [c]
  else
    match c.toNat with
    | 0x00 => ['\\', '0']
    | 0x07 => ['\\', 'a']
    | 0x08 => ['\\', 'b']
    | 0x09 => ['\\', 't']
    | 0x0A => ['\\', 'n']
    | 0x0B => ['\\', 'v']
    | 0x0C => ['\\', 'f']
    | 0x0D => ['\\', 'r']
    | 0x1B => ['\\', 'e']
    | 0x85 => ['\\', 'N']
    | 0x2028 => ['\\', 'L']
    | 0x2029 => ['\\', 'P']
    | n =>
      if n ≤ 0xFF then '\\' :: 'x' :: hex 2 n
      else if n ≤ 0xFFFF then '\\' :: 'u' :: hex 4 n
      else '\\' :: 'U' :: hex 8 n

def doubleQuoted (cs : List Char) : List Char := '"' :: cs.flatMap escapeChar ++ ['"']

/-- Lines with an indentation in front of each that is not empty; `atStart` says whether the text
begins a line. -/
def indentLines (indent : Nat) (atStart : Bool) : List Char → List Char
  | [] => []
  | c :: cs =>
    if isBreak c then c :: indentLines indent true cs
    else (if atStart then spaces indent else []) ++ c :: indentLines indent false cs

/-- Quotes are doubled. A line separator inside is followed by the indentation. -/
def singleQuoted (indent : Nat) (cs : List Char) : List Char :=
  let doubled := cs.flatMap fun c => if c = '\'' then [c, c] else [c]
  let closing := if (cs.getLast?.map isBreak).getD false then spaces indent else []
  '\'' :: indentLines indent false doubled ++ closing ++ ['\'']

/-- The header of a literal block: an explicit indentation where the text does not show it, and what
becomes of the line breaks at the end. -/
def literalHeader (cs : List Char) : List Char :=
  let hint := match cs with
    | c :: _ => if c == ' ' || isBreak c then ['2'] else []
    | [] => []
  let chomp := match cs.reverse with
    | [] => ['-']
    | [c] => if isBreak c then ['+'] else ['-']
    | c :: d :: _ => if isBreak c then (if isBreak d then ['+'] else []) else ['-']
  '|' :: hint ++ chomp

def literal (indent : Nat) (cs : List Char) : List Char :=
  literalHeader cs ++ '\n' :: indentLines indent true cs
    ++ if (cs.getLast?.map isBreak).getD false then [] else ['\n']

/-- A string in a mapping whose keys stand in column `column`, with the line break after it. -/
def string (column : Nat) (s : String) : String :=
  let cs := s.toList
  let indent := column + 2
  String.ofList <|
    if cs.contains '\n' then
      if allowsLiteral cs then literal indent cs else doubleQuoted cs ++ ['\n']
    else if allowsPlain cs && !readsOtherwise s then cs ++ ['\n']
    else if allowsSingle cs then singleQuoted indent cs ++ ['\n']
    else doubleQuoted cs ++ ['\n']

-- Writing data

def pad (n : Nat) : String := String.ofList (spaces n)

mutual

/-- What follows the colon of a key in column `column`. -/
def afterKey (column : Nat) : Datum → String
  | .null => " null\n"
  | .bool b => if b then " true\n" else " false\n"
  | .nat n => " " ++ toString n ++ "\n"
  | .number x => " " ++ number x ++ "\n"
  | .text s => " " ++ string column s
  | .list [] => " []\n"
  | .list (d :: ds) => "\n" ++ pad column ++ "-" ++ afterDash column d ++ items column ds
  | .record [] => " {}\n"
  | .record ((k, d) :: rest) =>
    "\n" ++ pad (column + 2) ++ k ++ ":" ++ afterKey (column + 2) d ++ fields (column + 2) rest

/-- What follows the dash of an item in column `column`. -/
def afterDash (column : Nat) : Datum → String
  | .null => " null\n"
  | .bool b => if b then " true\n" else " false\n"
  | .nat n => " " ++ toString n ++ "\n"
  | .number x => " " ++ number x ++ "\n"
  | .text s => " " ++ string column s
  | .list [] => " []\n"
  | .list (d :: ds) => " -" ++ afterDash (column + 2) d ++ items (column + 2) ds
  | .record [] => " {}\n"
  | .record ((k, d) :: rest) => " " ++ k ++ ":" ++ afterKey (column + 2) d ++ fields (column + 2) rest

/-- Fields whose keys stand in a column. -/
def fields (column : Nat) : List (String × Datum) → String
  | [] => ""
  | (k, d) :: rest => pad column ++ k ++ ":" ++ afterKey column d ++ fields column rest

/-- Items whose dashes stand in a column. -/
def items (column : Nat) : List Datum → String
  | [] => ""
  | d :: ds => pad column ++ "-" ++ afterDash column d ++ items column ds

end

/-- A document that holds a mapping. -/
def document (fs : List (String × Datum)) : String := fields 0 fs

end Fluent.Yaml
