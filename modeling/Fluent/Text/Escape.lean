import Fluent.Source.Place

/-!
# Escapes in string literals

A string literal is a sequence of *units*: a character other than the backslash, `\\`, `\"`, or the
code point `\uXXXX` or `\UXXXXXX` in hexadecimal digits. `unescape` is the meaning of the sequence;
where a backslash begins no unit it reports what stands there.
-/

namespace Fluent.Text

/-- A hexadecimal digit in either case. -/
def isHexDigit (c : Char) : Bool :=
  c.isDigit || ('a' ≤ c && c ≤ 'f') || ('A' ≤ c && c ≤ 'F')

/-- The value of a hexadecimal digit. -/
def hexDigitValue (c : Char) : Nat :=
  if c.isDigit then c.toNat - '0'.toNat
  else if 'a' ≤ c then c.toNat - 'a'.toNat + 10
  else c.toNat - 'A'.toNat + 10

/-- The number that hexadecimal digits denote. -/
def hexValue (cs : List Char) : Nat := cs.foldl (fun n c => 16 * n + hexDigitValue c) 0

/-- The character that stands for a code point that is no character. -/
def replacementChar : Char := '\ufffd'

/-- The character at a code point. -/
def charOfCodePoint (n : Nat) : Char :=
  if n.isValidChar then Char.ofNat n else replacementChar

/-- A unit: its meaning and the characters it takes after the first, or the text at fault. -/
def escapeUnit (c : Char) (cs : List Char) : Except (List Char) (Char × Nat) :=
  if c ≠ '\\' then .ok (c, 0)
  else
    match cs with
    | [] => .error ['\\']
    | '\\' :: _ => .ok ('\\', 1)
    | '"' :: _ => .ok ('"', 1)
    | 'u' :: rest => codePoint 'u' 4 rest
    | 'U' :: rest => codePoint 'U' 6 rest
    | other :: _ => .error ['\\', other]
where
  /-- A code point of exactly `n` digits. -/
  codePoint (marker : Char) (n : Nat) (rest : List Char) : Except (List Char) (Char × Nat) :=
    let digits := rest.take n
    if digits.length = n ∧ digits.all isHexDigit then .ok (charOfCodePoint (hexValue digits), n + 1)
    else .error ('\\' :: marker :: digits)

/-- A backslash at `span` that begins no unit, and what stands there. -/
structure BadEscape where
  span : Span
  raw : List Char
  deriving DecidableEq, Repr

/-- The meaning of the text of a string literal that stands at `offset`. -/
def unescape (offset : Nat) : List Char → Except BadEscape (List Char)
  | [] => .ok []
  | c :: cs =>
    match escapeUnit c cs with
    | .error raw => .error ⟨⟨offset, offset + byteCount raw⟩, raw⟩
    | .ok (value, n) =>
      (unescape (offset + byteCount (c :: cs.take n)) (cs.drop n)).map (value :: ·)
termination_by cs => cs.length

end Fluent.Text
