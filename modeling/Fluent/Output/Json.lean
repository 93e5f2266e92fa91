import Fluent.Output.Datum

/-!
# JSON

Plain data as JSON, a field or an item per line, two spaces per level, without a line break at the
end.
-/

namespace Fluent.Json

/-- A hexadecimal digit in lower case. -/
def hexDigit (n : Nat) : Char := ((Nat.toDigits 16 n).getLast?).getD '0'

/-- A character inside a string: quotes, backslashes and control characters are escaped. -/
def escapeChar (c : Char) : List Char :=
  match c with
  | '"' => ['\\', '"']
  | '\\' => ['\\', '\\']
  | '\x08' => ['\\', 'b']
  | '\x0c' => ['\\', 'f']
  | '\n' => ['\\', 'n']
  | '\r' => ['\\', 'r']
  | '\t' => ['\\', 't']
  | c =>
    if c.toNat < 0x20 then ['\\', 'u', '0', '0', hexDigit (c.toNat / 16), hexDigit (c.toNat % 16)]
    else [c]

def string (s : String) : String := "\"" ++ String.ofList (s.toList.flatMap escapeChar) ++ "\""

/-- Numbers from 0.00001 up to 16 digits before the point stand without an exponent. -/
def numberLayout : NumberLayout := ⟨fun e => -5 ≤ e && e < 16, true, true⟩

/-- A number; one that is not finite has no form of its own. -/
def number (x : Binary64) : String := ((x.shortest .toEven).map numberLayout.render).getD "null"

/-- The start of a line at a level. -/
def newline (level : Nat) : String := "\n" ++ String.ofList (List.replicate (2 * level) ' ')

mutual

/-- A value whose first line stands at a level. -/
def render (level : Nat) : Datum → String
  | .null => "null"
  | .bool b => if b then "true" else "false"
  | .nat n => toString n
  | .number x => number x
  | .text s => string s
  | .list [] => "[]"
  | .list (d :: ds) =>
    "[" ++ newline (level + 1) ++ render (level + 1) d ++ renderItems level ds ++ newline level ++ "]"
  | .record [] => "{}"
  | .record ((k, d) :: fields) =>
    r"{" ++ newline (level + 1) ++ string k ++ ": " ++ render (level + 1) d
      ++ renderFields level fields ++ newline level ++ r"}"

/-- The items of a list after the first. -/
def renderItems (level : Nat) : List Datum → String
  | [] => ""
  | d :: ds => "," ++ newline (level + 1) ++ render (level + 1) d ++ renderItems level ds

/-- The fields of a record after the first. -/
def renderFields (level : Nat) : List (String × Datum) → String
  | [] => ""
  | (k, d) :: fields =>
    "," ++ newline (level + 1) ++ string k ++ ": " ++ render (level + 1) d ++ renderFields level fields

end

end Fluent.Json
