import Fluent.Text.Unprintable
import Fluent.Text.GraphemeExtend

/-!
# Quoted text

How messages and listings show a text: in quotes, with quote and backslash escaped, the common
controls as letters, and every other character that could not be told from the page, that is one
without a printed form or one that combines with its neighbour, as `\u{hex}`.
-/

namespace Fluent.Text

/-- Lower-case hexadecimal digits without padding. -/
def hex (n : Nat) : String := String.ofList (Nat.toDigits 16 n)

/-- The escape of a character inside quotes; `escaped` says which quotes need one. -/
def escapeChar (escaped : Char → Bool) (c : Char) : String :=
  match c with
  | '\x00' => "\\0"
  | '\t' => "\\t"
  | '\n' => "\\n"
  | '\r' => "\\r"
  | '\\' => "\\\\"
  | c =>
    if escaped c then "\\" ++ c.toString
    else if isUnprintable c || attaches c then r"\u{" ++ hex c.toNat ++ r"}"
    else c.toString

/-- A text in double quotes. -/
def quote (s : String) : String :=
  "\"" ++ String.join (s.toList.map (escapeChar (· == '"'))) ++ "\""

/-- A character in single quotes. -/
def quoteChar (c : Char) : String := "'" ++ escapeChar (· == '\'') c ++ "'"

/-- A character without quotes around it, both kinds of quote escaped. -/
def escapeBare (c : Char) : String := escapeChar (fun c => c == '"' || c == '\'') c

end Fluent.Text
