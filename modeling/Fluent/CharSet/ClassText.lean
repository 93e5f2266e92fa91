import Fluent.CharSet.Basic
import Fluent.Text.Quoted

/-!
# Character classes

The text of a set: each range for people, and the whole as a class between brackets that regular
expressions understand.
-/

namespace Fluent

namespace CharRange

/-- The range for people: its bounds with a dash between them, or its only character. -/
def text (r : CharRange) : String :=
  if r.first = r.last then Text.escapeBare r.first
  else Text.escapeBare r.first ++ "-" ++ Text.escapeBare r.last

end CharRange

/-- Characters that mean something to a regular expression. -/
def isRegexMark (c : Char) : Bool := "\\.+*?()|[]{}^$#&-~".toList.contains c

/-- A character inside a class. Letters and digits stand for themselves, as do other ASCII marks unless
they mean something; the rest is written by code point. -/
def classChar (c : Char) : List Char :=
  if c.isAlphanum then [c]
  else if 0x21 ≤ c.toNat ∧ c.toNat ≤ 0x7E then (if isRegexMark c then ['\\', c] else [c])
  else '\\' :: 'x' :: '{' :: (Nat.toDigits 16 c.toNat).map Char.toUpper ++ ['}']

namespace CharRange

def classItem (r : CharRange) : List Char :=
  classChar r.first ++ if r.last = r.first then [] else '-' :: classChar r.last

end CharRange

namespace CharSet

/-- The class of a set. That of no characters is the complement of all. -/
def classText (s : CharSet) : String :=
  if s.ranges = [] then "[^\\x{0}-\\x{10FFFF}]"
  else String.ofList ('[' :: s.ranges.flatMap CharRange.classItem ++ [']'])

end CharSet

end Fluent
