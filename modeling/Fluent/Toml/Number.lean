import Fluent.Number.Binary64
import Fluent.Toml.Reader
import Fluent.Text.Escape

/-!
# TOML numbers and dates

Whole numbers have 64 bits and a sign; they may be written in base 16, 8 or 2. Underscores may stand
between digits. Dates and times are kept as text, in one spelling for each.
-/

namespace Fluent.Toml

/-- Digits with single underscores between them, less the underscores. -/
def readMoreDigits (p : Char → Bool) : Reader (List Char)
  | [] => some ([], [])
  | ['_'] => none
  | '_' :: c :: cs =>
    if p c then (readMoreDigits p cs).map fun (ds, rest) => (c :: ds, rest) else none
  | c :: cs =>
    if p c then (readMoreDigits p cs).map fun (ds, rest) => (c :: ds, rest) else some ([], c :: cs)

/-- At least one digit. -/
def readDigits (p : Char → Bool) : Reader (List Char)
  | c :: cs => if p c then (readMoreDigits p cs).map fun (ds, rest) => (c :: ds, rest) else none
  | [] => none

/-- A decimal number without zeros in front. -/
def readWhole : Reader (List Char)
  | '0' :: cs => some (['0'], cs)
  | cs => readDigits Char.isDigit cs

def isDigitOf (base : Nat) (c : Char) : Bool := Text.isHexDigit c && Text.hexDigitValue c < base

/-- The number that digits denote. -/
def ofDigits (base : Nat) (ds : List Char) : Nat :=
  ds.foldl (fun n c => base * n + Text.hexDigitValue c) 0

def readSign : List Char → List Char × List Char
  | '-' :: cs => (['-'], cs)
  | '+' :: cs => (['+'], cs)
  | cs => ([], cs)

/-- A whole number of 64 bits. -/
def whole? (negative : Bool) (n : Nat) : Option Int :=
  if negative then (if n ≤ Nat.pow 2 63 then some (-n) else none)
  else if n < Nat.pow 2 63 then some n
  else none

/-- The power of ten of a number, with its mark. -/
def readExponent : Reader (List Char)
  | c :: cs =>
    if c = 'e' ∨ c = 'E' then do
      let (sign, rest) := readSign cs
      let (ds, rest) ← readDigits Char.isDigit rest
      some ('e' :: sign ++ ds, rest)
    else none
  | [] => none

/-- The digits behind the point, with the point. -/
def readFraction : Reader (List Char)
  | '.' :: cs => (readDigits Char.isDigit cs).map fun (ds, rest) => ('.' :: ds, rest)
  | _ => none

/-- A number with a point or an exponent. One too great for the format is refused, one too small for it
is not. -/
def readFloat : Reader Binary64 := fun cs => do
  let (sign, rest) := readSign cs
  let (ds, rest) ← readWhole rest
  let (text, rest) ← match readFraction rest with
    | some (fraction, rest) =>
      match readExponent rest with
      | some (exponent, rest) => some (fraction ++ exponent, rest)
      | none => some (fraction, rest)
    | none => readExponent rest
  let x ← Binary64.read? (sign ++ ds ++ text)
  if x = .infinite false then none else some (x, rest)

/-- The words for what is not finite. -/
def readSpecialFloat : Reader Binary64 := fun cs =>
  let (sign, rest) := readSign cs
  match rest with
  | 'i' :: 'n' :: 'f' :: rest => some (.infinite (sign == ['-']), rest)
  | 'n' :: 'a' :: 'n' :: rest => some (.notANumber, rest)
  | _ => none

def readInteger : Reader Int
  | '0' :: 'x' :: cs => based 16 cs
  | '0' :: 'o' :: cs => based 8 cs
  | '0' :: 'b' :: cs => based 2 cs
  | cs => do
    let (sign, rest) := readSign cs
    let (ds, rest) ← readWhole rest
    let n ← whole? (sign == ['-']) (ofDigits 10 ds)
    some (n, rest)
where
  based (base : Nat) (cs : List Char) : Option (Int × List Char) := do
    let (ds, rest) ← readDigits (isDigitOf base) cs
    let n ← whole? false (ofDigits base ds)
    some (n, rest)

-- Dates and times

/-- A number of exactly so many digits, within bounds. -/
def readField (digits least most : Nat) : Reader Nat := fun cs =>
  let ds := cs.take digits
  let n := ofDigits 10 ds
  if ds.length = digits ∧ ds.all Char.isDigit ∧ least ≤ n ∧ n ≤ most then some (n, cs.drop digits)
  else none

def expect (c : Char) : Reader Unit
  | d :: cs => if c = d then some ((), cs) else none
  | [] => none

def isLeapYear (year : Nat) : Bool := year % 4 == 0 && (year % 100 != 0 || year % 400 == 0)

def daysOf (year month : Nat) : Nat :=
  if month = 2 then (if isLeapYear year then 29 else 28)
  else if [4, 6, 9, 11].contains month then 30
  else 31

/-- A number with zeros in front. -/
def padded (width n : Nat) : String :=
  let ds := (toString n).toList
  String.ofList (List.replicate (width - ds.length) '0' ++ ds)

def readDate : Reader String := fun cs => do
  let (year, cs) ← readField 4 0 9999 cs
  let ((), cs) ← expect '-' cs
  let (month, cs) ← readField 2 1 12 cs
  let ((), cs) ← expect '-' cs
  let (day, cs) ← readField 2 1 (daysOf year month) cs
  some (padded 4 year ++ "-" ++ padded 2 month ++ "-" ++ padded 2 day, cs)

/-- Fractions of a second, down to the billionth and without zeros at the end. -/
def readSubsecond (cs : List Char) : Option (String × List Char) :=
  match cs with
  | '.' :: rest =>
    let ds := rest.takeWhile Char.isDigit
    if ds = [] then none
    else
      let kept := ((ds.take 9).reverse.dropWhile (· == '0')).reverse
      some (if kept = [] then "" else "." ++ String.ofList kept, rest.drop ds.length)
  | _ => some ("", cs)

def readTime : Reader String := fun cs => do
  let (hour, cs) ← readField 2 0 23 cs
  let ((), cs) ← expect ':' cs
  let (minute, cs) ← readField 2 0 59 cs
  let ((), cs) ← expect ':' cs
  let (second, cs) ← readField 2 0 60 cs
  let (fraction, cs) ← readSubsecond cs
  some (padded 2 hour ++ ":" ++ padded 2 minute ++ ":" ++ padded 2 second ++ fraction, cs)

/-- The distance from universal time, if it is given. -/
def readOffset (cs : List Char) : Option (String × List Char) :=
  match cs with
  | c :: rest =>
    if c = 'Z' ∨ c = 'z' then some ("Z", rest)
    else if c = '+' ∨ c = '-' then do
      let (hours, rest) ← readField 2 0 23 rest
      let ((), rest) ← expect ':' rest
      let (minutes, rest) ← readField 2 0 59 rest
      let sign := if c = '-' ∧ (hours, minutes) ≠ (0, 0) then "-" else "+"
      some (sign ++ padded 2 hours ++ ":" ++ padded 2 minutes, rest)
    else some ("", cs)
  | [] => some ("", cs)

/-- A date, a time, or both with a mark or a blank between them. -/
def readMoment : Reader String := fun cs =>
  match readDate cs with
  | none => readTime cs
  | some (date, rest) =>
    match rest with
    | c :: after =>
      if c = 'T' ∨ c = 't' ∨ c = ' ' then
        match readTime after with
        | none => some (date, rest)
        | some (time, rest) => (readOffset rest).map fun (offset, rest) => (date ++ "T" ++ time ++ offset, rest)
      else some (date, rest)
    | [] => some (date, rest)

end Fluent.Toml
