/-!
# Decimal numbers

A `Decimal` is a sign, a whole number and a power of ten. `Decimal.read?` reads the usual notation
and `NumberLayout.render` writes it, as the record of a format's decisions says.
-/

namespace Fluent

/-- The number `± digits · 10 ^ exponent`. -/
structure Decimal where
  negative : Bool
  digits : Nat
  exponent : Int
  deriving DecidableEq, Repr

namespace Decimal

/-- The whole number that a run of digits denotes. -/
def ofDigits (cs : List Char) : Nat := cs.foldl (fun n c => 10 * n + (c.toNat - '0'.toNat)) 0

/-- An optional sign, and the text after it. -/
def takeSign : List Char → Bool × List Char
  | '-' :: cs => (true, cs)
  | '+' :: cs => (false, cs)
  | cs => (false, cs)

/-- The exponent part at the end of a number; none at all is zero. -/
def readExponent? : List Char → Option Int
  | [] => some 0
  | c :: cs =>
    if c = 'e' ∨ c = 'E' then
      match takeSign cs with
      | (negative, digits) =>
        if digits ≠ [] ∧ digits.all Char.isDigit then
          some (if negative then -(ofDigits digits : Int) else ofDigits digits)
        else none
    else none

/-- Reads a sign, digits with at most one point among them, and an exponent; of the first and the
last either may be missing, and of the digits those on one side of the point. -/
def read? (cs : List Char) : Option Decimal := do
  let (negative, cs) := takeSign cs
  let whole := cs.takeWhile Char.isDigit
  let rest := cs.dropWhile Char.isDigit
  let (fraction, rest) := match rest with
    | '.' :: rest => (rest.takeWhile Char.isDigit, rest.dropWhile Char.isDigit)
    | rest => ([], rest)
  if whole = [] ∧ fraction = [] then none
  else
    let exponent ← readExponent? rest
    some ⟨negative, ofDigits (whole ++ fraction), exponent - fraction.length⟩

/-- The same number without zeros at the end of its digits. -/
def trim (d : Decimal) : Decimal :=
  if _h : d.digits ≠ 0 ∧ d.digits % 10 = 0 then trim ⟨d.negative, d.digits / 10, d.exponent + 1⟩ else d
termination_by d.digits
decreasing_by exact Nat.div_lt_self (Nat.pos_of_ne_zero _h.1) (by decide)

end Decimal

/-- How a format writes its numbers. -/
structure NumberLayout where
  /-- The powers of ten, of the first digit, that are written without an exponent. -/
  plain : Int → Bool
  /-- A whole number keeps a zero after its point. -/
  keepsPoint : Bool
  /-- An exponent that is not negative has a sign. -/
  signsExponent : Bool

namespace NumberLayout

/-- Digits with a point among them, or zeros around them, as the power of ten asks. -/
def renderPlain (l : NumberLayout) (digits : List Char) (exponent : Int) : List Char :=
  let point := (digits.length : Int) + exponent
  if 0 ≤ exponent then
    digits ++ List.replicate exponent.toNat '0' ++ (if l.keepsPoint then ['.', '0'] else [])
  else if 0 < point then
    digits.take point.toNat ++ '.' :: digits.drop point.toNat
  else
    '0' :: '.' :: List.replicate (-point).toNat '0' ++ digits

/-- One digit before the point, and the power of ten after the rest. -/
def renderScientific (l : NumberLayout) (digits : List Char) (power : Int) : List Char :=
  let fraction := match digits.drop 1 with
    | [] => []
    | rest => '.' :: rest
  let sign := if power < 0 then ['-'] else if l.signsExponent then ['+'] else []
  digits.take 1 ++ fraction ++ 'e' :: sign ++ (toString power.natAbs).toList

def render (l : NumberLayout) (d : Decimal) : String :=
  let d := d.trim
  let digits := (toString d.digits).toList
  let power := (digits.length : Int) + d.exponent - 1
  let exponent := if d.digits = 0 then 0 else d.exponent
  let power := if d.digits = 0 then 0 else power
  let text := if l.plain power then l.renderPlain digits exponent else l.renderScientific digits power
  String.ofList (if d.negative then '-' :: text else text)

end NumberLayout

end Fluent
