import Fluent.Number.Decimal

/-!
# Binary numbers of 64 bits

A finite number is a sign, a significand below 2^53 and a power of two. Both conversions work on
natural numbers alone:

* `Binary64.ofDecimal`: the nearest number, a half going to the even significand.
* `Binary64.shortest`: the fewest digits that read back as the number, and of those the nearest.
-/

namespace Fluent

/-- A number of the format. -/
inductive Binary64 where
  | finite (negative : Bool) (significand : Nat) (exponent : Int)
  | infinite (negative : Bool)
  | notANumber
  deriving DecidableEq, Repr, Inhabited

namespace Binary64

/-- The exponent of the smallest positive number. -/
def leastExponent : Int := -1074

/-- The largest exponent of a finite number. -/
def greatestExponent : Int := 971

/-- The least significand of 53 bits. -/
def leastNormal : Nat := Nat.pow 2 52

/-- A quotient to the nearest whole number, a half going to the even one. -/
def roundQuotient (n d : Nat) : Nat :=
  let q := n / d
  let r := n % d
  if d < 2 * r ∨ (d = 2 * r ∧ q % 2 = 1) then q + 1 else q

/-- The pair `(n, d)` scaled by a power of two. -/
def scaleDown (n d : Nat) (e : Int) : Nat × Nat :=
  if 0 ≤ e then (n, d * Nat.pow 2 e.toNat) else (n * Nat.pow 2 (-e).toNat, d)

/-- The power of two that leaves `n / d` with 53 bits before the point, within the format. -/
def exponentOf (n d : Nat) : Int :=
  let guess : Int := (Nat.log2 n : Int) - Nat.log2 d - 52
  let (a, b) := scaleDown n d guess
  max leastExponent (if a < leastNormal * b then guess - 1 else guess)

/-- The number nearest to `± n / d`. -/
def ofRatio (negative : Bool) (n d : Nat) : Binary64 :=
  if n = 0 then finite negative 0 leastExponent
  else
    let e := exponentOf n d
    let (a, b) := scaleDown n d e
    let q := roundQuotient a b
    let (q, e) := if q = 2 * leastNormal then (leastNormal, e + 1) else (q, e)
    if greatestExponent < e then infinite negative else finite negative q e

/-- The number nearest to a decimal. Powers of ten far outside the format are not computed. -/
def ofDecimal (d : Decimal) : Binary64 :=
  let power := (toString d.digits).length + d.exponent
  if d.digits = 0 then finite d.negative 0 leastExponent
  else if 400 < power then infinite d.negative
  else if power < -400 then finite d.negative 0 leastExponent
  else if 0 ≤ d.exponent then ofRatio d.negative (d.digits * Nat.pow 10 d.exponent.toNat) 1
  else ofRatio d.negative d.digits (Nat.pow 10 (-d.exponent).toNat)

/-- Reads a number in decimal notation, or one of the words for what is not finite. -/
def read? (cs : List Char) : Option Binary64 :=
  match Decimal.read? cs with
  | some d => some (ofDecimal d)
  | none =>
    let (negative, word) := Decimal.takeSign cs
    match String.ofList (word.map Char.toLower) with
    | "inf" | "infinity" => some (infinite negative)
    | "nan" => some notANumber
    | _ => none

def isFinite : Binary64 → Bool
  | finite .. => true
  | _ => false

/-- Which of two decimals at the same distance is taken. -/
inductive Tie where
  | up
  | toEven
  deriving DecidableEq, Repr

/-- The power of ten of the first digit of `n / d`. -/
def leadingPower (n d : Nat) : Int :=
  if d ≤ n then (toString (n / d)).length - 1
  else
    let gap := (toString d).length - (toString n).length
    if d ≤ n * Nat.pow 10 gap then -gap else -gap - 1

/-- A decimal on the grid of multiples of `10 ^ k` that reads back as `m · 2 ^ e`. -/
def onGrid? (tie : Tie) (m : Nat) (e : Int) (k : Int) : Option Nat :=
  -- in quarters of the gap to the next number: the value, and the ends of what rounds to it
  let low := if m = leastNormal ∧ e ≠ leastExponent then 4 * m - 1 else 4 * m - 2
  let high := 4 * m + 2
  let e := e - 2
  let unit := Nat.pow 10 k.toNat * Nat.pow 2 (-e).toNat
  let quarter := Nat.pow 2 e.toNat * Nat.pow 10 (-k).toNat
  let value := 4 * m * quarter
  let inside (c : Nat) : Bool :=
    if m % 2 = 0 then low * quarter ≤ c * unit && c * unit ≤ high * quarter
    else low * quarter < c * unit && c * unit < high * quarter
  let below := value / unit
  let above := below + 1
  match inside below, inside above with
  | true, false => some below
  | false, true => some above
  | true, true =>
    let toBelow := value - below * unit
    let toAbove := above * unit - value
    if toBelow < toAbove then some below
    else if toAbove < toBelow then some above
    else if tie = .up ∨ below % 2 = 1 then some above
    else some below
  | false, false => none

/-- The digits of a positive number; 17 of them always suffice. -/
def shortestDigits (tie : Tie) (m : Nat) (e : Int) : Nat × Int :=
  let top := if 0 ≤ e then leadingPower (m * Nat.pow 2 e.toNat) 1
    else leadingPower m (Nat.pow 2 (-e).toNat)
  let found := (List.range 17).findSome? fun (n : Nat) =>
    (onGrid? tie m e (top - n)).map fun c => (c, top - n)
  found.getD (m, e)

/-- The shortest decimal that reads back as the number; `none` when it is not finite. -/
def shortest (tie : Tie) : Binary64 → Option Decimal
  | infinite _ | notANumber => none
  | finite negative m e =>
    if m = 0 then some ⟨negative, 0, 0⟩
    else
      let (digits, exponent) := shortestDigits tie m e
      some ⟨negative, digits, exponent⟩

/-- Every digit is written out, and a whole number has no point. -/
def plainLayout : NumberLayout := ⟨fun _ => true, false, false⟩

/-- The number without an exponent, or the word for what is not finite. -/
def text : Binary64 → String
  | infinite negative => if negative then "-inf" else "inf"
  | notANumber => "NaN"
  | x => ((x.shortest .up).map plainLayout.render).getD ""

end Binary64

end Fluent
