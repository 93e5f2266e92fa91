/-!
# Classes of characters as ranges

The classes of the Unicode character database, version 17, are kept as ascending lists of inclusive
ranges of code points.
-/

namespace Fluent.Text

/-- A character whose code point lies in one of the ranges. -/
def inRanges (ranges : List (Nat × Nat)) (c : Char) : Bool :=
  ranges.any fun (first, last) => first ≤ c.toNat && c.toNat ≤ last

end Fluent.Text
