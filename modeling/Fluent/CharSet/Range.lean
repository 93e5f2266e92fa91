/-!
# Ranges of characters

Characters in the order of their code points. There are none from U+D800 to U+DFFF, so U+D7FF and
U+E000 are neighbours.
-/

namespace Fluent

/-- The greatest character. -/
def lastChar : Char := Char.ofNat 0x10FFFF

/-- The next character, if there is one. -/
def nextChar? (c : Char) : Option Char :=
  if c = '\ud7ff' then some '\ue000'
  else if c = lastChar then none
  else some (Char.ofNat (c.toNat + 1))

/-- The character before, if there is one. -/
def previousChar? (c : Char) : Option Char :=
  if c = '\ue000' then some '\ud7ff'
  else if c = '\x00' then none
  else some (Char.ofNat (c.toNat - 1))

/-- The characters from `first` to `last`, both included. -/
structure CharRange where
  first : Char
  last : Char
  first_le_last : first ≤ last
  deriving DecidableEq, Repr

namespace CharRange

def single (c : Char) : CharRange := ⟨c, c, Char.le_refl c⟩

/-- The characters between two bounds, which may come in either order. -/
def between (a b : Char) : CharRange :=
  if h : a ≤ b then ⟨a, b, h⟩ else ⟨b, a, (Char.le_total a b).resolve_left h⟩

def contains (r : CharRange) (c : Char) : Bool := r.first ≤ c && c ≤ r.last

/-- A later range begins inside this one or right after it. -/
def touches (r later : CharRange) : Bool :=
  match nextChar? r.last with
  | some c => later.first ≤ c
  | none => true

/-- The range up to the end of a later one, unless it ends there already. -/
def extend (r later : CharRange) : CharRange :=
  if h : r.last ≤ later.last then ⟨r.first, later.last, Char.le_trans r.first_le_last h⟩
  else r

end CharRange

end Fluent
