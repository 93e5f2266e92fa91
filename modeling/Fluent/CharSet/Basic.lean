import Fluent.CharSet.Range

/-!
# Sets of characters

A `CharSet` lists its members as ranges in ascending order, with a gap of at least one character between
any two, so that a set has one list only.

* `ofSpec`: the set that a text such as `a-zA-Z_` describes.
* `union`, `difference`: set operations.
* `contains`: membership, by bisection.
-/

namespace Fluent

structure CharSet where
  ranges : List CharRange
  deriving DecidableEq, Repr

namespace CharSet

def empty : CharSet := ⟨[]⟩

/-- Ranges in ascending order with those joined that touch; `r` is the first of them. -/
def joinFrom (r : CharRange) : List CharRange → List CharRange
  | [] => [r]
  | s :: rest => if r.touches s then joinFrom (r.extend s) rest else r :: joinFrom s rest

/-- Ranges in ascending order with those joined that touch. -/
def join : List CharRange → List CharRange
  | [] => []
  | r :: rest => joinFrom r rest

/-- The characters that some range contains. -/
def ofRanges (rs : List CharRange) : CharSet :=
  ⟨join (rs.mergeSort fun r s => r.first ≤ s.first)⟩

/-- The ranges of a description, read from the left: two characters with a dash between them are the
bounds of a range, any other character stands for itself. -/
def specRanges : List Char → List CharRange
  | [] => []
  | a :: '-' :: b :: rest => .between a b :: specRanges rest
  | c :: rest => .single c :: specRanges rest

/-- The set that a description stands for. -/
def ofSpec (spec : String) : CharSet := ofRanges (specRanges spec.toList)

def union (a b : CharSet) : CharSet := ofRanges (a.ranges ++ b.ranges)

/-- What is left of the characters from `first` to `last` without those of ascending ranges. -/
def cut (first last : Char) : List CharRange → List CharRange
  | [] => [.between first last]
  | e :: rest =>
    if last < e.first then [.between first last]
    else if e.last < first then cut first last rest
    else
      let before := match previousChar? e.first with
        | some c => if first < e.first then [CharRange.between first c] else []
        | none => []
      let after := match nextChar? e.last with
        | some c => if e.last < last then cut c last rest else []
        | none => []
      before ++ after

def difference (a b : CharSet) : CharSet := ⟨a.ranges.flatMap fun r => cut r.first r.last b.ranges⟩

/-- The set of one description without that of another. -/
def ofSpecExcluding (spec excluded : String) : CharSet := (ofSpec spec).difference (ofSpec excluded)

/-- Some range of an ascending list contains a character: the range in the middle does, or it shows
on which side to go on. -/
def bisect (c : Char) (rs : List CharRange) : Bool :=
  match _h : rs.drop (rs.length / 2) with
  | [] => false
  | middle :: right =>
    if middle.last < c then bisect c right
    else if c < middle.first then bisect c (rs.take (rs.length / 2))
    else true
termination_by rs.length
decreasing_by
  all_goals
    have := congrArg List.length _h
    simp at this ⊢
    omega

def contains (s : CharSet) (c : Char) : Bool := bisect c s.ranges

end CharSet

end Fluent
