import Fluent.CharSet.ClassText
import Fluent.Source.Place

/-!
# Searching for characters of a set

A `Repeat` says how many characters of a set are searched for. `CharSet.search` finds the leftmost run of
as many as possible, or as few as possible if the repeat is lazy.
-/

namespace Fluent

structure Repeat where
  least : Nat
  /-- The greatest number; no limit if there is none. -/
  most : Option Nat
  lazy : Bool
  deriving DecidableEq, Repr

namespace Repeat

/-- Exactly one. -/
def once : Repeat := ⟨1, some 1, false⟩

/-- A number written in digits. -/
def readNat? (cs : List Char) : Option Nat :=
  if cs ≠ [] ∧ cs.all Char.isDigit then some (cs.foldl (fun n c => 10 * n + (c.toNat - '0'.toNat)) 0)
  else none

/-- The bounds between braces: a number, or two with a comma between them of which the second, the
greater, may be missing. -/
def readBounds? (cs : List Char) : Option (Nat × Option Nat) := do
  let least ← readNat? (cs.takeWhile (· ≠ ','))
  match cs.dropWhile (· ≠ ',') with
  | [] => some (least, some least)
  | [_] => some (least, none)
  | _ :: rest =>
    let most ← readNat? rest
    if least ≤ most then some (least, some most) else none

/-- A question mark at the end, if there is one and nothing else. -/
def readLazy? : List Char → Option Bool
  | [] => some false
  | ['?'] => some true
  | _ => none

/-- Reads the quantifier behind a class; none at all means once. -/
def read? : List Char → Option Repeat
  | [] => some once
  | '?' :: rest => (readLazy? rest).map (⟨0, some 1, ·⟩)
  | '*' :: rest => (readLazy? rest).map (⟨0, none, ·⟩)
  | '+' :: rest => (readLazy? rest).map (⟨1, none, ·⟩)
  | '{' :: rest =>
    match rest.dropWhile (· ≠ '}') with
    | [] => none
    | _ :: after => do
      let (least, most) ← readBounds? (rest.takeWhile (· ≠ '}'))
      let lazy ← readLazy? after
      some ⟨least, most, lazy⟩
  | _ => none

/-- How many characters of a run of `available` are taken, if those suffice. -/
def take? (r : Repeat) (available : Nat) : Option Nat :=
  if available < r.least then none
  else if r.lazy then some r.least
  else some (match r.most with
    | none => available
    | some most => min most available)

end Repeat

namespace CharSet

/-- The class of a set with a quantifier behind it. -/
def pattern (s : CharSet) (suffix : String) : String := s.classText ++ suffix

/-- The leftmost match in a text that begins at `offset`, as a span of bytes. -/
def searchFrom (s : CharSet) (r : Repeat) (offset : Nat) (cs : List Char) : Option Span :=
  let run := cs.takeWhile s.contains
  match r.take? run.length with
  | some n => some ⟨offset, offset + byteCount (run.take n)⟩
  | none =>
    match cs with
    | [] => none
    | c :: rest => searchFrom s r (offset + c.utf8Size) rest

/-- The leftmost match in a text. -/
def search (s : CharSet) (r : Repeat) (text : String) : Option Span := s.searchFrom r 0 text.toList

end CharSet

end Fluent
