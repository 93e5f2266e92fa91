/-!
# Places in a source

Offsets count bytes of the UTF-8 text; lines and columns count from zero, columns in bytes.

* `Span`: a half-open range of offsets.
* `Location`: a span together with the positions of its two ends.
* `LineMap.position`: the line and column of an offset, found by bisection. `position_ofChars` says that
  they come from the line starts up to the offset.
-/

namespace Fluent

/-- A half-open range of byte offsets. -/
structure Span where
  start : Nat
  stop : Nat
  deriving DecidableEq, Repr, Inhabited

/-- The empty span at an offset. -/
def Span.at (offset : Nat) : Span := ⟨offset, offset⟩

/-- A line and a byte column, both from zero. -/
structure Position where
  line : Nat
  column : Nat
  deriving DecidableEq, Repr, Inhabited

namespace Position

/-- Reading order: by line, then by column. -/
def before (p q : Position) : Bool :=
  p.line < q.line || (p.line == q.line && p.column < q.column)

/-- `line:column`. -/
def text (p : Position) : String := s!"{p.line}:{p.column}"

end Position

/-- A span and the positions of its ends. -/
structure Location where
  span : Span
  start : Position
  stop : Position
  deriving DecidableEq, Repr, Inhabited

namespace Location

/-- The position lies between the two ends, ends included. -/
def contains (l : Location) (p : Position) : Bool :=
  !p.before l.start && !l.stop.before p

/-- `line:column..line:column`. -/
def text (l : Location) : String := s!"{l.start.text}..{l.stop.text}"

/-- Extends a location so that it covers another one; of equal ends the older one stays. -/
def cover (a b : Location) : Location :=
  let (first, start) := if b.start.before a.start then (b.span.start, b.start) else (a.span.start, a.start)
  let (last, stop) := if a.stop.before b.stop then (b.span.stop, b.stop) else (a.span.stop, a.stop)
  ⟨⟨first, last⟩, start, stop⟩

/-- The smallest location that covers a list of them. -/
def boundingBox? : List Location → Option Location
  | [] => none
  | l :: ls => some (ls.foldl cover l)

end Location

/-- The bytes that a run of characters takes in UTF-8. -/
def byteCount : List Char → Nat
  | [] => 0
  | c :: cs => c.utf8Size + byteCount cs

/-- Where the lines of a source start, the first line apart, in ascending order. -/
structure LineMap where
  starts : Array Nat
  deriving Repr, Inhabited

namespace LineMap

/-- The offsets right after the line feeds of a text that begins at `offset`. -/
def startsFrom (offset : Nat) : List Char → List Nat
  | [] => []
  | c :: cs =>
    let next := offset + c.utf8Size
    if c = '\n' then next :: startsFrom next cs else startsFrom next cs

def ofChars (source : List Char) : LineMap := ⟨(startsFrom 0 source).toArray⟩

/-- A source has one line more than it has line feeds. -/
def lineCount (m : LineMap) : Nat := m.starts.size + 1

/-- How many line starts do not exceed an offset, by bisection: those before `low` do not, those from
`high` on do. -/
def passedBetween (m : LineMap) (offset low high : Nat) : Nat :=
  if low < high then
    let middle := low + (high - low) / 2
    if m.starts.getD middle 0 ≤ offset then m.passedBetween offset (middle + 1) high
    else m.passedBetween offset low middle
  else low
termination_by high - low

/-- The line counts the line starts passed; the column is the distance from the last of them. -/
def position (m : LineMap) (offset : Nat) : Position :=
  match m.passedBetween offset 0 m.starts.size with
  | 0 => ⟨0, offset⟩
  | line + 1 => ⟨line + 1, offset - m.starts.getD line 0⟩

def locate (m : LineMap) (s : Span) : Location :=
  ⟨s, m.position s.start, m.position s.stop⟩

/-- An offset where a line starts. -/
def isLineStart (m : LineMap) (offset : Nat) : Bool := (m.position offset).column == 0

theorem lt_of_mem_startsFrom {offset x : Nat} {cs : List Char} (h : x ∈ startsFrom offset cs) :
    offset < x := by
  fun_induction startsFrom offset cs with
  | case1 => simp at h
  | case2 offset cs next ih =>
    rcases List.mem_cons.1 h with rfl | h
    · exact Nat.lt_add_of_pos_right (Char.utf8Size_pos _)
    · exact Nat.lt_of_le_of_lt (Nat.le_add_right ..) (ih h)
  | case3 offset c cs next _ ih => exact Nat.lt_of_le_of_lt (Nat.le_add_right ..) (ih h)

theorem pairwise_startsFrom (offset : Nat) (cs : List Char) :
    (startsFrom offset cs).Pairwise (· < ·) := by
  fun_induction startsFrom offset cs with
  | case1 => exact .nil
  | case2 _ _ _ ih => exact .cons (fun _ => lt_of_mem_startsFrom) ih
  | case3 _ _ _ _ _ ih => exact ih

/-- A run of elements that satisfy `p` is the longest one if the next does not. -/
theorem length_takeWhile_of_split {p : Nat → Bool} {xs : List Nat} {n : Nat} (hn : n ≤ xs.length)
    (hp : ∀ i, i < n → p (xs.getD i 0)) (hq : n < xs.length → p (xs.getD n 0) = false) :
    (xs.takeWhile p).length = n := by
  induction xs generalizing n with
  | nil => exact (Nat.le_zero.1 hn).symm
  | cons x xs ih =>
    cases n with
    | zero =>
      have := hq (Nat.succ_pos _)
      simp_all
    | succ n =>
      have hx : p x = true := hp 0 (Nat.succ_pos _)
      rw [List.takeWhile_cons, if_pos hx, List.length_cons,
        ih (Nat.le_of_succ_le_succ hn) (fun i hi => hp (i + 1) (Nat.succ_lt_succ hi))
          (fun h => hq (Nat.succ_lt_succ h))]

theorem getD_le_getD {xs : Array Nat} (h : xs.toList.Pairwise (· < ·)) {i j : Nat} (hij : i ≤ j)
    (hj : j < xs.size) : xs.getD i 0 ≤ xs.getD j 0 := by
  have hi : i < xs.size := Nat.lt_of_le_of_lt hij hj
  rcases Nat.lt_or_eq_of_le hij with hlt | rfl
  · have := List.pairwise_iff_getElem.1 h i j hi hj hlt
    simpa [hi, hj] using Nat.le_of_lt this
  · exact Nat.le_refl _

/-- Bisection finds where the line starts that do not exceed the offset end. -/
theorem passedBetween_eq {m : LineMap} (hm : m.starts.toList.Pairwise (· < ·)) {offset low high : Nat}
    (hle : low ≤ high) (hhigh : high ≤ m.starts.size)
    (hlow : ∀ i, i < low → m.starts.getD i 0 ≤ offset)
    (habove : high < m.starts.size → offset < m.starts.getD high 0) :
    m.passedBetween offset low high = (m.starts.toList.takeWhile (· ≤ offset)).length := by
  fun_induction passedBetween m offset low high with
  | case1 low high hlt middle hmid ih =>
    refine ih (by omega) hhigh (fun i hi => ?_) habove
    exact Nat.le_trans (getD_le_getD hm (Nat.le_of_lt_succ hi) (by omega)) hmid
  | case2 low high hlt middle hmid ih =>
    exact ih (by omega) (by omega) hlow fun _ => Nat.lt_of_not_le hmid
  | case3 low high hge =>
    obtain rfl : low = high := by omega
    refine (length_takeWhile_of_split (by simpa using hhigh) (fun i hi => ?_) fun h => ?_).symm
    · simpa using hlow i hi
    · simpa using habove (by simpa using h)

/-- The line of an offset counts the line starts that do not exceed it, and the last of these is where
its columns start. -/
theorem position_ofChars (source : List Char) (offset : Nat) :
    (ofChars source).position offset =
      ⟨((startsFrom 0 source).takeWhile (· ≤ offset)).length,
        offset - ((startsFrom 0 source).takeWhile (· ≤ offset)).getLastD 0⟩ := by
  have hcount := @passedBetween_eq (ofChars source)
    (by simpa [ofChars] using pairwise_startsFrom 0 source) offset 0 (ofChars source).starts.size
    (Nat.zero_le _) (Nat.le_refl _) (fun _ h => absurd h (Nat.not_lt_zero _))
    (fun h => absurd h (Nat.lt_irrefl _))
  have hlist : (ofChars source).starts.toList = startsFrom 0 source := rfl
  rw [hlist] at hcount
  have hrun := List.takeWhile_prefix (l := startsFrom 0 source) (· ≤ offset)
  generalize (startsFrom 0 source).takeWhile (· ≤ offset) = passed at hcount hrun ⊢
  unfold position
  rw [hcount]
  cases hlength : passed.length with
  | zero => simp [List.length_eq_zero_iff.1 hlength]
  | succ line =>
    have hline : line < passed.length := by omega
    have hlast : passed.getLastD 0 = (startsFrom 0 source).getD line 0 := by
      rw [List.getLastD_eq_getLast?, List.getLast?_eq_getElem?, hlength, Nat.add_sub_cancel,
        List.getD_eq_getElem?_getD, List.prefix_iff_getElem?.1 hrun line hline,
        List.getElem?_eq_getElem hline]
    rw [hlast, ← hlist]
    simp

end LineMap

/-- The characters from a byte offset on; `none` inside a character or past the end. -/
def fromOffset? : Nat → List Char → Option (List Char)
  | 0, cs => some cs
  | _ + 1, [] => none
  | n + 1, c :: cs => if c.utf8Size ≤ n + 1 then fromOffset? (n + 1 - c.utf8Size) cs else none

/-- The leading characters that fit in a number of bytes. -/
def takeBytes : Nat → List Char → List Char
  | _, [] => []
  | n, c :: cs => if c.utf8Size ≤ n then c :: takeBytes (n - c.utf8Size) cs else []

/-- A source: its characters, with what is often asked about them. -/
structure Source where
  chars : List Char
  lines : LineMap
  /-- The length in bytes. -/
  size : Nat

namespace Source

def ofString (s : String) : Source :=
  let chars := s.toList
  ⟨chars, .ofChars chars, byteCount chars⟩

/-- The text that a span covers. -/
def slice (s : Source) (span : Span) : String :=
  String.ofList (takeBytes (span.stop - span.start) ((fromOffset? span.start s.chars).getD []))

/-- The location of the whole source. -/
def location (s : Source) : Location := s.lines.locate ⟨0, s.size⟩

end Source

end Fluent
