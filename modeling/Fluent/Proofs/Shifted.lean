import Fluent.Proofs.Moved
import Fluent.Proofs.Relocated

/-!
# Shifted trees

The tree of an entry that stands further on in a source is the same but for its locations.

* `Shift`: how far on, in bytes and in lines.
* `Location.shift d`, `Entry.shift d`: a location and an entry that stand `d` further on. A shift by nothing leaves
  them as they are.
* `Entry.withoutFound`: an entry but for what a fault found instead of what it expected.
-/

namespace Fluent

/-- How far on a text stands in another one, in bytes and in lines. Since it begins at a line start there, columns are
the same. -/
structure Shift where
  bytes : Nat
  lines : Nat
  deriving DecidableEq, Repr

/-- A line further down begins at the same column. -/
def Position.shift (d : Shift) (p : Position) : Position := ⟨p.line + d.lines, p.column⟩

def Location.shift (d : Shift) (l : Location) : Location :=
  ⟨l.span.move d.bytes, l.start.shift d, l.stop.shift d⟩

/-- The comment with its location shifted. -/
def Comment.shift (d : Shift) (c : Comment) : Comment := c.relocate (Location.shift d)

/-- The message with each location in its tree shifted. -/
def Message.shift (d : Shift) (m : Message) : Message := m.relocate (Location.shift d)

/-- The term with each location in its tree shifted. -/
def Term.shift (d : Shift) (t : Term) : Term := t.relocate (Location.shift d)

/-- The fault of a text that stands `k` bytes further on. -/
def Fault.move (k : Nat) : Fault → Fault
  | unexpected position expected found => unexpected (position + k) expected found
  | unfinishedLine span => unfinishedLine (span.move k)
  | unterminatedString span => unterminatedString (span.move k)
  | invalidEscape span raw => invalidEscape (span.move k) raw
  | duplicateId span id => duplicateId (span.move k) id

def Junk.shift (d : Shift) (j : Junk) : Junk := ⟨j.content, j.fault.move d.bytes, j.location.shift d⟩

/-- The entry of a text that stands `d` further on: every location in its tree is shifted, and the fault of junk is
moved with its text. -/
def Entry.shift (d : Shift) : Entry → Entry
  | message m => message (m.shift d)
  | term t => term (t.shift d)
  | comment c => comment (c.shift d)
  | junk j => junk (j.shift d)

/-- A fault but for what was found instead of what it expects. At the end of a text that depends on what follows. -/
def Fault.withoutFound : Fault → Fault
  | unexpected position expected _ => unexpected position expected .nothing
  | f => f

def Entry.withoutFound : Entry → Entry
  | junk j => junk { j with fault := j.fault.withoutFound }
  | e => e

/-! ## No shift -/

/-- A text that does not stand further on. -/
def Shift.zero : Shift := ⟨0, 0⟩

theorem Location.shift_zero (l : Location) : l.shift .zero = l := rfl

theorem Fault.move_zero (f : Fault) : f.move 0 = f := by
  cases f <;> rfl

/-- An entry that stands no further on is the same. -/
theorem Entry.shift_zero (e : Entry) : e.shift .zero = e := by
  cases e with
  | message m => exact (Entry.message m).relocate_eq_self Location.shift_zero
  | term t => exact (Entry.term t).relocate_eq_self Location.shift_zero
  | comment c => exact (Entry.comment c).relocate_eq_self Location.shift_zero
  | junk j =>
    rw [shift, Junk.shift, show Shift.zero.bytes = 0 from rfl, j.fault.move_zero]
    rfl

/-! ## Boxes around shifted locations -/

variable {d : Shift}

theorem Position.before_shift (p q : Position) : (p.shift d).before (q.shift d) = p.before q := by
  show (decide (p.line + d.lines < q.line + d.lines) ||
    (p.line + d.lines == q.line + d.lines && decide (p.column < q.column))) = _
  rw [Bool.eq_iff_iff]
  simp [before]

theorem Location.cover_shift (a b : Location) : (a.shift d).cover (b.shift d) = (a.cover b).shift d := by
  simp only [cover]
  rw [show (b.shift d).start.before (a.shift d).start = b.start.before a.start from Position.before_shift ..,
    show (a.shift d).stop.before (b.shift d).stop = a.stop.before b.stop from Position.before_shift ..]
  split <;> split <;> rfl

/-- The smallest location that covers shifted ones is shifted with them. -/
theorem Location.boundingBox?_shift (ls : List Location) :
    boundingBox? (ls.map (Location.shift d)) = (boundingBox? ls).map (Location.shift d) := by
  cases ls with
  | nil => rfl
  | cons l ls =>
    simp only [List.map_cons, boundingBox?, Option.map_some]
    congr 1
    induction ls generalizing l with
    | nil => rfl
    | cons m ls ih => rw [List.map_cons, List.foldl_cons, cover_shift, ih, List.foldl_cons]

end Fluent
