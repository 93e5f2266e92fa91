import Fluent.Proofs.Checked.Access
import Fluent.Proofs.LineNumbers

/-!
# Offsets and positions

An offset counts bytes. Its line counts the line feeds among the bytes in front of it, and its column is the distance
from the byte behind the last of these. Since no other character has the byte of a line feed, it makes no difference
that the lines of a source are found by its characters.

Positions come in the order of their offsets. So a box around any locations reaches from the smallest of their starts to
the largest of their ends, although it compares positions and keeps spans.

* `byteStarts`: where lines start, by bytes; `startsFrom_eq_byteStarts` says that these are the line starts of a source.
* `LineBegins bs offset start`: the line of an offset starts at `start`.
* `position_utf8`: the position of an offset, by bytes.
* `boundingBox?_locate`: the box around locations.
* `offsets_and_positions`: **offsets and positions correspond**.
-/

namespace Fluent

/-! ## Line feeds as bytes -/

/-- The byte of a line feed. -/
def lineFeed : UInt8 := 10

/-- A line feed is one byte, and no other character has it. -/
theorem lineFeed_mem_utf8EncodeChar {c : Char} : lineFeed ∈ String.utf8EncodeChar c ↔ c = '\n' := by
  have hlt : c.val.toNat < 1114112 := by
    rcases c.valid with hvalid | hvalid <;> omega
  have hchar : c = '\n' ↔ c.val.toNat = 10 :=
    ⟨fun h => by rw [h]; rfl, fun h => Char.ext (UInt32.toNat_inj.1 h)⟩
  rw [hchar]
  unfold String.utf8EncodeChar lineFeed
  simp only
  split
  · simp only [List.mem_singleton, ← UInt8.toNat_inj, UInt8.toNat_ofNat', UInt8.reduceToNat]
    omega
  -- the bytes of a longer character are all beyond the ASCII alphabet
  split
  on_goal 2 => split
  all_goals
    simp only [List.mem_cons, List.not_mem_nil, or_false, ← UInt8.toNat_inj, UInt8.toNat_ofNat', UInt8.reduceToNat]
    omega

/-- Where the lines of some bytes from an offset on start, the first line apart. -/
def byteStarts (offset : Nat) : List UInt8 → List Nat
  | [] => []
  | b :: bs => if b = lineFeed then (offset + 1) :: byteStarts (offset + 1) bs else byteStarts (offset + 1) bs

theorem byteStarts_append (offset : Nat) (as bs : List UInt8) :
    byteStarts offset (as ++ bs) = byteStarts offset as ++ byteStarts (offset + as.length) bs := by
  induction as generalizing offset with
  | nil => rfl
  | cons a as ih =>
    have hsum : offset + (a :: as).length = offset + 1 + as.length := by rw [List.length_cons]; omega
    rw [List.cons_append, byteStarts, byteStarts, ih, hsum]
    split <;> rfl

theorem byteStarts_of_notMem {offset : Nat} {bs : List UInt8} (h : lineFeed ∉ bs) : byteStarts offset bs = [] := by
  induction bs generalizing offset with
  | nil => rfl
  | cons b bs ih =>
    rw [List.mem_cons, not_or] at h
    rw [byteStarts, if_neg (Ne.symm h.1), ih h.2]

/-- **The line starts of a source** are those of its bytes. -/
theorem startsFrom_eq_byteStarts (offset : Nat) (cs : List Char) :
    LineMap.startsFrom offset cs = byteStarts offset (utf8 cs) := by
  induction cs generalizing offset with
  | nil => rfl
  | cons c cs ih =>
    rw [utf8, List.flatMap_cons, ← utf8, byteStarts_append, String.length_utf8EncodeChar, LineMap.startsFrom, ih]
    split
    · rename_i hfeed
      rw [hfeed]
      rfl
    · rename_i hother
      rw [byteStarts_of_notMem (mt lineFeed_mem_utf8EncodeChar.1 hother), List.nil_append]

/-- There is a line start for each line feed. -/
theorem length_byteStarts (offset : Nat) (bs : List UInt8) : (byteStarts offset bs).length = bs.count lineFeed := by
  induction bs generalizing offset with
  | nil => rfl
  | cons b bs ih =>
    rw [byteStarts, List.count_cons]
    split
    · rename_i hfeed
      rw [List.length_cons, ih, hfeed, if_pos (beq_self_eq_true lineFeed)]
    · rename_i hother
      rw [ih, if_neg (by simpa using hother), Nat.add_zero]

theorem lt_of_mem_byteStarts {offset x : Nat} {bs : List UInt8} (h : x ∈ byteStarts offset bs) : offset < x := by
  induction bs generalizing offset with
  | nil => cases h
  | cons b bs ih =>
    rw [byteStarts] at h
    split at h
    · rcases List.mem_cons.1 h with rfl | h
      · exact Nat.lt_succ_self _
      · exact Nat.lt_of_succ_lt (ih h)
    · exact Nat.lt_of_succ_lt (ih h)

/-- The line starts up to an offset are those of the bytes in front of it. -/
theorem takeWhile_byteStarts (offset n : Nat) (bs : List UInt8) :
    (byteStarts offset bs).takeWhile (· ≤ offset + n) = byteStarts offset (bs.take n) := by
  induction n generalizing offset bs with
  | zero =>
    rw [List.take_zero, byteStarts]
    cases hstarts : byteStarts offset bs with
    | nil => rfl
    | cons x xs =>
      have hx := lt_of_mem_byteStarts (hstarts ▸ List.mem_cons_self)
      exact List.takeWhile_cons_of_neg (by simpa using hx)
  | succ n ih =>
    cases bs with
    | nil => rfl
    | cons b bs =>
      have hsum : offset + (n + 1) = offset + 1 + n := by omega
      rw [List.take_succ_cons, byteStarts, byteStarts, ← ih, hsum]
      split
      · exact List.takeWhile_cons_of_pos (by simp)
      · rfl

/-! ## The line of an offset -/

/-- The line of an offset starts at `start`: at the beginning or behind a line feed, and no line feed stands between
there and the offset. -/
structure LineBegins (bs : List UInt8) (offset start : Nat) : Prop where
  le : start ≤ offset
  behind : 0 < start → bs[start - 1]? = some lineFeed
  last : ∀ i, start ≤ i → i < offset → bs[i]? ≠ some lineFeed

/-- The last line of some bytes. -/
theorem lineBegins_length (bs : List UInt8) : LineBegins bs bs.length ((byteStarts 0 bs).getLastD 0) := by
  induction bs using List.reverseRecOn with
  | nil => exact ⟨Nat.le_refl 0, fun h => absurd h (Nat.lt_irrefl 0), fun i _ hi => absurd hi (Nat.not_lt_zero i)⟩
  | append_singleton bs b ih =>
    rw [byteStarts_append, Nat.zero_add, byteStarts, List.length_append, List.length_singleton]
    split
    · rename_i hfeed
      rw [byteStarts, List.getLastD_concat]
      exact ⟨Nat.le_refl _, fun _ => by simp [hfeed], fun i hi hlt => absurd hlt (by omega)⟩
    · rename_i hother
      rw [byteStarts, List.append_nil]
      generalize (byteStarts 0 bs).getLastD 0 = start at ih ⊢
      refine ⟨Nat.le_succ_of_le ih.le, ?_, ?_⟩
      · intro hpos
        rw [List.getElem?_append_left (Nat.sub_one_lt_of_le hpos ih.le)]
        exact ih.behind hpos
      · intro i hi hlt
        rcases Nat.lt_or_eq_of_le (Nat.le_of_lt_succ hlt) with hlt | rfl
        · rw [List.getElem?_append_left hlt]
          exact ih.last i hi hlt
        · simpa using hother

/-- The line of any offset, beyond the last byte as well. -/
theorem lineBegins_take (bs : List UInt8) (offset : Nat) :
    LineBegins bs offset ((byteStarts 0 (bs.take offset)).getLastD 0) := by
  have htake := lineBegins_length (bs.take offset)
  rw [List.length_take] at htake
  generalize (byteStarts 0 (bs.take offset)).getLastD 0 = start at htake ⊢
  refine ⟨Nat.le_trans htake.le (Nat.min_le_left _ _), ?_, ?_⟩
  · intro hpos
    have hfeed := htake.behind hpos
    have hle := htake.le
    rwa [List.getElem?_take_of_lt (by omega)] at hfeed
  · intro i hi hlt
    rcases Nat.lt_or_ge i bs.length with hin | hout
    · have hnone := htake.last i hi (by omega)
      rwa [List.getElem?_take_of_lt hlt] at hnone
    · simp [List.getElem?_eq_none hout]

/-- **The position of an offset** by the bytes in front of it. -/
theorem position_utf8 (source : List Char) (offset : Nat) : ∃ start, LineBegins (utf8 source) offset start ∧
    (LineMap.ofChars source).position offset = ⟨((utf8 source).take offset).count lineFeed, offset - start⟩ := by
  refine ⟨_, lineBegins_take (utf8 source) offset, ?_⟩
  have hpassed := takeWhile_byteStarts 0 offset (utf8 source)
  rw [Nat.zero_add] at hpassed
  rw [LineMap.position_ofChars, startsFrom_eq_byteStarts, hpassed, length_byteStarts]

/-! ## Boxes -/

/-- The box around a location and further ones. -/
theorem foldl_cover_locate (source : List Char) (span : Span) (spans : List Span) :
    (spans.map (LineMap.ofChars source).locate).foldl Location.cover ((LineMap.ofChars source).locate span) =
      (LineMap.ofChars source).locate
        ⟨(spans.map Span.start).foldl min span.start, (spans.map Span.stop).foldl max span.stop⟩ := by
  induction spans generalizing span with
  | nil => rfl
  | cons next spans ih =>
    rw [List.map_cons, List.foldl_cons, cover_locate_eq, ih]
    rfl

/-- **The box around some locations** reaches from the smallest start to the largest end. -/
theorem boundingBox?_locate (source : List Char) (span : Span) (spans : List Span) : ∃ first last,
    ((span :: spans).map Span.start).min? = some first ∧ ((span :: spans).map Span.stop).max? = some last ∧
      Location.boundingBox? ((span :: spans).map (LineMap.ofChars source).locate) =
        some ((LineMap.ofChars source).locate ⟨first, last⟩) :=
  ⟨_, _, List.min?_cons', List.max?_cons', congrArg some (foldl_cover_locate source span spans)⟩

/-! ## Offsets and positions -/

theorem utf8_toList (source : String) : utf8 source.toList = source.toByteArray.data.toList := by
  rw [← String.utf8Encode_toList, List.utf8Encode, List.toList_data_toByteArray, utf8]

/-- **Offsets and positions correspond.** The line of any offset is the number of line feeds among the bytes in front of
it, and its column the distance from the byte behind the last of them. No two offsets have one position, and positions
come in the order of their offsets. The box around the locations of any spans is the location from the smallest of
their starts to the largest of their ends. -/
theorem offsets_and_positions (source : String) :
    (∀ offset, ∃ start, LineBegins source.toByteArray.data.toList offset start ∧
      (LineMap.ofChars source.toList).position offset =
        ⟨(source.toByteArray.data.toList.take offset).count lineFeed, offset - start⟩) ∧
    Function.Injective (LineMap.ofChars source.toList).position ∧
    (∀ a b, ((LineMap.ofChars source.toList).position a).before ((LineMap.ofChars source.toList).position b) = true ↔
      a < b) ∧
    ∀ (span : Span) (spans : List Span), ∃ first last,
      ((span :: spans).map Span.start).min? = some first ∧ ((span :: spans).map Span.stop).max? = some last ∧
        Location.boundingBox? ((span :: spans).map (LineMap.ofChars source.toList).locate) =
          some ((LineMap.ofChars source.toList).locate ⟨first, last⟩) := by
  refine ⟨?_, ?_, ?_, boundingBox?_locate source.toList⟩
  · intro offset
    rw [← utf8_toList]
    exact position_utf8 source.toList offset
  · intro a b h
    exact LineMap.position_injective h
  · intro a b
    exact LineMap.before_position

end Fluent
