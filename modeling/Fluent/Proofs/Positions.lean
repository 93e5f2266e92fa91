import Fluent.Proofs.Stretch

/-!
# Positions in reading order

A box around locations compares the positions of their ends but keeps their spans. This is sound because
positions come in the order of their offsets.

* `before_position`: one position is before another if its offset is.
* `cover_locate_eq`, `cover_locate`: the box around two locations, and around two in order.
-/

namespace Fluent

namespace LineMap

/-- The line starts up to an offset are among those up to a later one. -/
theorem passed_prefix (starts : List Nat) {a b : Nat} (h : a ≤ b) :
    starts.takeWhile (· ≤ a) <+: starts.takeWhile (· ≤ b) := by
  have hboth : (starts.takeWhile (· ≤ b)).takeWhile (· ≤ a) = starts.takeWhile (· ≤ a) := by
    rw [List.takeWhile_takeWhile]
    congr 1
    funext x
    simp only [decide_eq_decide]
    simp only [decide_eq_true_eq]
    omega
  rw [← hboth]
  exact List.takeWhile_prefix _

/-- The last line start up to an offset does not exceed it. -/
theorem getLastD_passed_le (starts : List Nat) (a : Nat) : (starts.takeWhile (· ≤ a)).getLastD 0 ≤ a := by
  rw [List.getLastD_eq_getLast?]
  cases hlast : (starts.takeWhile (· ≤ a)).getLast? with
  | none => exact Nat.zero_le a
  | some x => simpa using List.mem_takeWhile_imp (List.mem_of_getLast? hlast)

variable {source : List Char} {a b : Nat}

theorem before_position_of_lt (h : a < b) :
    ((ofChars source).position a).before ((ofChars source).position b) = true := by
  have hpassed := passed_prefix (startsFrom 0 source) (Nat.le_of_lt h)
  have hlast := getLastD_passed_le (startsFrom 0 source) a
  rw [position_ofChars, position_ofChars, Position.before]
  simp only [Bool.or_eq_true, Bool.and_eq_true, decide_eq_true_eq, beq_iff_eq]
  -- on one line the same line starts are passed, so the columns differ by the offsets
  rcases Nat.lt_or_eq_of_le hpassed.length_le with hline | hline
  · exact .inl hline
  · right
    refine ⟨hline, ?_⟩
    rw [← hpassed.eq_of_length hline]
    omega

/-- **Positions come in the order of their offsets.** -/
theorem before_position :
    ((ofChars source).position a).before ((ofChars source).position b) = true ↔ a < b := by
  refine ⟨?_, before_position_of_lt⟩
  intro hbefore
  rcases Nat.lt_trichotomy a b with hlt | rfl | hgt
  · exact hlt
  · simp [Position.before] at hbefore
  · have hafter : ((ofChars source).position b).before ((ofChars source).position a) = true :=
      before_position_of_lt hgt
    simp only [Position.before, Bool.or_eq_true, Bool.and_eq_true, decide_eq_true_eq, beq_iff_eq]
      at hbefore hafter
    omega

end LineMap

/-- **The box around two locations** reaches from the first start to the last end. -/
theorem cover_locate_eq (source : List Char) (a b : Span) :
    ((LineMap.ofChars source).locate a).cover ((LineMap.ofChars source).locate b) =
      (LineMap.ofChars source).locate ⟨min a.start b.start, max a.stop b.stop⟩ := by
  have hfirst : (if b.start < a.start then (b.start, (LineMap.ofChars source).position b.start)
      else (a.start, (LineMap.ofChars source).position a.start)) =
      (min a.start b.start, (LineMap.ofChars source).position (min a.start b.start)) := by
    split
    · rw [Nat.min_eq_right (by omega)]
    · rw [Nat.min_eq_left (by omega)]
  have hlast : (if a.stop < b.stop then (b.stop, (LineMap.ofChars source).position b.stop)
      else (a.stop, (LineMap.ofChars source).position a.stop)) =
      (max a.stop b.stop, (LineMap.ofChars source).position (max a.stop b.stop)) := by
    split
    · rw [Nat.max_eq_right (by omega)]
    · rw [Nat.max_eq_left (by omega)]
  unfold Location.cover LineMap.locate
  simp only [LineMap.before_position, hfirst, hlast]

/-- In order, it reaches from the start of the one to the end of the other. -/
theorem cover_locate (source : List Char) {a b : Span} (hstart : a.start ≤ b.start) (hstop : a.stop ≤ b.stop) :
    ((LineMap.ofChars source).locate a).cover ((LineMap.ofChars source).locate b) =
      (LineMap.ofChars source).locate ⟨a.start, b.stop⟩ := by
  rw [cover_locate_eq, Nat.min_eq_left hstart, Nat.max_eq_right hstop]

end Fluent
