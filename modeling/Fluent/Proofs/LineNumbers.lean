import Fluent.Proofs.Embedded
import Fluent.Proofs.Positions

/-!
# Lines by their numbers

A source has a line for every line feed and one more. Counted without what ends them, a last line without characters is
none.

* `LineMap.line_append`: the line of an offset counts the line feeds in front of it.
* `LineMap.line_succ`: from one offset to the next the line changes where a line starts, and only there.
* `LineMap.position_injective`: no two offsets have one position.
* `length_all`: how many lines are counted.
* `line_lt_length_all`: every offset in a source is on one of them; the end is, unless a line feed stands before it.
-/

namespace Fluent

namespace LineMap

variable {source : List Char} {a b : Nat}

/-- The line of an offset counts the line feeds in front of it. -/
theorem line_append (pre rest : List Char) :
    ((ofChars (pre ++ rest)).position (byteCount pre)).line = pre.count '\n' := by
  rw [position_append, length_startsFrom]

theorem line_le_of_le (h : a ≤ b) : ((ofChars source).position a).line ≤ ((ofChars source).position b).line := by
  have hpassed := passed_prefix (startsFrom 0 source) h
  rw [position_ofChars, position_ofChars]
  exact hpassed.length_le

/-- **No two offsets have one position.** -/
theorem position_injective (h : (ofChars source).position a = (ofChars source).position b) : a = b := by
  have hirrefl : ∀ p : Position, ¬ p.before p = true := fun p => by simp [Position.before]
  have hle : ¬ b < a := fun hlt => hirrefl _ (h ▸ before_position_of_lt hlt)
  have hge : ¬ a < b := fun hlt => hirrefl _ (h ▸ before_position_of_lt hlt)
  omega

/-- In ascending order one more number is passed at most. -/
theorem takeWhile_le_succ {xs : List Nat} (h : xs.Pairwise (· < ·)) (n : Nat) :
    xs.takeWhile (· ≤ n + 1) = xs.takeWhile (· ≤ n) ++ if n + 1 ∈ xs then [n + 1] else [] := by
  induction xs with
  | nil => simp
  | cons x xs ih =>
    obtain ⟨hx, hxs⟩ := List.pairwise_cons.1 h
    rcases Nat.lt_trichotomy x (n + 1) with hlt | rfl | hgt
    · have hmem : n + 1 ∈ x :: xs ↔ n + 1 ∈ xs := by simp [Nat.ne_of_gt hlt]
      rw [List.takeWhile_cons_of_pos (by simpa using Nat.le_of_lt hlt),
        List.takeWhile_cons_of_pos (by simpa using Nat.le_of_lt_succ hlt), ih hxs, if_congr hmem rfl rfl,
        List.cons_append]
    · have hnone : xs.takeWhile (· ≤ n + 1) = [] := by
        cases xs with
        | nil => rfl
        | cons y ys => exact List.takeWhile_cons_of_neg (by simpa using hx y List.mem_cons_self)
      rw [List.takeWhile_cons_of_pos (by simp), List.takeWhile_cons_of_neg (by simp), hnone,
        if_pos List.mem_cons_self, List.nil_append]
    · have hnone : n + 1 ∉ x :: xs := by
        intro hmem
        rcases List.mem_cons.1 hmem with rfl | hmem
        · exact Nat.lt_irrefl _ hgt
        · have := hx _ hmem
          omega
      rw [List.takeWhile_cons_of_neg (by simpa using hgt),
        List.takeWhile_cons_of_neg (by simpa using Nat.lt_of_succ_lt hgt), if_neg hnone, List.append_nil]

/-- **From one offset to the next** the line changes where a line starts, and only there. -/
theorem line_succ (source : List Char) (a : Nat) :
    ((ofChars source).position (a + 1)).line =
      ((ofChars source).position a).line + if ((ofChars source).position (a + 1)).column = 0 then 1 else 0 := by
  have hlast := getLastD_passed_le (startsFrom 0 source) a
  rw [position_ofChars, position_ofChars, takeWhile_le_succ (pairwise_startsFrom 0 source)]
  by_cases hmem : a + 1 ∈ startsFrom 0 source
  · simp [hmem]
  · simp only [hmem, if_false, List.append_nil]
    rw [if_neg (by omega)]
    rfl

end LineMap

/-! ## Counted lines -/

namespace Line

/-- The lines of a text: the first one, and those behind its line feed. -/
theorem all_of_tail {cs rest : List Char} (h : tail cs = '\n' :: rest) : all cs = dropReturn (head cs) :: all rest := by
  cases cs with
  | nil => cases h
  | cons c cs =>
    rw [all]
    split
    · rename_i hnil
      rw [hnil] at h
      cases h
    · rename_i htail
      rw [h] at htail
      rw [(List.cons.inj htail).2]

theorem all_of_tail_nil {c : Char} {cs : List Char} (h : tail (c :: cs) = []) : all (c :: cs) = [c :: cs] := by
  rw [all]
  split
  · rfl
  · rename_i htail
    rw [h] at htail
    cases htail

/-- Along the lines of a text. -/
theorem all_induction {motive : List Char → Prop} (nil : motive [])
    (last : ∀ c cs, tail (c :: cs) = [] → motive (c :: cs))
    (line : ∀ cs rest, tail cs = '\n' :: rest → motive rest → motive cs) (cs : List Char) : motive cs := by
  induction hlength : cs.length using Nat.strong_induction_on generalizing cs with
  | _ n ih =>
    subst hlength
    rcases tail_eq_nil_or cs with hnil | ⟨rest, htail⟩
    · cases cs with
      | nil => exact nil
      | cons c cs => exact last c cs hnil
    · refine line cs rest htail (ih rest.length ?_ rest rfl)
      have hlength := congrArg List.length (head_append_tail cs)
      rw [htail, List.length_append, List.length_cons] at hlength
      omega

/-- A line holds no line feed. -/
theorem newline_notMem_all (cs : List Char) : ∀ l ∈ all cs, '\n' ∉ l := by
  induction cs using all_induction with
  | nil => simp [all]
  | last c cs htail =>
    rw [all_of_tail_nil htail]
    have hhead := head_append_tail (c :: cs)
    rw [htail, List.append_nil] at hhead
    have hnone := newline_notMem_head (c :: cs)
    rw [hhead] at hnone
    simpa using hnone
  | line cs rest htail ih =>
    rw [all_of_tail htail]
    refine List.forall_mem_cons.2 ⟨?_, ih⟩
    obtain ⟨gap, -, hdrop⟩ := dropReturn_spec (head cs)
    have hnone := newline_notMem_head cs
    rw [← hdrop] at hnone
    exact fun hmem => hnone (List.mem_append_left _ hmem)

instance (t : List Char) : Decidable (AtLineStart t) := inferInstanceAs (Decidable (t = [] ∨ t.getLast? = some '\n'))

/-- **How many lines are counted**: one for every line feed, and one for what stands behind the last of them. -/
theorem length_all (cs : List Char) : (all cs).length = cs.count '\n' + if AtLineStart cs then 0 else 1 := by
  induction cs using all_induction with
  | nil => simp [all, AtLineStart]
  | last c cs htail =>
    have hhead := head_append_tail (c :: cs)
    rw [htail, List.append_nil] at hhead
    have hnone := newline_notMem_head (c :: cs)
    rw [hhead] at hnone
    have hline : ¬ AtLineStart (c :: cs) := by
      rintro (hnil | hlast)
      · cases hnil
      · exact hnone (List.mem_of_getLast? hlast)
    rw [all_of_tail_nil htail, List.count_eq_zero.2 hnone, if_neg hline]
    rfl
  | line cs rest htail ih =>
    have hsplit := head_append_tail cs
    have hnone := List.count_eq_zero.2 (newline_notMem_head cs)
    have hline : AtLineStart cs ↔ AtLineStart rest := by
      rw [← hsplit, htail, AtLineStart, AtLineStart, List.append_cons]
      cases rest with
      | nil => simp
      | cons x xs => simp [List.getLast?_cons]
    have hcount : cs.count '\n' = rest.count '\n' + 1 := by
      conv_lhs => rw [← hsplit, htail, List.count_append, hnone, List.count_cons_self]
      omega
    rw [all_of_tail htail, List.length_cons, ih, hcount, if_congr hline rfl rfl]
    omega

end Line

/-- **Every offset in a source is on a line** that is counted. So is the end, unless a line feed stands before it. -/
theorem line_lt_length_all {source : List Char} {a : Nat}
    (h : a < byteCount source ∨ ¬ AtLineStart source) :
    ((LineMap.ofChars source).position a).line < (Line.all source).length := by
  have hle := (List.takeWhile_prefix (l := LineMap.startsFrom 0 source) (· ≤ a)).length_le
  rw [LineMap.length_startsFrom] at hle
  rw [Line.length_all, LineMap.position_ofChars]
  simp only
  by_cases hline : AtLineStart source
  · have ha : a < byteCount source := h.resolve_right (not_not_intro hline)
    rcases hline with rfl | hlast
    · cases ha
    · -- the line behind the last line feed starts at the end
      obtain ⟨init, rfl⟩ := List.getLast?_eq_some_iff.1 hlast
      rw [byteCount_append] at ha
      have hpassed : (LineMap.startsFrom 0 (init ++ ['\n'])).takeWhile (· ≤ a) =
          (LineMap.startsFrom 0 init).takeWhile (· ≤ a) := by
        rw [LineMap.startsFrom_append, takeWhile_append_of_lt]
        intro y hy
        have hy : y = 0 + byteCount init + Char.utf8Size '\n' := by simpa [LineMap.startsFrom] using hy
        rw [hy, Nat.zero_add]
        exact ha
      have hinit := (List.takeWhile_prefix (l := LineMap.startsFrom 0 init) (· ≤ a)).length_le
      rw [LineMap.length_startsFrom] at hinit
      rw [hpassed, List.count_append, List.count_singleton_self]
      omega
  · rw [if_neg hline]
    omega

end Fluent
