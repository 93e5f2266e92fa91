import Fluent.Token.Frame

/-!
# Runs of the machine

* `State.below_step`: every step makes the state smaller, so `State.run` ends.
* `State.measure_run_le`: a run only moves forward.
* `State.lexemes`: the tokens of a state, those of open patterns included.
-/

namespace Fluent

namespace State

/-- The number of characters left. -/
def left (s : State) : Nat := s.cursor.rest.length

/-- A character left counts twice, since reading one opens at most one construct. -/
def measure (s : State) : Nat := 2 * s.left + s.frames.length

end State

/-- What a step leads to is smaller than `n` if the machine goes on, and no larger if it stops. -/
def Step.Below (n : Nat) : Step → Prop
  | .next s => s.measure < n
  | .stop _ s => s.measure ≤ n

theorem Step.below_of_le {m n : Nat} {s : Step} (h : s.Below m) (hmn : m ≤ n) : s.Below n := by
  cases s with
  | next => exact Nat.lt_of_lt_of_le h hmn
  | stop => exact Nat.le_trans h hmn

namespace State

@[simp] theorem length_rest_emit (s : State) (t : Token) (n : Nat) :
    (s.emit t n).cursor.rest.length = s.cursor.rest.length - n := by
  simp [emit]

@[simp] theorem frames_emit (s : State) (t : Token) (n : Nat) : (s.emit t n).frames = s.frames := rfl

@[simp] theorem cursor_mark (s : State) (t : Token) : (s.mark t).cursor = s.cursor := rfl

@[simp] theorem frames_mark (s : State) (t : Token) : (s.mark t).frames = s.frames := rfl

theorem cursor_markIf (s : State) (b : Bool) (t : Token) : (if b then s.mark t else s).cursor = s.cursor := by
  cases b <;> rfl

theorem frames_markIf (s : State) (b : Bool) (t : Token) : (if b then s.mark t else s).frames = s.frames := by
  cases b <;> rfl

theorem length_rest_finishLine_le (s : State) :
    s.finishLine.cursor.rest.length ≤ s.cursor.rest.length := by
  unfold finishLine
  split
  · exact Cursor.length_rest_lineEnd_le _
  · simp [emitUnfinished]

@[simp] theorem frames_finishLine (s : State) : s.finishLine.frames = s.frames := by
  unfold finishLine; split <;> rfl

theorem length_rest_emitAssignment_le (s : State) (a : Line.Assignment) :
    (s.emitAssignment a).cursor.rest.length ≤ s.cursor.rest.length := by
  simp only [emitAssignment, length_rest_emit, Cursor.length_rest_skip]
  omega

@[simp] theorem frames_emitAssignment (s : State) (a : Line.Assignment) :
    (s.emitAssignment a).frames = s.frames := rfl

/-- A value begins at or after its sign, and opens at most a pattern. -/
theorem measure_beginValue_le (s : State) : s.beginValue.measure ≤ s.measure + 1 := by
  have hspaces := Cursor.length_rest_skipWhile_le (· == ' ') s.cursor
  have hend := Cursor.length_rest_lineEnd_le (s.cursor.skipWhile (· == ' '))
  unfold beginValue
  simp only [measure, left]
  split
  · split
    · rename_i l hl
      have := Line.length_content_lt hl
      split <;> simp only [openPattern, mark, toLineEnd, Cursor.toContent, List.length_cons] <;> omega
    · simp only [mark, toLineEnd]; omega
  · simp only [openPattern, mark, List.length_cons]; omega

/-- The next attribute lies beyond a line break. -/
theorem below_betweenAttributes (s : State) : s.betweenAttributes.Below s.measure := by
  have hline := s.length_rest_finishLine_le
  have hframes := congrArg List.length s.frames_finishLine
  unfold betweenAttributes
  simp only
  split
  · rename_i l hl
    have hcontent := Line.length_content_lt hl
    split
    · split
      · rename_i a _
        have hvalue := measure_beginValue_le (({ s.finishLine with
          cursor := s.finishLine.cursor.toContent l }.emit .dot 1).emitAssignment a)
        have hassign := length_rest_emitAssignment_le ({ s.finishLine with
          cursor := s.finishLine.cursor.toContent l }.emit .dot 1) a
        simp only [Step.Below, measure, left, length_rest_emit, frames_emit, frames_emitAssignment,
          Cursor.toContent] at *
        omega
      · simp only [Step.Below, measure, left, emitUnfinished, length_rest_emit, frames_emit,
          Cursor.toContent]
        omega
    · simp only [Step.Below, measure, left]
      omega
  · simp only [Step.Below, measure, left]
    omega

theorem below_openPlaceable {limit : Nat} {s : State} (hs : s.cursor.rest ≠ []) :
    (s.openPlaceable limit).Below s.measure := by
  have := List.length_pos_iff.2 hs
  unfold openPlaceable
  split <;> simp only [Step.Below, measure, left, emitUnfinished, length_rest_emit, frames_emit,
    List.length_cons] <;> omega

theorem below_openArguments {limit : Nat} {s : State} (hs : s.cursor.rest ≠ []) :
    (s.openArguments limit).Below s.measure := by
  have := List.length_pos_iff.2 hs
  unfold openArguments
  split <;> simp only [Step.Below, measure, left, emitUnfinished, length_rest_emit, frames_emit,
    List.length_cons] <;> omega

theorem below_emitScanned (s : State) : s.emitScanned.Below s.measure := by
  unfold emitScanned
  split
  · exact Nat.le_refl _
  · rename_i hrest
    simp only [Step.Below, measure, left, length_rest_emit, frames_emit, hrest, List.length_cons]
    omega

/-- Text ends at a placeable, goes on beyond a line break, or closes its pattern. -/
theorem below_readText {limit : Nat} {s : State} {outer : List PatternItem} {breaks : Nat}
    {indent : Option Nat} {frames : List Frame} (hframes : s.frames.length = frames.length + 1) :
    (s.readText limit outer breaks indent frames).Below s.measure := by
  unfold readText
  simp only
  split
  · rename_i hrest
    have hpos := congrArg List.length hrest
    refine Step.below_of_le (below_openPlaceable (by simp [hrest])) ?_
    simp only [measure, left, Cursor.length_rest_skip, List.length_cons] at *
    omega
  · rename_i hrest
    split
    · rename_i l hl
      have hcontent := Line.length_content_lt hl
      split <;> simp only [Step.Below, measure, left, Cursor.toContent, closePattern, mark,
        Cursor.length_rest_skip, List.length_cons] at * <;> omega
    · simp only [Step.Below, measure, left, closePattern, mark, Cursor.length_rest_skip]
      omega
  · simp only [Step.Below, measure, left, closePattern, mark, Cursor.length_rest_skip]
    omega

theorem below_readPlaceable {limit : Nat} {s : State} {frames : List Frame}
    (hframes : s.frames.length = frames.length + 1) :
    (s.readPlaceable limit frames).Below s.measure := by
  unfold readPlaceable
  split
  · rename_i hrest
    simp only [Step.Below, measure, left, length_rest_emit, hrest, List.length_cons]
    omega
  · rename_i hrest
    exact below_openPlaceable (by simp [hrest])
  · rename_i hrest
    exact below_openArguments (by simp [hrest])
  · rename_i hrest
    simp only [Step.Below, measure, left, length_rest_emit, hrest, List.length_cons]
    omega
  · exact below_emitScanned s

theorem below_readArguments {limit : Nat} {s : State} {positional atStart : Bool}
    {frames : List Frame} (hframes : s.frames.length = frames.length + 1) :
    (s.readArguments limit positional atStart frames).Below s.measure := by
  unfold readArguments
  split
  · exact Nat.le_refl _
  · rename_i hrest
    simp only [Step.Below, measure, left, length_rest_emit, cursor_markIf, hrest, List.length_cons]
    omega
  · rename_i hrest
    refine Step.below_of_le (below_openPlaceable (by simp [hrest])) ?_
    simp only [measure, left, List.length_cons]
    omega
  · rename_i hrest
    refine Step.below_of_le (below_openArguments (by simp [hrest])) ?_
    simp only [measure, left, List.length_cons]
    omega
  · rename_i hrest
    simp only [Step.Below, measure, left, length_rest_emit, cursor_markIf, hrest, List.length_cons]
    omega

theorem below_readVariants {s : State} {frames : List Frame}
    (hframes : s.frames.length = frames.length + 1) : (s.readVariants frames).Below s.measure := by
  unfold readVariants
  split
  · rename_i hrest
    simp only [Step.Below, measure, left, length_rest_emit, hrest, List.length_cons]
    omega
  · rename_i hrest
    simp only [Step.Below, measure, left, length_rest_emit, hrest, List.length_cons]
    omega
  · exact below_emitScanned s

theorem below_readKey {s : State} {read : Bool} {frames : List Frame}
    (hframes : s.frames.length = frames.length + 1) : (s.readKey read frames).Below s.measure := by
  unfold readKey
  split
  · rename_i hrest
    have := measure_beginValue_le { s.emit .closeBracket 1 with frames := frames }
    simp only [Step.Below, measure, left, length_rest_emit, hrest, List.length_cons] at *
    omega
  · split
    · simp only [Step.Below, measure, left]
      omega
    · refine Step.below_of_le (below_emitScanned _) ?_
      simp only [measure, left, List.length_cons]
      omega

theorem below_onContent {s : State} {read : State → Step}
    (h : ∀ c : Cursor, (read { s with cursor := c }).Below { s with cursor := c }.measure) :
    (s.onContent read).Below s.measure := by
  unfold onContent
  split
  · exact Nat.le_refl _
  · rename_i c hc
    have := Cursor.length_rest_skipBlank_le hc
    refine Step.below_of_le (h c) ?_
    simp only [measure, left]
    omega

/-- Every step makes a state smaller, or stops at one that is no larger. -/
theorem below_step (limit : Nat) (s : State) : (s.step limit).Below s.measure := by
  unfold step
  split
  · exact below_betweenAttributes s
  all_goals rename_i hframes; replace hframes := congrArg List.length hframes
  · exact below_readText hframes
  · exact below_onContent fun _ => below_readPlaceable hframes
  · exact below_onContent fun _ => below_readArguments hframes
  · exact below_onContent fun _ => below_readVariants hframes
  · exact below_onContent fun _ => below_readKey hframes

/-- Reads an entry to its end. -/
def run (limit : Nat) (s : State) : Ending × State :=
  match _h : s.step limit with
  | .next t => t.run limit
  | .stop e t => (e, t)
termination_by s.measure
decreasing_by
  have := s.below_step limit
  rwa [_h] at this

/-- A run ends at a state no larger than it began. -/
theorem measure_run_le (limit : Nat) (s : State) : (s.run limit).2.measure ≤ s.measure := by
  fun_induction run limit s with
  | case1 s t h ih =>
    have := s.below_step limit
    rw [h] at this
    exact Nat.le_of_lt (Nat.lt_of_le_of_lt ih this)
  | case2 s e t h =>
    have := s.below_step limit
    rwa [h] at this

/-- The items of a state as tokens, the constructs still open included; the latest comes first. -/
def unwind : List Frame → List PatternItem → List Lexeme
  | [], items => dedent items
  | .pattern outer _ _ :: frames, items =>
    unwind frames ((dedent items).map PatternItem.lexeme ++ outer)
  | _ :: frames, items => unwind frames items

/-- The tokens read so far. -/
def lexemes (s : State) : List Lexeme := (unwind s.frames s.items).reverse

end State

end Fluent
