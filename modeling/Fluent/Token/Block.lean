import Fluent.Log
import Fluent.Token.Run

/-!
# Blocks

Between entries a source is read line by line. A *block* is what one line start leads to: a run of
blank lines, a run of comment lines of one level, an entry with all its lines, or a stray line. Each
block ends at a later line start or at the end of the source.

* `blocks`: the blocks of a source.
* `tokenize`: its tokens, block after block.
-/

namespace Fluent

inductive Block where
  | blank (span : Span)
  /-- A line that opens neither a comment nor an entry. -/
  | stray (span : Span)
  /-- Comment lines of one level, and the marker that ends them. -/
  | comment (lines : List Lexeme) (close : Lexeme)
  /-- An entry: what it is called, where it starts, its tokens, and how its reading ended. -/
  | entry (isTerm : Bool) (name : String) (start : Nat) (lexemes : List Lexeme) (ending : Ending)
  deriving Repr

namespace Block

def lexemes : Block → List Lexeme
  | blank span => [⟨.blankLines, span⟩]
  | stray span => [⟨.unfinishedLine, span⟩]
  | comment lines close => lines ++ [close]
  | entry _ _ _ lexemes _ => lexemes

end Block

/-- One comment line, without a carriage return before its end. -/
def commentLine (level : CommentLevel) (c : Cursor) : Lexeme :=
  let text := Line.dropReturn ((Line.head c.rest).drop level.hashes)
  ⟨.comment level (String.ofList (text.drop 1)),
    ⟨c.offset, c.offset + level.hashes + byteCount text⟩⟩

/-- The comment lines of one level from a line start on, and where they end. -/
def commentLines (level : CommentLevel) (c : Cursor) : List Lexeme × Cursor :=
  match _h : c.rest with
  | [] => ([], c)
  | _ :: _ =>
    if Line.commentLevel? c.rest = some level then
      let (lines, stop) := commentLines level c.nextLine
      (commentLine level c :: lines, stop)
    else ([], c)
termination_by c.rest.length
decreasing_by exact c.length_rest_nextLine_lt (by simp [_h])

theorem length_rest_commentLines_le (level : CommentLevel) (c : Cursor) :
    (commentLines level c).2.rest.length ≤ c.rest.length := by
  fun_induction commentLines level c with
  | case1 => exact Nat.le_refl _
  | case2 c _ _ _ _ lines stop h ih =>
    have := c.length_rest_nextLine_le
    rw [h] at ih
    exact Nat.le_trans ih this
  | case3 => exact Nat.le_refl _

/-- The state after the header of an entry. -/
def State.ofHeader (c : Cursor) (isTerm : Bool) (a : Line.Assignment) : State :=
  let s : State := ⟨c, [], []⟩
  ((if isTerm then s.emit .minus 1 else s).emitAssignment a).beginValue

/-- The block at a line start, and where it ends. -/
def block (limit : Nat) (c : Cursor) : Block × Cursor :=
  let stray := (Block.stray ⟨c.offset, c.nextLine.offset⟩, c.nextLine)
  if Line.isBlank c.rest then
    let stop := c.nextLine.skipBlankLines
    (.blank ⟨c.offset, stop.offset⟩, stop)
  else
    match Line.commentLevel? c.rest with
    | some level =>
      let (lines, stop) := commentLines level c.nextLine
      (.comment (commentLine level c :: lines) ⟨.closeComment, .at stop.offset⟩, stop)
    | none =>
      match Line.entryHeader? c.rest with
      | some (isTerm, a) =>
        let (ending, s) := (State.ofHeader c isTerm a).run limit
        (.entry isTerm (String.ofList a.name) c.offset s.lexemes ending, s.cursor.nextLine)
      | none => stray

/-- An entry is read from its header on, never back. -/
theorem length_rest_run_ofHeader_le (limit : Nat) (c : Cursor) (isTerm : Bool) (a : Line.Assignment) :
    ((State.ofHeader c isTerm a).run limit).2.cursor.rest.length ≤ c.rest.length := by
  have hrun := State.measure_run_le limit (State.ofHeader c isTerm a)
  have hvalue := State.measure_beginValue_le
    ((if isTerm then (⟨c, [], []⟩ : State).emit .minus 1 else ⟨c, [], []⟩).emitAssignment a)
  have hassign := State.length_rest_emitAssignment_le
    (if isTerm then (⟨c, [], []⟩ : State).emit .minus 1 else ⟨c, [], []⟩) a
  unfold State.ofHeader at *
  simp only [State.measure, State.left, State.frames_emitAssignment] at *
  split at hassign <;> simp_all only [State.length_rest_emit, State.frames_emit, List.length_nil,
    if_true, if_false, Bool.false_eq_true] <;> omega

/-- What the block at a line start can be, and where it ends. -/
inductive BlockReads (limit : Nat) (c : Cursor) : Block → Cursor → Prop
  | blank : Line.isBlank c.rest = true →
      BlockReads limit c (.blank ⟨c.offset, c.nextLine.skipBlankLines.offset⟩) c.nextLine.skipBlankLines
  | comment {level : CommentLevel} : Line.isBlank c.rest = false → Line.commentLevel? c.rest = some level →
      BlockReads limit c
        (.comment (commentLine level c :: (commentLines level c.nextLine).1)
          ⟨.closeComment, .at (commentLines level c.nextLine).2.offset⟩)
        (commentLines level c.nextLine).2
  | entry {isTerm : Bool} {a : Line.Assignment} : Line.isBlank c.rest = false → Line.commentLevel? c.rest = none →
      Line.entryHeader? c.rest = some (isTerm, a) →
      BlockReads limit c
        (.entry isTerm (String.ofList a.name) c.offset ((State.ofHeader c isTerm a).run limit).2.lexemes
          ((State.ofHeader c isTerm a).run limit).1)
        ((State.ofHeader c isTerm a).run limit).2.cursor.nextLine
  | stray : Line.isBlank c.rest = false → Line.commentLevel? c.rest = none → Line.entryHeader? c.rest = none →
      BlockReads limit c (.stray ⟨c.offset, c.nextLine.offset⟩) c.nextLine

theorem blockReads (limit : Nat) (c : Cursor) : BlockReads limit c (block limit c).1 (block limit c).2 := by
  unfold block
  simp only
  split
  · rename_i hblank
    exact .blank hblank
  rename_i hblank
  rw [Bool.not_eq_true] at hblank
  split
  · rename_i hlevel
    exact .comment hblank hlevel
  rename_i hlevel
  split
  · rename_i ha
    exact .entry hblank hlevel ha
  · rename_i ha
    exact .stray hblank hlevel ha

/-- Every block takes at least its line. -/
theorem length_rest_block_lt (limit : Nat) (c : Cursor) (hc : c.rest ≠ []) :
    (block limit c).2.rest.length < c.rest.length := by
  have hnext := c.length_rest_nextLine_lt hc
  have hreads := blockReads limit c
  generalize (block limit c).1 = b, (block limit c).2 = d at hreads ⊢
  cases hreads with
  | blank => exact Nat.lt_of_le_of_lt (Cursor.length_rest_skipBlankLines_le _) hnext
  | comment => exact Nat.lt_of_le_of_lt (length_rest_commentLines_le _ _) hnext
  | @entry isTerm a =>
    have hrun := length_rest_run_ofHeader_le limit c isTerm a
    have hpos := List.length_pos_iff.2 hc
    have hline := ((State.ofHeader c isTerm a).run limit).2.cursor.length_rest_lineEnd_le
    simp only [Cursor.nextLine, Cursor.length_rest_skip]
    omega
  | stray => exact hnext

/-- The blocks from a line start on. -/
def blocksFrom (limit : Nat) (c : Cursor) : List Block :=
  match _h : c.rest with
  | [] => []
  | _ :: _ => (block limit c).1 :: blocksFrom limit (block limit c).2
termination_by c.rest.length
decreasing_by exact length_rest_block_lt limit c (by simp [_h])

/-- The blocks of a source whose placeables and argument lists nest at most `limit` deep. -/
def blocks (limit : Nat) (source : List Char) : List Block := blocksFrom limit (.ofChars source)

/-- The tokens of a source. -/
def tokenize (limit : Nat) (source : List Char) : List Lexeme :=
  (blocks limit source).flatMap Block.lexemes

/-- The nesting that is allowed where nothing else is asked for. -/
def defaultNesting : Nat := 100

namespace Block

/-- What the reading of a block leaves in the log. -/
def records (limit : Nat) : Block → List LogRecord
  | blank _ | comment .. => []
  | stray span => [⟨.trace, .tokens, s!"unfinished line at {span.start}"⟩]
  | entry isTerm name start _ ending =>
    let opened : LogRecord :=
      ⟨.trace, .tokens, "entry `" ++ (if isTerm then "-" else "") ++ name ++ s!"` at {start}"⟩
    let broken : LogRecord := ⟨.trace, .tokens, s!"entry at {start} ended before its syntax was complete"⟩
    match ending with
    | .complete => [opened]
    | .cutShort => [opened, broken]
    | .tooDeep offset =>
      [opened, ⟨.debug, .tokens, s!"placeables nested deeper than {limit} at byte {offset}"⟩, broken]

end Block

/-- What the reading of a source into tokens leaves in the log. -/
def tokenRecords (limit : Nat) (source : List Char) : List LogRecord :=
  let parts := blocks limit source
  let count := (parts.flatMap Block.lexemes).length
  ⟨.debug, .tokens, s!"tokenizing {byteCount source} bytes"⟩
    :: parts.flatMap (Block.records limit)
    ++ [⟨.debug, .tokens, s!"produced {count} tokens"⟩]

end Fluent
