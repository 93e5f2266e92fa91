import Fluent.Proofs.Blocks
import Fluent.Proofs.Moved

/-!
# The blocks in front of a header

Where a header begins a line, a block ends. So the blocks of a text with a header behind it are those of the
text and those of the rest.

* `Block.move k`: a block of a text that stands `k` bytes further on.
* `move_block`: the block at a moved cursor.
* `blocks_append`: the blocks of a text and of a header behind it.
-/

namespace Fluent

/-- The block of a text that stands `k` bytes further on. -/
def Block.move (k : Nat) : Block → Block
  | blank span => blank (span.move k)
  | stray span => stray (span.move k)
  | comment lines close => comment (lines.map (Lexeme.move k)) (close.move k)
  | entry isTerm name start lexemes ending =>
    entry isTerm name (start + k) (lexemes.map (Lexeme.move k)) (ending.move k)

variable {k limit : Nat} {u : List Char} {c : Cursor}

theorem Lexeme.move_zero : Lexeme.move 0 = id := rfl

theorem Block.move_zero : Block.move 0 = id := by
  funext b
  cases b with
  | blank | stray => rfl
  | comment lines close => simp [move, Lexeme.move_zero]
  | entry isTerm name start lexemes ending => cases ending <;> simp [move, Lexeme.move_zero, Ending.move]

theorem Block.lexemes_move (b : Block) : (b.move k).lexemes = b.lexemes.map (Lexeme.move k) := by
  cases b with
  | comment lines close => simp [Block.move, Block.lexemes]
  | _ => rfl

theorem flatMap_lexemes_move (bs : List Block) :
    (bs.map (Block.move k)).flatMap Block.lexemes = (bs.flatMap Block.lexemes).map (Lexeme.move k) := by
  rw [List.flatMap_map, List.map_flatMap]
  exact List.flatMap_congr fun b _ => b.lexemes_move

/-! ## Comment lines -/

theorem commentLine_move (level : CommentLevel) (h : Ended u c.rest) :
    commentLine level (c.move k u) = (commentLine level c).move k := by
  have hhead : Line.head (c.move k u).rest = Line.head c.rest := h.head
  rw [commentLine, commentLine, hhead]
  simp only [Lexeme.move, Span.move, Cursor.move, Nat.add_right_comm]

theorem commentLines_of_ne_nil (level : CommentLevel) (h : c.rest ≠ []) :
    commentLines level c =
      if Line.commentLevel? c.rest = some level then
        (commentLine level c :: (commentLines level c.nextLine).1, (commentLines level c.nextLine).2)
      else ([], c) := by
  conv_lhs => rw [commentLines]
  split
  · contradiction
  · rfl

/-- Comment lines end at a header, as they end with the text. -/
theorem commentLines_move (level : CommentLevel) (hu : Headed u)
    (h : c.rest = [] ∨ Ended u c.rest) :
    commentLines level (c.move k u) =
      ((commentLines level c).1.map (Lexeme.move k), (commentLines level c).2.move k u) := by
  fun_induction commentLines level c with
  | case1 c hnil =>
    obtain ⟨offset, rest⟩ := c
    obtain rfl : rest = [] := hnil
    -- a header has no hash in front
    rcases hu with rfl | ⟨x, v, rfl, hx⟩
    · simp [commentLines, Cursor.move]
    · obtain ⟨-, hhash, -⟩ := opensHeader_spec hx
      have hnone : Line.commentLevel? (x :: v) ≠ some level := by
        simp [Line.commentLevel?, hhash, CommentLevel.ofHashes?]
      rw [commentLines_of_ne_nil level (by simp [Cursor.move])]
      exact if_neg hnone
  | case2 c _ _ hc hlevel lines stop heq ih =>
    have hended := h.resolve_left (by simp [hc])
    have hlevel' : Line.commentLevel? (c.move k u).rest = some level := hended.commentLevel?.trans hlevel
    rw [commentLines_of_ne_nil level (by simp [Cursor.move, hc]), if_pos hlevel', Cursor.move_nextLine hended,
      ih (Cursor.ended_nextLine hended), commentLine_move level hended, heq]
    rfl
  | case3 c _ _ hc hlevel =>
    have hended := h.resolve_left (by simp [hc])
    have hlevel' : Line.commentLevel? (c.move k u).rest ≠ some level :=
      fun heq => hlevel (hended.commentLevel?.symm.trans heq)
    rw [commentLines_of_ne_nil level (by simp [Cursor.move, hc]), if_neg hlevel']
    rfl

theorem ended_commentLines (level : CommentLevel) (h : c.rest = [] ∨ Ended u c.rest) :
    (commentLines level c).2.rest = [] ∨ Ended u (commentLines level c).2.rest := by
  fun_induction commentLines level c with
  | case1 c hnil => exact .inl hnil
  | case2 c _ _ hc _ lines stop heq ih =>
    rw [heq] at ih
    exact ih (Cursor.ended_nextLine (h.resolve_left (by simp [hc])))
  | case3 c => exact h

/-! ## Blocks -/

/-- **An entry is read alike from its header on**, or its reading leaves the text, or it is misled by a colon behind the
text. -/
theorem follows_ofHeader (limit : Nat) {isTerm : Bool} {a : Line.Assignment} (h : Ended u c.rest)
    (ha : Line.entryHeader? c.rest = some (isTerm, a)) :
    State.RunFollows k u ((State.ofHeader c isTerm a).run limit)
      ((State.ofHeader (c.move k u) isTerm (a.extend u)).run limit) := by
  -- the equals sign is read alike, and from there on the machine runs
  have hheader : ∃ s : State, Ended u s.cursor.rest ∧ s.frames = [] ∧ State.ofHeader c isTerm a = s.beginValue ∧
      State.ofHeader (c.move k u) isTerm (a.extend u) = (s.move k u).beginValue := by
    obtain ⟨rfl, rest, hrest, hassign⟩ | ⟨rfl, hassign⟩ := Line.entryHeader?_eq_some ha
    · have hn : '\n' ∉ (State.mk c [] []).cursor.rest.take 1 := by simp [hrest]
      have hminus := State.ended_emit (s := ⟨c, [], []⟩) (t := .minus) h hn
      have hname : Line.assignment? ((State.mk c [] []).emit .minus 1).cursor.rest = some a := by
        show Line.assignment? (c.rest.drop 1) = some a
        rw [hrest]
        exact hassign
      refine ⟨_, State.ended_emitAssignment hminus hname, rfl, rfl, ?_⟩
      have hmove := State.move_emit (k := k) (s := ⟨c, [], []⟩) (t := .minus) h hn
      rw [← State.move_emitAssignment hminus hname, ← hmove]
      rfl
    · refine ⟨_, State.ended_emitAssignment (s := ⟨c, [], []⟩) h hassign, rfl, rfl, ?_⟩
      rw [← State.move_emitAssignment (s := ⟨c, [], []⟩) h hassign]
      rfl
  obtain ⟨s, hended, hframes, hofHeader, hofHeader'⟩ := hheader
  have hprimed : s.beginValue.Primed := State.primed_beginValue (hframes ▸ fun _ hf => absurd hf List.not_mem_nil)
  rw [hofHeader, hofHeader']
  rcases State.move_beginValue (k := k) hended with hsame | henters
  · rw [hsame]
    exact State.follows_run limit hprimed (State.ended_beginValue hended)
  · exact .leaves (.inl henters.1) ((State.onward_run limit _).rest.trans henters.2)

/-- **The block at a moved cursor** is the moved block, and it does not run into the text behind. -/
theorem move_block (limit : Nat) (hu : Headed u)
    (h : Ended u c.rest) :
    block limit (c.move k u) = ((block limit c).1.move k, (block limit c).2.move k u) ∧
      ((block limit c).2.rest = [] ∨ Ended u (block limit c).2.rest) := by
  have hnext := Cursor.ended_nextLine h
  have hmove := Cursor.move_nextLine (k := k) h
  have hblank : Line.isBlank (c.move k u).rest = Line.isBlank c.rest := h.isBlank
  have hlevel : Line.commentLevel? (c.move k u).rest = Line.commentLevel? c.rest := h.commentLevel?
  have hheader : Line.entryHeader? (c.move k u).rest =
      (Line.entryHeader? c.rest).map fun a => (a.1, a.2.extend u) := h.entryHeader?
  unfold block
  rw [hblank, hlevel, hheader, hmove]
  simp only
  by_cases hb : Line.isBlank c.rest = true
  · rw [if_pos hb, if_pos hb, Cursor.move_skipBlankLines hu hnext]
    exact ⟨rfl, Cursor.ended_skipBlankLines hnext⟩
  rw [if_neg hb, if_neg hb]
  cases Line.commentLevel? c.rest with
  | some level =>
    simp only
    rw [commentLines_move level hu hnext, commentLine_move level h]
    refine ⟨?_, ended_commentLines level hnext⟩
    simp [Block.move, Lexeme.move, Span.move, Span.at, Cursor.move]
  | none =>
    cases ha : Line.entryHeader? c.rest with
    | none => exact ⟨rfl, hnext⟩
    | some b =>
      obtain ⟨isTerm, a⟩ := b
      obtain ⟨hrun, hend⟩ := (follows_ofHeader (k := k) limit h ha).moves_of_headed hu
      simp only [Option.map_some]
      rw [hrun]
      refine ⟨?_, Cursor.ended_nextLine hend⟩
      simp only [State.lexemes_move]
      rw [show ((((State.ofHeader c isTerm a).run limit).2).move k u).cursor =
        ((State.ofHeader c isTerm a).run limit).2.cursor.move k u from rfl, Cursor.move_nextLine hend]
      rfl

theorem blocksFrom_of_nil (h : c.rest = []) : blocksFrom limit c = [] := by
  rw [blocksFrom]
  split
  · rfl
  · rename_i hcons
    simp [h] at hcons

theorem blocksFrom_of_ne_nil (h : c.rest ≠ []) :
    blocksFrom limit c = (block limit c).1 :: blocksFrom limit (block limit c).2 := by
  conv_lhs => rw [blocksFrom]
  split
  · contradiction
  · rfl

/-- The blocks from a moved cursor on are the moved blocks, and then those of the text behind. -/
theorem blocksFrom_move (limit : Nat) (hu : Headed u)
    (h : c.rest = [] ∨ Ended u c.rest) :
    blocksFrom limit (c.move k u) =
      (blocksFrom limit c).map (Block.move k) ++ blocksFrom limit ⟨c.offset + byteCount c.rest + k, u⟩ := by
  fun_induction blocksFrom limit c with
  | case1 c hnil =>
    obtain ⟨offset, rest⟩ := c
    obtain rfl : rest = [] := hnil
    rfl
  | case2 c _ _ hc ih =>
    obtain ⟨hmoved, hended⟩ := move_block (k := k) limit hu (h.resolve_left (by simp [hc]))
    obtain ⟨t, ht⟩ := reads_block limit c
    have hover := ht.stretch
    have hoffset : (block limit c).2.offset + byteCount (block limit c).2.rest =
        c.offset + byteCount c.rest := by
      rw [hover.offset, hover.rest, byteCount_append, Nat.add_assoc]
    rw [blocksFrom_of_ne_nil (by simp [Cursor.move, hc]), hmoved, ih hended, hoffset]
    rfl

/-- **The blocks of a text and of a header behind it.** -/
theorem blocks_append {s u : List Char} (hs : s = [] ∨ s.getLast? = some '\n')
    (hu : ∃ x v, u = x :: v ∧ opensHeader x = true) :
    blocks limit (s ++ u) = blocks limit s ++ (blocks limit u).map (Block.move (byteCount s)) := by
  have hfirst := blocksFrom_move (k := 0) limit (c := .ofChars s) (.inr hu)
    (hs.imp_right .inr)
  have hsecond := blocksFrom_move (k := byteCount s) limit (c := .ofChars u) (.inl rfl) (.inr (.inl rfl))
  have hend : ∀ o : Nat, blocksFrom limit ⟨o, []⟩ = [] := fun o => blocksFrom_of_nil rfl
  have hstart : (⟨(Cursor.ofChars s).offset + byteCount s + 0, u⟩ : Cursor) =
      (Cursor.ofChars u).move (byteCount s) [] := by
    simp [Cursor.move, Cursor.ofChars]
  rw [Block.move_zero, List.map_id] at hfirst
  rw [hend, List.append_nil] at hsecond
  calc blocks limit (s ++ u) = blocksFrom limit ((Cursor.ofChars s).move 0 u) := rfl
    _ = blocks limit s ++ blocksFrom limit ((Cursor.ofChars u).move (byteCount s) []) := by
      rw [hfirst, ← hstart]
      rfl
    _ = blocks limit s ++ (blocks limit u).map (Block.move (byteCount s)) := by
      rw [hsecond]
      rfl

end Fluent
