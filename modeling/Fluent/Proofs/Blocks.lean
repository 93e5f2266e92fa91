import Fluent.Proofs.Machine
import Fluent.Resource

/-!
# The tokens of a source

Block after block, the tokens of a source account for all of it.

* `reads_block`: the tokens of a block account for its lines.
* `reads_tokenize`: the tokens of a source account for the source.
* `tokenize_faithful`: the spans of the tokens are in order, each token is spelled by the text at its span,
  and what no token lies over is layout.
-/

namespace Fluent

/-- No condition on where a token stands. Within an entry more is known (`Inner`), but comments and lines that belong
nowhere may begin at any line start. -/
def Anywhere (_ : List Char) (_ : Token) : Prop := True

/-! ## Comment lines -/

theorem CommentLevel.hashes_of_ofHashes {n : Nat} {level : CommentLevel} (h : ofHashes? n = some level) :
    level.hashes = n := by
  unfold ofHashes? at h
  split at h <;> first | (obtain rfl := Option.some.inj h; rfl) | simp at h

theorem CommentLevel.length_sigil (level : CommentLevel) : level.sigil.toList.length = level.hashes := by
  cases level <;> decide

theorem CommentLevel.byteCount_sigil (level : CommentLevel) : byteCount level.sigil.toList = level.hashes := by
  cases level <;> decide

namespace Line

/-- Behind its hashes, a comment line is empty or goes on with a space. -/
theorem commentLevel?_eq_some {cs : List Char} {level : CommentLevel} (h : commentLevel? cs = some level) :
    ∃ text, head cs = level.sigil.toList ++ text ∧
      (dropReturn text = [] ∨ ∃ content, dropReturn text = ' ' :: content) := by
  have hsplit := List.takeWhile_append_dropWhile (p := (· == '#')) (l := cs)
  have hrun := takeWhile_beq '#' cs
  have hsigil : ∀ l, CommentLevel.ofHashes? (cs.takeWhile (· == '#')).length = some l →
      l.sigil.toList = cs.takeWhile (· == '#') := by
    intro l hl
    rw [CommentLevel.sigil, String.toList_ofList, CommentLevel.hashes_of_ofHashes hl, ← hrun]
  have hhead : head cs = cs.takeWhile (· == '#') ++ head (cs.dropWhile (· == '#')) := by
    conv_lhs => rw [← hsplit, head]
    refine List.takeWhile_append_of_pos ?_
    intro x hx
    have : x = '#' := by simpa using List.mem_takeWhile_imp hx
    rw [this]
    rfl
  refine ⟨head (cs.dropWhile (· == '#')), ?_, ?_⟩
  · unfold commentLevel? at h
    split at h
    all_goals first | (obtain rfl := Option.some.inj h; rw [hhead, hsigil]; assumption) | simp at h
  · unfold commentLevel? at h
    split at h
    · rename_i hrest
      exact .inl (by rw [hrest]; rfl)
    · rename_i rest _ hrest
      refine .inr ⟨(dropReturn (' ' :: head rest)).tail, ?_⟩
      rw [hrest, show head (' ' :: rest) = ' ' :: head rest by simp [head]]
      unfold dropReturn
      split
      · cases hcs : head rest with
        | nil =>
          rename_i hlast
          simp [hcs] at hlast
        | cons x xs => simp
      · rfl
    · rename_i hrest
      exact .inl (by rw [hrest]; rfl)
    · rename_i hrest
      exact .inl (by rw [hrest]; rfl)
    · simp at h

end Line

/-- The token of a comment line lies over its hashes and what stands behind them, up to a carriage return at the end of
the line. -/
theorem commentLine_of_head {level : CommentLevel} {c : Cursor} {text : List Char}
    (h : Line.head c.rest = level.sigil.toList ++ text) :
    commentLine level c = ⟨.comment level (String.ofList ((Line.dropReturn text).drop 1)),
      ⟨c.offset, c.offset + byteCount (level.sigil.toList ++ Line.dropReturn text)⟩⟩ := by
  simp only [commentLine, h, List.drop_left' level.length_sigil, byteCount_append, level.byteCount_sigil, Nat.add_assoc]

variable {P : List Char → Token → Prop} {c d : Cursor} {t : List Char} {is : List PatternItem}

/-- A comment line is spelled by its text, and the end of the line is layout. -/
theorem Reads.commentLine {level : CommentLevel} (h : Reads Anywhere c t is d)
    (hlevel : Line.commentLevel? d.rest = some level) :
    ∃ t', Reads Anywhere c t' (.lexeme (commentLine level d) :: is) d.nextLine := by
  obtain ⟨text, hhead, htext⟩ := Line.commentLevel?_eq_some hlevel
  obtain ⟨gap, hgap, hdrop⟩ := Line.dropReturn_spec text
  have hline := commentLine_of_head hhead
  -- the text of the token, the rest of the line, and the line feed
  have hover : d.Over (level.sigil.toList ++ Line.dropReturn text)
      ⟨d.offset + byteCount (level.sigil.toList ++ Line.dropReturn text), gap ++ Line.tail d.rest⟩ := by
    refine ⟨?_, rfl⟩
    conv_lhs => rw [← Line.head_append_tail d.rest, hhead, ← hdrop]
    simp only [List.append_assoc]
  have hend : (⟨d.offset + byteCount (level.sigil.toList ++ Line.dropReturn text),
      gap ++ Line.tail d.rest⟩ : Cursor).Over gap d.lineEnd := by
    refine ⟨rfl, ?_⟩
    rw [(Cursor.over_lineEnd d).offset, hhead]
    conv_lhs => rw [← hdrop]
    simp only [byteCount_append]
    omega
  obtain ⟨feed, hfeed, hnext⟩ := Cursor.over_nextLine_of_isBlank (c := d.lineEnd) (Line.isBlank_tail d.rest)
  rw [Cursor.nextLine_lineEnd] at hnext
  have hlexeme := h.lexeme (l := Fluent.commentLine level d) trivial hover ?_ ?_
  · exact ⟨_, (hlexeme.layouts (fun x hx => isLayout_of_isBlankChar (hgap x hx)) hend).layouts hfeed hnext⟩
  · rw [hline]
  · rw [hline]
    rcases htext with hnil | ⟨content, hcontent⟩
    · exact .inl ⟨by rw [hnil, List.append_nil], by simp [hnil]⟩
    · exact .inr (by simp [hcontent])

theorem reads_commentLines (level : CommentLevel) (h : Reads Anywhere c t is d) :
    ∃ t', Reads Anywhere c t' ((commentLines level d).1.reverse.map .lexeme ++ is)
      (commentLines level d).2 := by
  fun_induction commentLines level d generalizing t is with
  | case1 d => exact ⟨t, h⟩
  | case2 d _ _ _ hlevel lines stop heq ih =>
    obtain ⟨t₁, h₁⟩ := h.commentLine hlevel
    obtain ⟨t₂, h₂⟩ := ih h₁
    rw [heq] at h₂
    exact ⟨t₂, by simpa using h₂⟩
  | case3 d => exact ⟨t, h⟩

/-! ## Blocks -/

/-- **The tokens of a block** account for its lines, from the line start where the block begins to that of the next
block. -/
theorem reads_block (limit : Nat) (c : Cursor) :
    ∃ t, Reads Anywhere c t ((block limit c).1.lexemes.reverse.map .lexeme) (block limit c).2 := by
  have hblock := blockReads limit c
  generalize (block limit c).1 = b, (block limit c).2 = d at hblock ⊢
  cases hblock with
  | blank hblank =>
    obtain ⟨gap₁, hgap₁, hover₁⟩ := Cursor.over_nextLine_of_isBlank hblank
    obtain ⟨gap₂, hgap₂, hover₂⟩ := Cursor.over_skipBlankLines c.nextLine
    refine ⟨_, Reads.start.lexeme trivial (hover₁.trans hover₂) rfl ?_⟩
    intro x hx
    exact (List.mem_append.1 hx).elim (hgap₁ x) (hgap₂ x)
  | @comment level _ hlevel =>
    obtain ⟨t₁, h₁⟩ := (Reads.start (P := Anywhere) (c := c)).commentLine hlevel
    obtain ⟨t₂, h₂⟩ := reads_commentLines level h₁
    have hclose := h₂.lexeme (l := ⟨.closeComment, .at (commentLines level c.nextLine).2.offset⟩) trivial
      (.refl _) rfl rfl
    exact ⟨_, by simpa [Block.lexemes] using hclose⟩
  | entry _ _ ha =>
    obtain ⟨t, -, ht⟩ := State.reads_run_ofHeader ha limit
    exact ⟨t, ht.mono fun _ _ _ => trivial⟩
  | stray => exact ⟨_, Reads.start.lexeme trivial (Cursor.over_nextLine c) rfl trivial⟩

/-- The tokens of consecutive blocks account for all their lines. -/
theorem reads_blocksFrom (limit : Nat) (c : Cursor) :
    ∃ t d, d.rest = [] ∧
      Reads Anywhere c t (((blocksFrom limit c).flatMap Block.lexemes).reverse.map .lexeme) d := by
  fun_induction blocksFrom limit c with
  | case1 c hnil => exact ⟨[], c, hnil, .start⟩
  | case2 c _ _ _ ih =>
    obtain ⟨t₁, h₁⟩ := reads_block limit c
    obtain ⟨t₂, d, hd, h₂⟩ := ih
    refine ⟨t₁ ++ t₂, d, hd, ?_⟩
    rw [List.flatMap_cons, List.reverse_append, List.map_append]
    exact h₁.append h₂ fun _ _ _ => trivial

/-- **The tokens of a source** account for it, from its first character to its last. What is said of spans and of bytes
without tokens is read off this. -/
theorem reads_tokenize (limit : Nat) (source : List Char) :
    ∃ d, d.rest = [] ∧
      Reads Anywhere (.ofChars source) source ((tokenize limit source).reverse.map .lexeme) d := by
  obtain ⟨t, d, hd, h⟩ := reads_blocksFrom limit (.ofChars source)
  have hsource : source = t := by
    have := h.stretch.rest
    rwa [hd, List.append_nil] at this
  exact ⟨d, hd, hsource ▸ h⟩

/-- **The token stream is a faithful account of the source.** Spans are in order, in bounds and between
characters; a marker is empty, and every other token is spelled by the text at its span; a byte that no
token lies over is a blank or a line feed. -/
theorem tokenize_faithful (limit : Nat) (source : String) :
    (tokenize limit source.toList).Pairwise (fun l m => l.span.stop ≤ m.span.start) ∧
      (∀ l ∈ tokenize limit source.toList,
        l.span.start ≤ l.span.stop ∧ l.span.stop ≤ (Source.ofString source).size ∧
        isBoundary source.toList l.span.start = true ∧ isBoundary source.toList l.span.stop = true ∧
        (l.token.isMarker = true → l.span.start = l.span.stop) ∧
        l.token.SpelledBy ((Source.ofString source).slice l.span).toList) ∧
      ∀ k x, charAt? k source.toList = some x →
        (∀ l ∈ tokenize limit source.toList, ¬ l.span.covers k) → isLayout x = true := by
  obtain ⟨d, hd, h⟩ := reads_tokenize limit source.toList
  refine ⟨?_, ?_, ?_⟩
  · simpa using List.pairwise_reverse.1 h.pairwise
  · intro l hl
    obtain ⟨before, text, e₁, e₂, after, h₁, h₂, h₃, hspan, hspelled, -⟩ := h.mem (List.mem_reverse.2 hl)
    have hsize : d.offset = (Source.ofString source).size := by
      simpa [Cursor.ofChars, Source.ofString] using h.stretch.offset
    rw [hspan]
    refine ⟨h₂.offset_le, hsize ▸ h₃.offset_le, h₁.isBoundary, (h₁.trans h₂).isBoundary, ?_, ?_⟩
    · intro hmarker
      simp [h₂.offset, hspelled.eq_nil hmarker, byteCount]
    · rwa [Cursor.Over.slice h₁ h₂, String.toList_ofList]
  · intro k x hx hk
    apply h.uncovered hx
    intro l hl
    simpa [Cursor.ofChars] using hk l (List.mem_reverse.1 hl)

end Fluent
