import Fluent.Proofs.Blocks

/-!
# Fences are where blocks begin

A fence is a token that can begin an entry, a comment or a stray line, at a line start. In the token stream
of a source these are the first tokens of its blocks, and the further lines of a comment.

* `isLineStart_iff`: an offset is a line start if the text before it is empty or ends with a line feed.
* `Block.Fits`: a block begins with a fence and holds no other one, comment lines apart.
* `Laid s c bs d`: the blocks `bs` stand one after the other between two cursors of `s`.
* `laid_blocks`: the blocks of a source are laid over it.
-/

namespace Fluent

/-! ## Line starts -/

/-- The text before a line start: nothing at all, where the source begins, or a text that ends with a line feed. -/
def AtLineStart (t : List Char) : Prop := t = [] ∨ t.getLast? = some '\n'

namespace LineMap

theorem startsFrom_append (offset : Nat) (xs ys : List Char) :
    startsFrom offset (xs ++ ys) = startsFrom offset xs ++ startsFrom (offset + byteCount xs) ys := by
  induction xs generalizing offset with
  | nil => simp [startsFrom, byteCount]
  | cons x xs ih =>
    simp only [List.cons_append, startsFrom, byteCount, ih, ← Nat.add_assoc]
    split <;> simp

theorem le_of_mem_startsFrom {offset x : Nat} {cs : List Char} (h : x ∈ startsFrom offset cs) :
    x ≤ offset + byteCount cs := by
  fun_induction startsFrom offset cs with
  | case1 => simp at h
  | case2 offset cs next ih =>
    rw [byteCount]
    rcases List.mem_cons.1 h with rfl | h
    · exact Nat.add_le_add_left (Nat.le_add_right _ _) _
    · have := ih h
      omega
  | case3 offset c cs next _ ih =>
    have := ih h
    rw [byteCount]
    omega

/-- The last line of a text starts in it. -/
theorem getLastD_startsFrom_le (cs : List Char) : (startsFrom 0 cs).getLastD 0 ≤ byteCount cs := by
  rcases List.eq_nil_or_concat (startsFrom 0 cs) with hnil | ⟨starts, y, hy⟩
  · simp [hnil]
  · have hle : y ≤ 0 + byteCount cs := le_of_mem_startsFrom (by simp [hy])
    simpa [hy] using hle

/-- The line starts that do not exceed the end of a prefix are those of the prefix. -/
theorem takeWhile_startsFrom (pre rest : List Char) :
    (startsFrom 0 (pre ++ rest)).takeWhile (· ≤ byteCount pre) = startsFrom 0 pre := by
  rw [startsFrom_append, Nat.zero_add, List.takeWhile_append_of_pos]
  · suffices h : (startsFrom (byteCount pre) rest).takeWhile (· ≤ byteCount pre) = [] by
      rw [h, List.append_nil]
    rcases hstarts : startsFrom (byteCount pre) rest with _ | ⟨x, xs⟩
    · rfl
    · have : x ∈ startsFrom (byteCount pre) rest := by simp [hstarts]
      have := lt_of_mem_startsFrom this
      exact List.takeWhile_cons_of_neg (by simpa using this)
  · intro x hx
    simpa using le_of_mem_startsFrom hx

/-- Where a prefix of a source ends, its own line starts say the position. -/
theorem position_append (pre rest : List Char) :
    (ofChars (pre ++ rest)).position (byteCount pre) =
      ⟨(startsFrom 0 pre).length, byteCount pre - (startsFrom 0 pre).getLastD 0⟩ := by
  rw [position_ofChars, takeWhile_startsFrom]

/-- A character that is no line feed makes the line longer by its bytes. -/
theorem position_concat {x : Char} (hx : x ≠ '\n') (pre rest : List Char) :
    (ofChars (pre ++ [x] ++ rest)).position (byteCount (pre ++ [x])) =
      ⟨((ofChars (pre ++ [x] ++ rest)).position (byteCount pre)).line,
        ((ofChars (pre ++ [x] ++ rest)).position (byteCount pre)).column + x.utf8Size⟩ := by
  have hstarts : startsFrom 0 (pre ++ [x]) = startsFrom 0 pre := by
    rw [startsFrom_append]
    simp [startsFrom, hx]
  have hlast := getLastD_startsFrom_le pre
  rw [position_append, hstarts, byteCount_append, List.append_assoc, position_append]
  simp only [byteCount, Nat.add_zero, Position.mk.injEq, true_and]
  omega

theorem isLineStart_iff (pre rest : List Char) :
    (ofChars (pre ++ rest)).isLineStart (byteCount pre) = true ↔ AtLineStart pre := by
  rw [isLineStart, beq_iff_eq]
  rcases List.eq_nil_or_concat pre with rfl | ⟨pre, x, rfl⟩
  · rw [position_append]
    simp [byteCount, AtLineStart]
  · rw [List.concat_eq_append]
    simp only [AtLineStart, List.getLast?_concat, List.append_eq_nil_iff, List.cons_ne_nil, and_false, false_or,
      Option.some.injEq]
    by_cases hbreak : x = '\n'
    · rw [position_append]
      simp [hbreak, startsFrom_append, startsFrom, byteCount_append, byteCount]
    · -- a character stands between the last line start and the end of the prefix
      rw [position_concat hbreak]
      have hx := x.utf8Size_pos
      simp only [hbreak, iff_false]
      omega

end LineMap

/-- A line of the source starts at the cursor: the text between the beginning of the source and the cursor is that
before a line start. -/
def Cursor.StartsLine (source : List Char) (c : Cursor) : Prop :=
  ∃ pre, (Cursor.ofChars source).Over pre c ∧ AtLineStart pre

namespace Cursor

variable {source pre : List Char} {c : Cursor}

/-- The next line starts a line, unless the source has ended. -/
theorem startsLine_nextLine (h : (ofChars source).Over pre c) :
    c.nextLine.rest = [] ∨ c.nextLine.StartsLine source := by
  have hover := h.trans (over_nextLine c)
  rcases Line.tail_eq_nil_or c.rest with htail | ⟨rest, htail⟩
  · left
    show (Line.tail c.rest).drop 1 = []
    rw [htail]
    rfl
  · right
    refine ⟨_, hover, .inr ?_⟩
    rw [htail]
    simp

theorem startsLine_skipBlankLines (h : c.rest = [] ∨ c.StartsLine source) :
    c.skipBlankLines.rest = [] ∨ c.skipBlankLines.StartsLine source := by
  fun_induction skipBlankLines c with
  | case1 c hnil => exact .inl hnil
  | case2 c _ _ hcons _ ih =>
    obtain ⟨pre, hover, -⟩ := h.resolve_left (by simp [hcons])
    exact ih (startsLine_nextLine hover)
  | case3 c => exact h

end Cursor

theorem startsLine_commentLines {source : List Char} {level : CommentLevel} {c : Cursor}
    (h : c.rest = [] ∨ c.StartsLine source) :
    (commentLines level c).2.rest = [] ∨ (commentLines level c).2.StartsLine source := by
  fun_induction commentLines level c with
  | case1 c hnil => exact .inl hnil
  | case2 c _ _ hcons _ lines stop heq ih =>
    obtain ⟨pre, hover, -⟩ := h.resolve_left (by simp [hcons])
    rw [heq] at ih
    exact ih (Cursor.startsLine_nextLine hover)
  | case3 c => exact h

/-- A block ends where a line starts, or with the source. -/
theorem startsLine_block {source : List Char} {c : Cursor} (limit : Nat) (h : c.StartsLine source) :
    (block limit c).2.rest = [] ∨ (block limit c).2.StartsLine source := by
  obtain ⟨pre, hover, -⟩ := h
  have hnext := Cursor.startsLine_nextLine hover
  have hblock := blockReads limit c
  generalize (block limit c).1 = b, (block limit c).2 = d at hblock ⊢
  cases hblock with
  | blank => exact Cursor.startsLine_skipBlankLines hnext
  | comment => exact startsLine_commentLines hnext
  | entry _ _ ha =>
    obtain ⟨⟨t, ht⟩, -⟩ := State.sound_run_ofHeader ha limit
    exact Cursor.startsLine_nextLine (hover.trans ht.reads.stretch)
  | stray => exact hnext

/-- A token is a fence if it can begin an item and the text before it ends a line. -/
theorem isFence_iff {source : String} {pre : List Char} {c : Cursor} {l : Lexeme}
    (h : (Cursor.ofChars source.toList).Over pre c) (hl : l.span.start = c.offset) :
    isFence (.ofString source) l = true ↔ l.token.startsItem = true ∧ AtLineStart pre := by
  have hoffset : c.offset = byteCount pre := by simpa [Cursor.ofChars] using h.offset
  have hchars : source.toList = pre ++ c.rest := h.rest
  rw [isFence, Bool.and_eq_true, hl, hoffset, Source.ofString, hchars, LineMap.isLineStart_iff]

/-! ## Blocks -/

theorem Token.startsItem_of_opensEntry {k : Token} (h : k.opensEntry = true) : k.startsItem = true := by
  cases k <;> first | rfl | simp [opensEntry] at h

/-- A block from an offset on begins with a token that can begin an item; of its other tokens only comment
lines could stand in front of an entry. -/
def Block.Fits (s : Source) (offset : Nat) : Block → Prop
  | blank span => span.start = offset
  | stray span => span.start = offset ∧ span.start < span.stop
  | comment lines close => close.token = .closeComment ∧ ∃ l ls level, lines = l :: ls ∧
      l.span.start = offset ∧ ∀ m ∈ lines, ∃ content, m.token = .comment level content
  | entry _ _ start lexemes _ => start = offset ∧ ∃ l ls, lexemes = l :: ls ∧
      l.token.opensEntry = true ∧ l.span.start = offset ∧ ∀ m ∈ ls, isFence s m = false

/-- The first token of a block stands where the block begins, and can begin an item. -/
theorem Block.Fits.first {s : Source} {offset : Nat} {b : Block} (h : b.Fits s offset) :
    ∃ l ls, b.lexemes = l :: ls ∧ l.span.start = offset ∧ l.token.startsItem = true := by
  cases b with
  | blank span => exact ⟨_, [], rfl, h, rfl⟩
  | stray span => exact ⟨_, [], rfl, h.1, rfl⟩
  | comment lines close =>
    obtain ⟨-, l, ls, level, rfl, hstart, hlevel⟩ := h
    obtain ⟨content, hcontent⟩ := hlevel l List.mem_cons_self
    exact ⟨l, ls ++ [close], rfl, hstart, by rw [hcontent]; rfl⟩
  | entry isTerm name start lexemes ending =>
    obtain ⟨-, l, ls, rfl, hopens, hstart, -⟩ := h
    exact ⟨l, ls, rfl, hstart, Token.startsItem_of_opensEntry hopens⟩

/-- The first token of a header is no layout. -/
theorem Line.entryHeader?_first {cs : List Char} {isTerm : Bool} {a : Assignment}
    (h : entryHeader? cs = some (isTerm, a)) : ∃ x rest, cs = x :: rest ∧ isLayout x = false := by
  obtain ⟨-, rest, rfl, -⟩ | ⟨-, hassign⟩ := entryHeader?_eq_some h
  · exact ⟨'-', rest, rfl, rfl⟩
  · obtain ⟨x, rest, rfl, hstart, -⟩ := assignment?_eq_cons hassign
    refine ⟨x, rest, rfl, ?_⟩
    by_contra hlayout
    rw [Bool.not_eq_false] at hlayout
    have hnone : isIdentifierStart x = false := by
      simp only [isLayout, isBlankChar, Bool.or_eq_true, beq_iff_eq] at hlayout
      rcases hlayout with ((rfl | rfl) | rfl) | rfl <;> decide
    rw [hnone] at hstart
    cases hstart

namespace Reads

variable {c d : Cursor} {t : List Char} {ls : List Lexeme}

/-- A token at the front of an entry can open one. -/
theorem opensEntry_of_start_le (h : Reads Inner c t (ls.map .lexeme) d) {m : Lexeme} (hm : m ∈ ls)
    (hstart : m.span.start ≤ c.offset) : m.token.opensEntry = true := by
  obtain ⟨before, text, e₁, e₂, after, h₁, -, -, hspan, -, hinner⟩ := h.mem hm
  apply hinner.first
  by_contra hne
  have hbefore := h₁.offset_lt hne
  rw [hspan] at hstart
  exact Nat.lt_irrefl _ (Nat.lt_of_lt_of_le hbefore hstart)

/-- Some token lies over the first byte of a text that does not begin with layout. -/
theorem exists_covers {P : List Char → Token → Prop} (h : Reads P c t (ls.map .lexeme) d) (ht : t ≠ [])
    {x : Char} {rest : List Char} (hrest : c.rest = x :: rest) (hx : isLayout x = false) :
    ∃ m ∈ ls, m.span.covers c.offset := by
  by_contra hnone
  push Not at hnone
  have ht₀ : charAt? 0 t = some x := by
    obtain ⟨y, t', rfl⟩ := List.exists_cons_of_ne_nil ht
    have := h.stretch.rest
    rw [hrest] at this
    rw [charAt?, if_pos y.utf8Size_pos, (List.cons.inj this).1]
  have := h.uncovered ht₀ hnone
  simp [hx] at this

/-- A token that stands behind the front of an entry is no fence. -/
theorem isFence_eq_false {source : String} {pre : List Char} (h : Reads Inner c t (ls.map .lexeme) d)
    (hover : (Cursor.ofChars source.toList).Over pre c) {m : Lexeme} (hm : m ∈ ls)
    (hstart : c.offset < m.span.start) : isFence (.ofString source) m = false := by
  obtain ⟨before, text, e₁, e₂, after, h₁, -, -, hspan, -, hinner⟩ := h.mem hm
  by_contra hfence
  rw [Bool.not_eq_false, isFence_iff (hover.trans h₁) (by rw [hspan])] at hfence
  have hne : before ≠ [] := by
    rintro rfl
    have := h₁.offset
    rw [hspan] at hstart
    simp only [byteCount] at this hstart
    omega
  -- a later line start is one inside the entry
  rcases hfence.2 with hnil | hlast
  · simp [hne] at hnil
  · rw [List.getLast?_append_of_ne_nil _ hne] at hlast
    exact hinner.later hfence.1 hlast

/-- The account of an entry, read from its front: it begins with a name or a dash, and has no other fence. -/
theorem fits {source : String} {x : Char} {rest : List Char} (h : Reads Inner c t (ls.reverse.map .lexeme) d)
    (hc : c.StartsLine source.toList) (ht : t ≠ []) (hrest : c.rest = x :: rest) (hx : isLayout x = false) :
    ∃ l ls', ls = l :: ls' ∧ l.token.opensEntry = true ∧ l.span.start = c.offset ∧
      ∀ m ∈ ls', isFence (.ofString source) m = false := by
  obtain ⟨pre, hover, -⟩ := hc
  obtain ⟨m, hm, hcovers⟩ := h.exists_covers ht hrest hx
  have hm := List.mem_reverse.1 hm
  obtain ⟨l, ls', rfl⟩ := List.exists_cons_of_ne_nil (List.ne_nil_of_mem hm)
  have hl : l ∈ (l :: ls').reverse := List.mem_reverse.2 List.mem_cons_self
  have hpairs := List.pairwise_cons.1 (List.pairwise_reverse.1 h.pairwise)
  -- the token over the first byte is the first one, since no other begins there
  have hstart : l.span.start = c.offset := by
    have hspan := h.span_mem hl
    rcases List.mem_cons.1 hm with rfl | hm
    · exact Nat.le_antisymm hcovers.1 hspan.1
    · have := hpairs.1 m hm
      have := hcovers.1
      omega
  have hopens := h.opensEntry_of_start_le hl hstart.le
  have hstop := h.start_lt_stop hl (.inl hopens)
  refine ⟨l, ls', rfl, hopens, hstart, ?_⟩
  intro n hn
  have hafter := hpairs.1 n hn
  exact h.isFence_eq_false hover (List.mem_reverse.2 (List.mem_cons_of_mem _ hn)) (by omega)

end Reads

/-- Comment lines are tokens of one level. -/
theorem token_commentLines (level : CommentLevel) (c : Cursor) :
    ∀ m ∈ (commentLines level c).1, ∃ content, m.token = .comment level content := by
  fun_induction commentLines level c with
  | case1 => simp
  | case2 c _ _ _ _ lines stop heq ih =>
    rw [heq] at ih
    intro m hm
    rcases List.mem_cons.1 hm with rfl | hm
    · exact ⟨_, rfl⟩
    · exact ih m hm
  | case3 => simp

theorem token_commentLine_cons (level : CommentLevel) (c : Cursor) :
    ∀ m ∈ commentLine level c :: (commentLines level c.nextLine).1, ∃ content, m.token = .comment level content := by
  intro m hm
  rcases List.mem_cons.1 hm with rfl | hm
  · exact ⟨_, rfl⟩
  · exact token_commentLines level c.nextLine m hm

/-- The block at a line start begins there, and its tokens are as the grammar of a body needs them. -/
theorem fits_block {source : String} {c : Cursor} (limit : Nat) (hc : c.StartsLine source.toList)
    (hrest : c.rest ≠ []) :
    (block limit c).1.Fits (.ofString source) c.offset := by
  have hblock := blockReads limit c
  generalize (block limit c).1 = b, (block limit c).2 = d at hblock ⊢
  cases hblock with
  | blank => rfl
  | @comment level =>
    exact ⟨rfl, _, _, level, rfl, rfl, token_commentLine_cons level c⟩
  | entry _ _ ha =>
    obtain ⟨t, ht, hreads⟩ := State.reads_run_ofHeader ha limit
    obtain ⟨x, rest, hrest, hx⟩ := Line.entryHeader?_first ha
    exact ⟨rfl, hreads.fits hc ht hrest hx⟩
  | stray => exact ⟨rfl, Cursor.offset_lt_nextLine hrest⟩

/-- Blocks that stand one after the other from a cursor to the end of the source. -/
inductive Laid (source : String) : Cursor → List Block → Cursor → Prop
  | nil {c} : c.rest = [] → Laid source c [] c
  | cons {c t b d bs e} : c.StartsLine source.toList → b.Fits (.ofString source) c.offset →
      Reads Anywhere c t (b.lexemes.reverse.map .lexeme) d → Laid source d bs e →
      Laid source c (b :: bs) e

theorem laid_blocksFrom {source : String} {c : Cursor} (limit : Nat)
    (hc : c.rest = [] ∨ c.StartsLine source.toList) : ∃ e, Laid source c (blocksFrom limit c) e := by
  fun_induction blocksFrom limit c with
  | case1 c hnil => exact ⟨c, .nil hnil⟩
  | case2 c _ _ hcons ih =>
    have hstart := hc.resolve_left (by simp [hcons])
    obtain ⟨t, ht⟩ := reads_block limit c
    obtain ⟨e, he⟩ := ih (startsLine_block limit hstart)
    exact ⟨e, .cons hstart (fits_block limit hstart (by simp [hcons])) ht he⟩

/-- **The blocks of a source** are laid over it: the first begins with the source, each of the others where the one in
front of it ends, and every one at a line start. -/
theorem laid_blocks (limit : Nat) (source : String) :
    ∃ e, Laid source (.ofChars source.toList) (blocks limit source.toList) e :=
  laid_blocksFrom limit (.inr ⟨[], .refl _, .inl rfl⟩)

namespace Laid

variable {source : String} {c e : Cursor} {b : Block} {bs : List Block}

/-- The tokens of laid blocks begin with a fence at the cursor, if there are any. -/
theorem head (h : Laid source c bs e) :
    (bs = [] ∧ c.rest = []) ∨ ∃ l ls, bs.flatMap Block.lexemes = l :: ls ∧ l.span.start = c.offset ∧
      isFence (.ofString source) l = true := by
  cases h with
  | nil hnil => exact .inl ⟨rfl, hnil⟩
  | @cons _ t b d bs _ hc hfits _ _ =>
    obtain ⟨pre, hover, hpre⟩ := hc
    obtain ⟨l, ls, hl, hstart, hitem⟩ := hfits.first
    exact .inr ⟨l, ls ++ bs.flatMap Block.lexemes, by rw [List.flatMap_cons, hl]; rfl, hstart,
      (isFence_iff hover hstart).2 ⟨hitem, hpre⟩⟩

/-- Nothing of the tokens of laid blocks comes before their first fence. -/
theorem beforeFence_eq (h : Laid source c bs e) :
    beforeFence (.ofString source) (bs.flatMap Block.lexemes) = [] := by
  rcases h.head with ⟨rfl, -⟩ | ⟨l, ls, hl, -, hfence⟩
  · rfl
  · rw [hl, beforeFence, List.takeWhile_cons_of_neg (by simp [hfence])]

theorem fromFence_eq (h : Laid source c bs e) :
    fromFence (.ofString source) (bs.flatMap Block.lexemes) = bs.flatMap Block.lexemes := by
  rcases h.head with ⟨rfl, -⟩ | ⟨l, ls, hl, -, hfence⟩
  · rfl
  · rw [hl, fromFence, List.dropWhile_cons_of_neg (by simp [hfence])]

/-- The tokens of an entry are followed by a fence where the next block begins. -/
theorem position_fenceAt {pre : List Char} (h : Laid source c bs e)
    (hover : (Cursor.ofChars source.toList).Over pre c) :
    (fenceAt (.ofString source) (bs.flatMap Block.lexemes)).position = c.offset := by
  rcases h.head with ⟨rfl, hnil⟩ | ⟨l, ls, hl, hstart, -⟩
  · have hsource := hover.rest
    rw [hnil, List.append_nil] at hsource
    show byteCount source.toList = c.offset
    rw [hover.offset, ← hsource]
    exact (Nat.zero_add _).symm
  · rw [hl]
    exact hstart

end Laid

end Fluent
