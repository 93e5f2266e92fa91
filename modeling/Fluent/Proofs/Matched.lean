import Fluent.Proofs.Excerpt
import Fluent.Proofs.LineStyle
import Fluent.Proofs.Retold

/-!
# The same place in another style

Offsets in a text and in the same text in another style of lines have nothing in common, but the places do: both
cursors have the same text behind them, each in its style. Every move of one cursor is a move of the other.

* `Cursor.Matches`, `Cursor.Restyled`, `Cursor.SameLine`: the same place within a line, but for a carriage return that
  may be passed, and at a line start.
* `LineStyle.matching`: such places match one to one.
* `Cursor.Restyled.skipBlank?`, `Cursor.SameLine.nextLine`, ...: moves of cursors.
* `Cursor.SameLine.commentLines`: the same comment lines.
-/

namespace Fluent

variable {y : LineStyle} {source w : List Char} {p : Char → Bool} {x : Char} {xs : List Char}

/-! ## Places -/

namespace Cursor

variable {c c' d : Cursor}

/-- A cursor somewhere in a source. -/
def In (source : List Char) (c : Cursor) : Prop := ∃ w, (ofChars source).Over w c

theorem In.over (h : c.In source) (hover : c.Over w d) : d.In source := by
  obtain ⟨v, hv⟩ := h
  exact ⟨v ++ w, hv.trans hover⟩

theorem In.suffix (h : c.In source) : c.rest <:+ source := by
  obtain ⟨w, hw⟩ := h
  exact hw.suffix

/-- An offset tells the place in a source, so there is one cursor for each. -/
theorem In.eq_of_offset (hc : c.In source) (hd : d.In source) (h : c.offset = d.offset) : c = d := by
  obtain ⟨_, hc⟩ := hc
  obtain ⟨_, hd⟩ := hd
  exact eq_of_offset_eq hc hd h

theorem In.eq_of_rest (hc : c.In source) (hd : d.In source) (h : c.rest = d.rest) : c = d := by
  obtain ⟨v, hv⟩ := hc
  obtain ⟨w, hw⟩ := hd
  obtain rfl : v = w := List.append_cancel_right (hv.rest.symm.trans (by rw [hw.rest, h]))
  refine eq_of_offset_eq hv hw ?_
  rw [hv.offset, hw.offset]

/-- The same place of a text in both styles: in front of a line break of the source, the carriage return of the style is
yet to be passed in the other text. -/
structure Matches (y : LineStyle) (source : List Char) (c c' : Cursor) : Prop where
  inside : c.In source
  inside' : c'.In (y.line source)
  rest : c'.rest = y.inner c.rest

/-- The same place, but for a carriage return that one cursor may have passed: blanks in front of a line break are
passed in one go, and the carriage return is one of them. -/
structure Restyled (y : LineStyle) (source : List Char) (c c' : Cursor) : Prop where
  inside : c.In source
  inside' : c'.In (y.line source)
  near : y.Near c.rest c'.rest

theorem Matches.restyled (h : c.Matches y source c') : c.Restyled y source c' := ⟨h.inside, h.inside', .inl h.rest⟩

/-- In front of something else than a line feed there is no carriage return to pass. -/
theorem Restyled.matches_of_cons (h : c.Restyled y source c') (hrest : c.rest = x :: xs) (hx : x ≠ '\n') :
    c.Matches y source c' ∧ c'.rest = x :: y.inner xs := by
  have hnear := h.near
  rw [hrest] at hnear
  have hrest' := hnear.eq_cons hx
  exact ⟨⟨h.inside, h.inside', by rw [hrest, hrest', LineStyle.inner_cons hx]⟩, hrest'⟩

end Cursor

theorem LineStyle.take_inner {n : Nat} (h : '\n' ∉ xs.take n) : (y.inner xs).take n = xs.take n := by
  induction xs generalizing n with
  | nil => rfl
  | cons x xs ih =>
    cases n with
    | zero => rfl
    | succ n =>
      rw [List.take_succ_cons, List.mem_cons, not_or] at h
      rw [inner_cons (Ne.symm h.1), List.take_succ_cons, List.take_succ_cons, ih h.2]

theorem LineStyle.drop_inner {n : Nat} (h : '\n' ∉ xs.take n) : (y.inner xs).drop n = y.inner (xs.drop n) := by
  induction xs generalizing n with
  | nil => simp
  | cons x xs ih =>
    cases n with
    | zero => rfl
    | succ n =>
      rw [List.take_succ_cons, List.mem_cons, not_or] at h
      rw [inner_cons (Ne.symm h.1), List.drop_succ_cons, List.drop_succ_cons, ih h.2]

theorem LineStyle.length_inner_append (y : LineStyle) (w xs : List Char) :
    w.length + (y.inner xs).length ≤ (y.inner (w ++ xs)).length := by
  induction w with
  | nil => simp
  | cons c w ih =>
    rw [List.cons_append, List.length_cons]
    by_cases hc : c = '\n'
    · rw [hc, inner_newline, line, List.length_append, List.length_cons, List.length_append]
      omega
    · rw [inner_cons hc, List.length_cons]
      omega

/-- What is left of a text in the other style tells what is left of the text. -/
theorem LineStyle.eq_of_inner {y : LineStyle} {us vs : List Char} (hu : us <:+ source) (hv : vs <:+ source)
    (h : y.inner us = y.inner vs) : us = vs := by
  have hsuffix {us vs : List Char} (huv : us <:+ vs) (h : y.inner us = y.inner vs) : us = vs := by
    obtain ⟨w, rfl⟩ := huv
    have hlength := y.length_inner_append w us
    rw [h] at hlength
    obtain rfl : w = [] := List.eq_nil_of_length_eq_zero (by omega)
    rfl
  rcases List.suffix_or_suffix_of_suffix hu hv with huv | hvu
  · exact hsuffix huv h
  · exact (hsuffix hvu h.symm).symm

/-- **The places of a text and of the text in another style** match one to one. -/
def LineStyle.matching (y : LineStyle) (source : List Char) : Matching where
  pairs p p' := ∃ c c' : Cursor, c.Matches y source c' ∧ c.offset = p ∧ c'.offset = p'
  eq_iff := by
    rintro p q p' q' ⟨c, c', hc, rfl, rfl⟩ ⟨d, d', hd, rfl, rfl⟩
    constructor
    · intro h
      have hcd := hc.inside.eq_of_offset hd.inside h
      have hrest : c'.rest = d'.rest := by rw [hc.rest, hd.rest, hcd]
      rw [hc.inside'.eq_of_rest hd.inside' hrest]
    · intro h
      have hcd := hc.inside'.eq_of_offset hd.inside' h
      have hinner : y.inner c.rest = y.inner d.rest := by rw [← hc.rest, ← hd.rest, hcd]
      rw [hc.inside.eq_of_rest hd.inside (LineStyle.eq_of_inner hc.inside.suffix hd.inside.suffix hinner)]

namespace Cursor

variable {c c' : Cursor} {n : Nat}

/-! ## Moves of cursors -/

theorem Matches.pairs (h : c.Matches y source c') : (y.matching source).pairs c.offset c'.offset := ⟨c, c', h, rfl, rfl⟩

/-- Both cursors skip the same bytes within a line, and stay at the same place. -/
theorem Matches.skip (h : c.Matches y source c') (hn : '\n' ∉ c.rest.take n) :
    (c.skip n).Matches y source (c'.skip n) := by
  refine ⟨h.inside.over (over_skip n c), h.inside'.over (over_skip n c'), ?_⟩
  show c'.rest.drop n = y.inner (c.rest.drop n)
  rw [h.rest, LineStyle.drop_inner hn]

theorem Restyled.skipWhile (h : c.Restyled y source c') (hp : p '\n' = false) :
    (c.skipWhile p).Restyled y source (c'.skipWhile p) :=
  ⟨h.inside.over (over_skipWhile p c), h.inside'.over (over_skipWhile p c'), h.near.dropWhile hp⟩

theorem Restyled.lineEnd (h : c.Restyled y source c') :
    c.lineEnd.Restyled y source c'.lineEnd ∧ c'.lineEnd.rest = y.settled c.lineEnd.rest :=
  ⟨h.skipWhile rfl, h.near.tail⟩

/-- The cursors at the next line with content. -/
theorem Restyled.toContent (h : c.Restyled y source c') {l l' : Line.Next} (hl : Line.nextContent? c.rest = some l)
    (hl' : Line.nextContent? c'.rest = some l') (hrestyled : l.Restyled y l') :
    (c.toContent l).Matches y source (c'.toContent l') := by
  obtain ⟨_, -, hover⟩ := over_toContent hl
  obtain ⟨_, -, hover'⟩ := over_toContent hl'
  exact ⟨h.inside.over hover, h.inside'.over hover', hrestyled.content⟩

theorem skipBlank?_of_nil (h : (c.skipWhile Line.isBlankChar).rest = []) : c.skipBlank? = none := by
  unfold Cursor.skipBlank?
  simp only
  rw [h]

theorem skipBlank?_of_newline (h : (c.skipWhile Line.isBlankChar).rest = '\n' :: xs) :
    c.skipBlank? = (Line.nextContent? (c.skipWhile Line.isBlankChar).rest).bind fun l =>
      if l.continuesExpression then some (((c.skipWhile Line.isBlankChar).toContent l).skipWhile Line.isBlankChar)
      else none := by
  unfold Cursor.skipBlank?
  simp only
  rw [h]
  cases Line.nextContent? ('\n' :: xs) <;> rfl

/-- Past blanks, both read on at the same place, or neither does. -/
theorem Restyled.skipBlank? (h : c.Restyled y source c') :
    (c.skipBlank? = none ∧ c'.skipBlank? = none) ∨
      ∃ d d', c.skipBlank? = some d ∧ c'.skipBlank? = some d' ∧ d.Restyled y source d' := by
  have hhere := h.skipWhile (p := Line.isBlankChar) rfl
  have hsettled : (c'.skipWhile Line.isBlankChar).rest = y.settled (c.skipWhile Line.isBlankChar).rest :=
    h.near.dropWhile_return rfl rfl
  cases hrest : (c.skipWhile Line.isBlankChar).rest with
  | nil =>
    rw [hrest] at hsettled
    exact .inl ⟨skipBlank?_of_nil hrest, skipBlank?_of_nil hsettled⟩
  | cons x xs =>
    by_cases hx : x = '\n'
    · subst hx
      have hnext := LineStyle.nextContent?_settled (y := y) (c.skipWhile Line.isBlankChar).rest
      rw [← hsettled] at hnext
      rw [hrest, LineStyle.settled_newline] at hsettled
      rw [skipBlank?_of_newline hrest, skipBlank?_of_newline hsettled]
      rcases hnext with ⟨hnone, hnone'⟩ | ⟨l, l', hl, hl', hrestyled⟩
      · rw [hnone, hnone']
        exact .inl ⟨rfl, rfl⟩
      · have hcontent := (hhere.toContent hl hl' hrestyled).restyled.skipWhile (p := Line.isBlankChar) rfl
        rw [hl, hl', Option.bind_some, Option.bind_some, hrestyled.continuesExpression]
        split
        · exact .inr ⟨_, _, rfl, rfl, hcontent⟩
        · exact .inl ⟨rfl, rfl⟩
    · obtain ⟨-, hrest'⟩ := hhere.matches_of_cons hrest hx
      exact .inr ⟨_, _, skipBlank?_of_cons hrest hx, skipBlank?_of_cons hrest' hx, hhere⟩

end Cursor

/-! ## Line starts -/

theorem LineStyle.tail_line (cs : List Char) : Line.tail (y.line cs) = y.settled (Line.tail cs) := by
  have hlead : ∀ c ∈ y.lead cs, (c != '\n') = true := by
    intro c hc
    rw [forall_mem_lead c hc]
    rfl
  have hskip : Line.tail (y.lead cs ++ y.inner cs) = Line.tail (y.inner cs) := List.dropWhile_append_of_pos hlead
  rw [line, hskip, (Near.inner cs).tail]

/-- Behind the line feed the next line begins. -/
theorem LineStyle.drop_settled_tail (cs : List Char) :
    (y.settled (Line.tail cs)).drop 1 = y.line ((Line.tail cs).drop 1) := by
  rcases Line.tail_eq_nil_or cs with htail | ⟨rest, htail⟩ <;> rw [htail] <;> rfl

theorem LineStyle.line_ne_nil {cs : List Char} (h : cs ≠ []) : y.line cs ≠ [] := by
  obtain ⟨c, cs, rfl⟩ := List.exists_cons_of_ne_nil h
  rw [line]
  refine List.append_ne_nil_of_right_ne_nil _ ?_
  rw [inner]
  split <;> simp

namespace Cursor

variable {c c' : Cursor}

theorem skipBlankLines_of_nil (h : c.rest = []) : c.skipBlankLines = c := by
  rw [skipBlankLines]
  split
  · rfl
  · rename_i hcons
    simp [h] at hcons

/-- The same line start in both styles. What is left there of the one text is, in the other style, what is left of the
other. -/
structure SameLine (y : LineStyle) (source : List Char) (c c' : Cursor) : Prop where
  inside : c.In source
  inside' : c'.In (y.line source)
  rest : c'.rest = y.line c.rest

theorem sameLine_ofChars (y : LineStyle) (source : List Char) :
    (ofChars source).SameLine y source (ofChars (y.line source)) := ⟨⟨[], .refl _⟩, ⟨[], .refl _⟩, rfl⟩

theorem Restyled.nextLine (h : c.Restyled y source c') : c.nextLine.SameLine y source c'.nextLine := by
  refine ⟨h.inside.over (over_nextLine c), h.inside'.over (over_nextLine c'), ?_⟩
  show (Line.tail c'.rest).drop 1 = y.line ((Line.tail c.rest).drop 1)
  rw [h.near.tail, LineStyle.drop_settled_tail]

namespace SameLine

theorem nextLine (h : c.SameLine y source c') : c.nextLine.SameLine y source c'.nextLine := by
  refine ⟨h.inside.over (over_nextLine c), h.inside'.over (over_nextLine c'), ?_⟩
  show (Line.tail c'.rest).drop 1 = y.line ((Line.tail c.rest).drop 1)
  rw [h.rest, LineStyle.tail_line, LineStyle.drop_settled_tail]

theorem eq_nil (h : c.SameLine y source c') (hc : c.rest = []) : c'.rest = [] := by
  rw [h.rest, hc, LineStyle.line_nil]

theorem ne_nil (h : c.SameLine y source c') (hc : c.rest ≠ []) : c'.rest ≠ [] := by
  rw [h.rest]
  exact LineStyle.line_ne_nil hc

/-- Nothing is put in front of a header or of a comment. -/
theorem matches_of_line (h : c.SameLine y source c') (hline : y.line c.rest = y.inner c.rest) : c.Matches y source c' :=
  ⟨h.inside, h.inside', h.rest.trans hline⟩

theorem skipBlankLines (h : c.SameLine y source c') : c.skipBlankLines.SameLine y source c'.skipBlankLines := by
  fun_induction Cursor.skipBlankLines c generalizing c' with
  | case1 c hc => rwa [skipBlankLines_of_nil (h.eq_nil hc)]
  | case2 c x xs hc hblank ih =>
    have hne : c.rest ≠ [] := by simp [hc]
    rw [skipBlankLines_of_ne_nil (h.ne_nil hne), h.rest, LineStyle.isBlank_line, if_pos hblank]
    exact ih h.nextLine
  | case3 c x xs hc hblank =>
    have hne : c.rest ≠ [] := by simp [hc]
    rwa [skipBlankLines_of_ne_nil (h.ne_nil hne), h.rest, LineStyle.isBlank_line, if_neg hblank]

/-- The same line start opens a comment in both styles, or in none. -/
theorem commentLevel? (hfits : y.Fits source) (h : c.SameLine y source c') :
    Line.commentLevel? c'.rest = Line.commentLevel? c.rest := by
  rw [h.rest, LineStyle.commentLevel?_line (hfits.suffix h.inside.suffix)]

theorem token_commentLine (hfits : y.Fits source) (h : c.SameLine y source c') {level : CommentLevel}
    (hlevel : Line.commentLevel? c.rest = some level) :
    (commentLine level c').token = (commentLine level c).token :=
  LineStyle.token_commentLine hlevel (hfits.suffix h.inside.suffix)
    (h.matches_of_line (LineStyle.line_of_commentLevel hlevel)).rest

/-- **The same comment lines** are read at the same line start, and they end at the same line start. -/
theorem commentLines (hfits : y.Fits source) (level : CommentLevel) (h : c.SameLine y source c') :
    (commentLines level c').1.map (·.token) = (commentLines level c).1.map (·.token) ∧
      (commentLines level c).2.SameLine y source (commentLines level c').2 := by
  fun_induction Fluent.commentLines level c generalizing c' with
  | case1 c hc =>
    rw [commentLines_of_nil level (h.eq_nil hc)]
    exact ⟨rfl, h⟩
  | case2 c x xs hc hlevel lines stop hlines ih =>
    obtain ⟨htokens, hstop⟩ := ih h.nextLine
    have hne : c.rest ≠ [] := by simp [hc]
    rw [hlines] at htokens hstop
    rw [commentLines_of_ne_nil level (h.ne_nil hne), h.commentLevel? hfits, if_pos hlevel]
    refine ⟨?_, hstop⟩
    rw [List.map_cons, List.map_cons, h.token_commentLine hfits hlevel, htokens]
  | case3 c x xs hc hlevel =>
    have hne : c.rest ≠ [] := by simp [hc]
    rw [commentLines_of_ne_nil level (h.ne_nil hne), h.commentLevel? hfits, if_neg hlevel]
    exact ⟨rfl, h⟩

/-- The comment lines from a line on that is known to be one. -/
theorem comment (hfits : y.Fits source) (h : c.SameLine y source c') {level : CommentLevel}
    (hlevel : Line.commentLevel? c.rest = some level) :
    (commentLine level c' :: (Fluent.commentLines level c'.nextLine).1).map (·.token) =
      (commentLine level c :: (Fluent.commentLines level c.nextLine).1).map (·.token) := by
  rw [List.map_cons, List.map_cons, h.token_commentLine hfits hlevel, (h.nextLine.commentLines hfits level).1]

end SameLine

end Cursor

end Fluent
