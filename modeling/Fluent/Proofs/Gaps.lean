import Fluent.Proofs.Displayed

/-!
# Gaps between lines

Between two lines with content stand blank lines, and then the indentation of the second one. What the first line
belongs to goes on beyond such a gap or ends in front of it: that hangs on the indentation and on the character behind.

* `gap`: blank lines and an indentation.
* `Cursor.Over.nextContent?`: the line behind a gap.
* `Line.endsValue_gap`: where a value ends in front of a gap.
* `Cursor.Over.beginValue_gap`, `Cursor.Over.skipBlank?_gap`: what goes on behind one.
-/

namespace Fluent

/-- Line breaks with blank lines between them, and an indentation. -/
def gap (blanks : List (List Char)) (indent : Nat) : List Char :=
  blanks.flatMap ('\n' :: ·) ++ '\n' :: List.replicate indent ' '

/-- Lines that hold nothing but white space. Between two lines with content there may be as many as one likes. -/
def AllBlank (blanks : List (List Char)) : Prop := ∀ line ∈ blanks, ∀ x ∈ line, Line.isBlankChar x = true

/-- A line from its first character behind the indentation on. As this is no space, the indentation is all of the spaces
in front of it. -/
structure Line.Begins (x : Char) (cs : List Char) : Prop where
  first : cs.head? = some x
  indented : x ≠ ' '
  content : Line.isBlank cs = false

variable {blanks : List (List Char)} {indent : Nat} {c d : Cursor} {x : Char} {cs line : List Char}

theorem gap_cons (line : List Char) (blanks : List (List Char)) (indent : Nat) :
    gap (line :: blanks) indent = '\n' :: (line ++ gap blanks indent) := by
  simp [gap]

theorem exists_gap (blanks : List (List Char)) (indent : Nat) : ∃ cs, gap blanks indent = '\n' :: cs := by
  cases blanks with
  | nil => exact ⟨_, rfl⟩
  | cons line blanks => exact ⟨_, gap_cons line blanks indent⟩

/-- Nothing is passed where something else stands. -/
theorem Cursor.skipWhile_eq_self {p : Char → Bool} (h : ∀ y ∈ c.rest.head?, p y = false) : c.skipWhile p = c :=
  ((Cursor.Over.refl c).skipWhile (by simp) h).1

/-! ## The line behind a gap -/

namespace Line

/-- White space hides no content behind it. -/
theorem isBlank_append (hline : ∀ x ∈ line, isBlankChar x = true) (cs : List Char) :
    isBlank (line ++ cs) = isBlank cs ∧ tail (line ++ cs) = tail cs := by
  have hkeep : ∀ x ∈ line, (x != '\n') = true := by
    intro x hx
    refine bne_iff_ne.2 ?_
    rintro rfl
    exact absurd (hline _ hx) (by decide)
  constructor
  · rw [isBlank, isBlank, head, head, List.takeWhile_append_of_pos hkeep, List.all_append, List.all_eq_true.2 hline,
      Bool.true_and]
  · rw [tail, tail, List.dropWhile_append_of_pos hkeep]

/-- The content of a line keeps it from being blank, whatever stands behind. -/
theorem isBlank_append_of_content (h : isBlank cs = false) (rest : List Char) : isBlank (cs ++ rest) = false := by
  obtain ⟨x, after, hdrop, hx⟩ := dropWhile_isBlankChar h
  have hbreak : '\n' ∉ cs.takeWhile isBlankChar := fun hmem => absurd (List.mem_takeWhile_imp hmem) (by decide)
  have hsplit := List.takeWhile_append_dropWhile (p := isBlankChar) (l := cs)
  rw [← hsplit, hdrop, List.append_assoc]
  exact isBlank_of_content hbreak hx

theorem nextContent?_gap (indent : Nat) (hblanks : AllBlank blanks) (h : Begins x cs) :
    ∃ l, nextContent? (gap blanks indent ++ cs) = some l ∧ l.breaks = blanks.length + 1 ∧ l.indent = indent ∧
      l.first = x ∧ l.content = cs := by
  obtain ⟨rest, rfl⟩ := List.head?_eq_some_iff.1 h.first
  -- each blank line is passed by one call of the search, which counts its line break
  induction blanks with
  | nil =>
    have hspaces : ∀ y ∈ List.replicate indent ' ', (y == ' ') = true := by simp
    have hblank : isBlank (List.replicate indent ' ' ++ x :: rest) = false := by
      rw [(isBlank_append (by simp [isBlankChar]) _).1, h.content]
    have hdrop : (List.replicate indent ' ' ++ x :: rest).dropWhile (· == ' ') = x :: rest := by
      rw [List.dropWhile_append_of_pos hspaces, List.dropWhile_cons, if_neg (by simpa using h.indented)]
    have hindent : Line.indent (List.replicate indent ' ' ++ x :: rest) = indent := by
      rw [Line.indent, List.takeWhile_append_of_pos hspaces, List.takeWhile_cons, if_neg (by simpa using h.indented),
        List.append_nil, List.length_replicate]
    refine ⟨⟨1, 1, indent, x, rest⟩, ?_, rfl, rfl, rfl, rfl⟩
    rw [gap, List.flatMap_nil, List.nil_append, List.cons_append, nextContent?, if_neg (by simp [hblank]), hdrop]
    simp only [hindent]
  | cons line blanks ih =>
    obtain ⟨hline, hrest⟩ := List.forall_mem_cons.1 hblanks
    obtain ⟨l, hl, hbreaks, hindent, hfirst, hcontent⟩ := ih hrest
    obtain ⟨ys, hys⟩ := exists_gap blanks indent
    obtain ⟨hblank, htail⟩ := isBlank_append hline (gap blanks indent ++ x :: rest)
    rw [hys, List.cons_append] at hl hblank htail
    replace hblank : isBlank (line ++ '\n' :: (ys ++ x :: rest)) = true := hblank
    have hnewline : tail ('\n' :: (ys ++ x :: rest)) = '\n' :: (ys ++ x :: rest) := rfl
    rw [gap_cons, hys, List.cons_append, List.append_assoc, List.cons_append, nextContent?, if_pos hblank,
      htail, hnewline, hl]
    exact ⟨_, rfl, congrArg (· + 1) hbreaks, hindent, hfirst, hcontent⟩

end Line

/-- **The line behind a gap** begins where the gap ends. -/
theorem Cursor.Over.nextContent? (hgap : c.Over (gap blanks indent) d) (hblanks : AllBlank blanks)
    (h : Line.Begins x d.rest) :
    ∃ l, Line.nextContent? c.rest = some l ∧ l.breaks = blanks.length + 1 ∧ l.indent = indent ∧ l.first = x ∧
      c.toContent l = d := by
  obtain ⟨l, hl, hbreaks, hindent, hfirst, hcontent⟩ := Line.nextContent?_gap indent hblanks h
  rw [← hgap.rest] at hl
  refine ⟨l, hl, hbreaks, hindent, hfirst, ?_⟩
  obtain ⟨blanks', -, hover⟩ := over_toContent hl
  -- what is passed to the line is the gap, since the same is left behind it
  have htext : blanks' ++ '\n' :: List.replicate l.indent ' ' = gap blanks indent := by
    have hrest := hover.rest
    rw [hgap.rest, show (c.toContent l).rest = d.rest from hcontent] at hrest
    exact (List.append_cancel_right hrest).symm
  rw [htext] at hover
  exact hover.eq hgap

/-! ## Values -/

/-- A value does not go on behind a gap that does not indent, or in front of certain signs. -/
theorem Line.endsValue_gap (hblanks : AllBlank blanks) (h : Line.Begins x cs)
    (hends : indent = 0 ∨ Line.isSpecialStart x = true) : Line.EndsValue (gap blanks indent ++ cs) := by
  obtain ⟨l, hl, -, hindent, hfirst, -⟩ := Line.nextContent?_gap indent hblanks h
  refine ⟨?_, ?_⟩
  · obtain ⟨ys, hys⟩ := exists_gap blanks indent
    rw [hys]
    rintro y ⟨⟩
    rfl
  · rw [hl, Option.filter_some]
    rcases hends with hends | hends <;> simp [Next.continuesPattern, hindent, hfirst, hends]

/-- A line that goes on with a value: it is indented, and no certain sign stands there. -/
structure Line.Continues (indent : Nat) (cs : List Char) : Prop where
  indented : 0 < indent
  content : Line.isBlank cs = false
  first : ∀ x ∈ cs.head?, x ∉ [' ', '.', '[', '*', '}']

theorem Line.Continues.begins (h : Line.Continues indent cs) : ∃ x, Line.Begins x cs ∧ Line.isSpecialStart x = false := by
  cases cs with
  | nil => exact absurd h.content (by decide)
  | cons x xs =>
    have hx := h.first x rfl
    simp only [List.mem_cons, List.not_mem_nil, or_false, not_or] at hx
    exact ⟨x, ⟨rfl, hx.1, h.content⟩, by simp [Line.isSpecialStart, hx]⟩

/-- **Behind a gap a value goes on.** -/
theorem Cursor.Over.continues (hgap : c.Over (gap blanks indent) d) (hblanks : AllBlank blanks)
    (h : Line.Continues indent d.rest) :
    ∃ l, Line.nextContent? c.rest = some l ∧ l.continuesPattern = true ∧ l.breaks = blanks.length + 1 ∧
      l.indent = indent ∧ c.toContent l = d := by
  obtain ⟨x, hbegins, hspecial⟩ := h.begins
  obtain ⟨l, hl, hbreaks, hindent, hfirst, hcontent⟩ := hgap.nextContent? hblanks hbegins
  refine ⟨l, hl, ?_, hbreaks, hindent, hcontent⟩
  simp [Line.Next.continuesPattern, hindent, hfirst, hspecial, h.indented]

variable (items : List PatternItem) (fs : List Frame)

/-- A value begins behind a gap. -/
theorem Cursor.Over.beginValue_gap (hgap : c.Over (gap blanks indent) d) (hblanks : AllBlank blanks)
    (h : Line.Continues indent d.rest) :
    State.beginValue ⟨c, items, fs⟩ =
      ⟨d, [], .pattern (.lexeme ⟨.patternStart, .at d.offset⟩ :: items) 0 (some indent) :: fs⟩ := by
  obtain ⟨l, hl, hcontinues, -, rfl, hcontent⟩ := hgap.continues hblanks h
  obtain ⟨ys, hys⟩ := exists_gap blanks l.indent
  have hrest : c.rest = '\n' :: (ys ++ d.rest) := by rw [hgap.rest, hys, List.cons_append]
  have hbreak : ∀ p : Char → Bool, p '\n' = false → c.skipWhile p = c := fun p hp =>
    Cursor.skipWhile_eq_self (by simp [hrest, hp])
  have hblank : Line.isBlank c.rest = true := by
    rw [hrest]
    rfl
  simp only [State.beginValue, hbreak (· == ' ') rfl, Cursor.lineEnd, hbreak (· != '\n') rfl, hblank, hl, hcontinues,
    hcontent, if_true]
  rfl

/-! ## Expressions -/

/-- **Behind a gap an expression goes on**, if the gap indents or a certain sign stands there. -/
theorem Cursor.Over.skipBlank?_gap (hgap : c.Over (gap blanks indent) d) (hblanks : AllBlank blanks)
    (h : Line.Begins x d.rest) (hx : isLayout x = false) (hcontinues : 0 < indent ∨ Line.continuesExpression x = true) :
    c.skipBlank? = some d := by
  obtain ⟨l, hl, -, hindent, hfirst, hcontent⟩ := hgap.nextContent? hblanks h
  obtain ⟨ys, hys⟩ := exists_gap blanks indent
  have hrest : c.rest = '\n' :: (ys ++ d.rest) := by rw [hgap.rest, hys, List.cons_append]
  have hhere : c.skipWhile Line.isBlankChar = c := Cursor.skipWhile_eq_self (by simp [hrest, Line.isBlankChar])
  have hthere : d.skipWhile Line.isBlankChar = d := by
    refine Cursor.skipWhile_eq_self ?_
    rw [h.first]
    rintro y ⟨⟩
    simp only [isLayout, Bool.or_eq_false_iff] at hx
    exact hx.1
  have hgoes : l.continuesExpression = true := by
    rcases hcontinues with hindented | hsign
    · simp [Line.Next.continuesExpression, hindent, hindented]
    · simp [Line.Next.continuesExpression, hfirst, hsign]
  rw [skipBlank?_of_newline (hhere.symm ▸ hrest), hhere, hl, Option.bind_some, if_pos hgoes, hcontent, hthere]

end Fluent
