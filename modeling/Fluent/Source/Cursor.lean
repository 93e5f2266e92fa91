import Fluent.Source.Place
import Fluent.Source.Line

/-!
# Reading positions

A `Cursor` is an offset and the text from there on. Every move goes forward, and the lemmas at the
end bound what is left: that is what ends the loops over a source.
-/

namespace Fluent

/-- A byte offset and the text that follows it. -/
structure Cursor where
  offset : Nat
  rest : List Char
  deriving Repr

namespace Cursor

def ofChars (source : List Char) : Cursor := ⟨0, source⟩

/-- Past the next `n` characters. -/
def skip (n : Nat) (c : Cursor) : Cursor :=
  ⟨c.offset + byteCount (c.rest.take n), c.rest.drop n⟩

/-- Past the longest run of characters that satisfy `p`. -/
def skipWhile (p : Char → Bool) (c : Cursor) : Cursor :=
  ⟨c.offset + byteCount (c.rest.takeWhile p), c.rest.dropWhile p⟩

/-- The next line feed, or the end of the source. -/
def lineEnd (c : Cursor) : Cursor := c.skipWhile (· != '\n')

/-- The start of the next line, or the end of the source. -/
def nextLine (c : Cursor) : Cursor := c.lineEnd.skip 1

/-- The content of a line found from here. -/
def toContent (c : Cursor) (l : Line.Next) : Cursor := ⟨c.offset + l.distance, l.content⟩

/-- The first line from here, a line start, that is not blank. -/
def skipBlankLines (c : Cursor) : Cursor :=
  match _h : c.rest with
  | [] => c
  | _ :: _ => if Line.isBlank c.rest then c.nextLine.skipBlankLines else c
termination_by c.rest.length
decreasing_by
  have := (List.dropWhile_suffix (fun c : Char => c != '\n') (l := c.rest)).length_le
  simp only [nextLine, lineEnd, skip, skipWhile, List.length_drop]
  have : 0 < c.rest.length := by simp [_h]
  omega

/-- Where an expression goes on: past blanks, and past a line break if the next line with content
belongs to the expression. -/
def skipBlank? (c : Cursor) : Option Cursor :=
  let here := c.skipWhile Line.isBlankChar
  match here.rest with
  | [] => none
  | '\n' :: _ =>
    match Line.nextContent? here.rest with
    | some l =>
      if l.continuesExpression then some ((here.toContent l).skipWhile Line.isBlankChar) else none
    | none => none
  | _ => some here

@[simp] theorem length_rest_skip (n : Nat) (c : Cursor) :
    (c.skip n).rest.length = c.rest.length - n := by
  simp [skip]

theorem length_rest_skipWhile_le (p : Char → Bool) (c : Cursor) :
    (c.skipWhile p).rest.length ≤ c.rest.length :=
  (List.dropWhile_suffix p).length_le

theorem length_rest_lineEnd_le (c : Cursor) : c.lineEnd.rest.length ≤ c.rest.length :=
  length_rest_skipWhile_le _ c

theorem length_rest_nextLine_le (c : Cursor) : c.nextLine.rest.length ≤ c.rest.length := by
  have := c.length_rest_lineEnd_le
  simp only [nextLine, length_rest_skip]
  omega

theorem length_rest_nextLine_lt (c : Cursor) (h : c.rest ≠ []) :
    c.nextLine.rest.length < c.rest.length := by
  have := c.length_rest_lineEnd_le
  have := List.length_pos_iff.2 h
  simp only [nextLine, length_rest_skip]
  omega

/-- An expression goes on behind the blanks of its line, or in a later line that belongs to it. -/
theorem skipBlank?_eq_some {c d : Cursor} (h : c.skipBlank? = some d) :
    (d = c.skipWhile Line.isBlankChar ∧ d.rest ≠ [] ∧ ∀ rest, d.rest ≠ '\n' :: rest) ∨
      ∃ l, Line.nextContent? (c.skipWhile Line.isBlankChar).rest = some l ∧ l.continuesExpression = true ∧
        d = ((c.skipWhile Line.isBlankChar).toContent l).skipWhile Line.isBlankChar := by
  unfold skipBlank? at h
  simp only at h
  split at h
  · cases h
  · split at h
    · rename_i l hl
      split at h
      · rename_i hcontinues
        exact .inr ⟨l, hl, hcontinues, (Option.some.inj h).symm⟩
      · cases h
    · cases h
  · rename_i hnil hbreak
    obtain rfl := Option.some.inj h
    exact .inl ⟨rfl, hnil, hbreak⟩

theorem length_rest_skipBlank_le {c d : Cursor} (h : c.skipBlank? = some d) :
    d.rest.length ≤ c.rest.length := by
  have hhere := length_rest_skipWhile_le Line.isBlankChar c
  obtain ⟨rfl, -⟩ | ⟨l, hl, -, rfl⟩ := skipBlank?_eq_some h
  · exact hhere
  · have hcontent := Line.length_content_lt hl
    have hskip := length_rest_skipWhile_le Line.isBlankChar ((c.skipWhile Line.isBlankChar).toContent l)
    simp only [toContent] at *
    omega

theorem length_rest_skipBlankLines_le (c : Cursor) :
    c.skipBlankLines.rest.length ≤ c.rest.length := by
  fun_induction skipBlankLines c with
  | case1 => exact Nat.le_refl _
  | case2 c _ _ _ _ ih => exact Nat.le_trans ih c.length_rest_nextLine_le
  | case3 => exact Nat.le_refl _

end Cursor

end Fluent
