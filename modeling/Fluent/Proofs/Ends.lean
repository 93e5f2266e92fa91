import Fluent.Proofs.Neighbours
import Fluent.Proofs.Parts

/-!
# The end of a pattern

The last text of a pattern ends with content, unless all that its line has in front of a closing brace are blanks that
begin with no space. Then the line counts as one of the pattern, and the line break in front of it is text.

* `TextChunk.Stranded`: such a text.
* `solid_last_iff`: the last text of a pattern ends with content exactly if it is not stranded.
-/

namespace Fluent

/-- Line breaks and an indentation, in front of blanks that only a closing brace follows. The blanks are all that is
trimmed at the end of a pattern, so the breaks and the indentation are left of its last text. -/
def TextChunk.Stranded (source : List Char) (chunk : TextChunk) : Prop :=
  ∃ (breaks spaces : Nat) (blanks rest : List Char),
    chunk.value.toList = List.replicate (breaks + 1) '\n' ++ List.replicate spaces ' ' ∧
      fromOffset? chunk.location.span.start source = some (blanks ++ '}' :: rest) ∧ blanks ≠ [] ∧
      blanks.head? ≠ some ' ' ∧ ∀ x ∈ blanks, Line.isBlankChar x = true

variable {source : List Char} {m : LineMap} {i j : Input} {chunk : TextChunk}

/-- The elements of a pattern end where the pattern does. -/
theorem Derives.ends_elements {es : List PatternElement} (h : Derives m i (.elements es) j)
    (hneat : Neat source i.lexemes) (hlast : es.getLast? = some (.text chunk)) :
    ∃ l : Lexeme, l.token = .pureText chunk.value ∧ chunk.location = m.locate l.span ∧ l.EndsPattern source := by
  induction es generalizing i with
  | nil => cases hlast
  | cons e es ih =>
    cases h with
    | @elementsText _ i₁ _ text span _ htext hes =>
      cases es with
      | nil =>
        obtain rfl : chunk = ⟨text, m.locate span⟩ := by simpa [eq_comm] using hlast
        cases hes with
        | elementsEnd hend =>
          have hends := hneat.ends
          rw [htext.lexemes, hend.lexemes] at hends
          exact ⟨⟨.pureText text, span⟩, rfl, rfl, (List.isChain_cons_cons.1 hends).1 rfl⟩
      | cons e' es =>
        rw [List.getLast?_cons_cons] at hlast
        exact ih hes (hneat.suffix htext.suffix) hlast
    | elementsPlaceable hp hes =>
      cases es with
      | nil => cases hlast
      | cons e' es =>
        rw [List.getLast?_cons_cons] at hlast
        exact ih hes (hneat.suffix hp.writes.suffix) hlast

theorem TextChunk.Stranded.not_solid (h : chunk.Stranded source) : ¬ Solid chunk.value.toList := by
  obtain ⟨breaks, spaces, -, -, hvalue, -⟩ := h
  intro hsolid
  apply hsolid.not_allLayout
  intro x hx
  rw [hvalue] at hx
  simp only [List.mem_append, List.mem_replicate] at hx
  rcases hx with ⟨-, rfl⟩ | ⟨-, rfl⟩ <;> rfl

/-- **The last text of a pattern** ends with content exactly if it is not stranded. Where it is stranded, blanks stood
alone on the last line of the pattern in front of a closing brace: they were trimmed away, but the breaks and the
indentation in front of them were not. -/
theorem solid_last_iff (o : ParseOptions) (source : String) {p : Pattern} (hp : p ∈ (parse o source).patterns)
    {chunk : TextChunk} (hlast : p.elements.getLast? = some (.text chunk)) :
    Solid chunk.value.toList ↔ ¬ chunk.Stranded source.toList := by
  refine ⟨fun hsolid hstranded => hstranded.not_solid hsolid, fun hnot => ?_⟩
  obtain ⟨e, he, hpart⟩ := Resource.mem_patterns hp
  obtain ⟨c, isTerm, a, hc, ha, i, j, hsuffix, hderives⟩ := exists_run_of_part he hpart
  have hneat := (neat_run hc ha o.maxNesting).suffix hsuffix
  cases hderives with
  | pattern hmarker hes _ =>
    obtain ⟨l, hl, hlocation, hends⟩ := hes.ends_elements (hneat.suffix hmarker.suffix) hlast
    refine (hends chunk.value hl).resolve_right ?_
    rintro ⟨breaks, spaces, blanks, rest, htoken, hsource, hblanks⟩
    apply hnot
    rw [hl] at htoken
    refine ⟨breaks, spaces, blanks, rest, ?_, ?_, hblanks⟩
    · rw [Token.pureText.inj htoken, String.toList_ofList]
    · rw [hlocation]
      exact hsource

/-- What the patterns of a resource end with, where that is text. -/
def Resource.lastTexts (r : Resource) : List TextChunk :=
  r.patterns.filterMap fun p => p.elements.getLast?.bind (·.chunk?)

theorem Resource.mem_lastTexts {r : Resource} {chunk : TextChunk} (h : chunk ∈ r.lastTexts) :
    ∃ p ∈ r.patterns, p.elements.getLast? = some (.text chunk) := by
  obtain ⟨p, hp, hchunk⟩ := List.mem_filterMap.1 h
  obtain ⟨e, he, hchunk⟩ := Option.bind_eq_some_iff.1 hchunk
  cases e with
  | text chunk' => exact ⟨p, hp, Option.some.inj hchunk ▸ he⟩
  | placeable inner => cases hchunk

/-- The text of a value with a carriage return at the end of its line ends with content. -/
theorem solid_last_crlf :
    ∃ p ∈ (parse ⟨.preserve, 100⟩ "m = foo \r\n").patterns, ∃ chunk : TextChunk,
      p.elements.getLast? = some (.text chunk) ∧ ¬ chunk.Stranded "m = foo \r\n".toList ∧
        Solid chunk.value.toList := by
  have htexts : (parse ⟨.preserve, 100⟩ "m = foo \r\n").lastTexts = [⟨"foo", ⟨⟨4, 7⟩, ⟨0, 4⟩, ⟨0, 7⟩⟩⟩] := by
    decide +kernel
  obtain ⟨p, hp, hlast⟩ := Resource.mem_lastTexts (htexts ▸ List.mem_singleton_self _)
  have hsolid : Solid "foo".toList := ⟨'o', by decide, by decide⟩
  exact ⟨p, hp, _, hlast, (solid_last_iff _ _ hp hlast).1 hsolid, hsolid⟩

/-- A line that has only a tab in front of the closing brace is text of the last variant. -/
theorem exists_stranded :
    ∃ p ∈ (parse ⟨.preserve, 100⟩ "m = \x7b $x ->\n *[a] foo\n  bar\n   \t\x7d\n").patterns, ∃ chunk : TextChunk,
      p.elements.getLast? = some (.text chunk) ∧ chunk.value.toList.getLast? = some ' ' := by
  have htexts : (parse ⟨.preserve, 100⟩ "m = \x7b $x ->\n *[a] foo\n  bar\n   \t\x7d\n").lastTexts =
      [⟨"\n ", ⟨⟨31, 31⟩, ⟨3, 3⟩, ⟨3, 3⟩⟩⟩] := by
    decide +kernel
  obtain ⟨p, hp, hlast⟩ := Resource.mem_lastTexts (htexts ▸ List.mem_singleton_self _)
  exact ⟨p, hp, _, hlast, by decide⟩

end Fluent
