import Fluent.Proofs.Faults
import Fluent.Proofs.Origins

/-!
# Junk is whole lines

Junk takes the place of an entry up to the next fence, or of stray lines in a row. Both are whole lines, and
the fault that made them junk is among them.

* `LineStart`: an offset where a line of a text starts.
* `Leads.cases_junk`: where junk comes from.
* `Leads.wholeLines`: a piece of junk on its own.
* `Leads.not_adjacent`: no two pieces of stray lines touch.
* `junk_whole_lines`: both for all junk of a source.
-/

namespace Fluent

/-- A line starts at the offset: nothing stands before it, or what does ends in a line feed. -/
def LineStart (source : List Char) (o : Nat) : Prop :=
  ∃ pre rest, source = pre ++ rest ∧ byteCount pre = o ∧ AtLineStart pre

/-- A fault of lines that open neither a comment nor an entry. -/
def Fault.isStray : Fault → Bool
  | unfinishedLine _ => true
  | _ => false

/-- Junk that is whole lines of a source, with its fault among them. It starts where a line does, ends where another one
does or with the source, and has the text between as its content. -/
structure Junk.WholeLines (source : String) (j : Junk) : Prop where
  start : LineStart source.toList j.location.span.start
  stop : LineStart source.toList j.location.span.stop ∨ j.location.span.stop = (Source.ofString source).size
  content : j.content = (Source.ofString source).slice j.location.span
  fault : j.fault.span.Between j.location.span.start j.location.span.stop

namespace Cursor

variable {source : String} {c : Cursor}

theorem StartsLine.lineStart (h : c.StartsLine source.toList) : LineStart source.toList c.offset := by
  obtain ⟨pre, hover, hpre⟩ := h
  have hoffset := hover.offset
  exact ⟨pre, c.rest, hover.rest, by simpa [ofChars] using hoffset.symm, hpre⟩

theorem AtBreak.lineStart (h : c.AtBreak source.toList) :
    LineStart source.toList c.offset ∨ c.offset = (Source.ofString source).size := by
  obtain ⟨pre, hover, hnil | hpre⟩ := h
  · have hrest := hover.rest
    have hoffset := hover.offset
    rw [hnil, List.append_nil] at hrest
    right
    rw [hoffset, ← hrest]
    simp [ofChars, Source.ofString]
  · exact .inl (StartsLine.lineStart ⟨pre, hover, hpre⟩)

end Cursor

/-- The tokens of a stretch lie between its ends, string literals with their quotes. -/
theorem Reads.between {P : List Char → Token → Prop} {c d : Cursor} {t : List Char} {ls : List Lexeme}
    (h : Reads P c t (ls.reverse.map .lexeme) d) (r : Nat) : Input.Between c.offset d.offset ⟨ls, r⟩ := by
  intro l hl
  have hl : l ∈ ls.reverse := List.mem_reverse.2 hl
  refine ⟨h.span_mem hl, ?_⟩
  intro raw hraw
  obtain ⟨before, text, e₁, e₂, after, -, hover, -, hspan, hspelled, -⟩ := h.mem hl
  have htext : text = '"' :: raw.toList ++ ['"'] := by
    rw [hraw] at hspelled
    exact hspelled
  have hoffset := hover.offset
  rw [htext, List.cons_append, byteCount, byteCount_append] at hoffset
  have hquote : Char.utf8Size '"' = 1 := rfl
  rw [hspan]
  simp only [byteCount, hquote] at hoffset ⊢
  omega

variable {source : String} {limit : Nat} {c : Cursor}

/-- The fault of an entry block lies in the block. -/
theorem between_blockEntry {m : Lexeme} {ms : List Lexeme} {bs : List Block} {fault : Fault} {t : List Char}
    {d : Cursor} (h : blockEntry (.ofString source) m ms bs = .error fault)
    (hreads : Reads Anywhere c t ((m :: ms).reverse.map .lexeme) d)
    (hposition : (fenceAt (.ofString source) (bs.flatMap Block.lexemes)).position = d.offset) :
    fault.Between c.offset d.offset := by
  have hfence : (fenceAt (.ofString source) (bs.flatMap Block.lexemes)).Between c.offset d.offset := by
    rw [Fence.Between, hposition]
    exact ⟨hreads.stretch.offset_le, Nat.le_refl _⟩
  rw [blockEntry] at h
  exact between_of_entry hfence (hreads.between 0) h

/-- Junk comes from stray lines in a row, or from an entry block that does not follow the grammar. -/
theorem Leads.cases_junk {s : Source} {bs : List Block} {j : Junk} (h : Leads s bs (.junk j)) :
    (∃ (span : Span) (spans : List Span) (bs' : List Block), bs = .stray span :: (spans.map .stray ++ bs') ∧
      (∀ b ∈ bs'.head?, b.isStray = false) ∧ strayJunk s (strayLexeme span) (spans.map strayLexeme) = .junk j) ∨
    ∃ m ms isTerm name start ending bs' fault, bs = .entry isTerm name start (m :: ms) ending :: bs' ∧
      blockEntry s m ms bs' = .error fault ∧ blockJunk s m bs' fault = .junk j := by
  generalize he : Entry.junk j = e at h
  cases h with
  | stray hfirst => exact .inl ⟨_, _, _, rfl, hfirst, rfl⟩
  | comment => cases he
  -- what the grammar reads of an entry is a message or a term
  | documented hok => cases derived_entry hok <;> cases he
  | entry hok => cases derived_entry hok <;> cases he
  | broken hfault => exact .inr ⟨_, _, _, _, _, _, _, _, rfl, hfault, rfl⟩

/-- Junk at the front of the blocks from a break on. -/
theorem Leads.wholeLines {bs : List Block} {j : Junk} (hc : c.AtBreak source.toList)
    (hbs : blocksFrom limit c = bs) (h : Leads (.ofString source) bs (.junk j)) : j.WholeLines source := by
  rcases h.cases_junk with
    ⟨span, spans, bs', rfl, -, hj⟩ | ⟨m, ms, isTerm, name, start, ending, bs', fault, rfl, hfault, hj⟩
  · obtain ⟨hstart, d, hd, -, hlt, hstop⟩ := blocksFrom_strays hc hbs
    obtain rfl := Entry.junk.inj hj
    have hne : c.rest ≠ [] := (blocksFrom_eq_cons hbs).1
    have hordered : span.start ≤
        ((strayLexeme span :: spans.map strayLexeme).getLast?.getD (strayLexeme span)).span.stop := by
      rw [hstart, ← hstop]
      exact Nat.le_of_lt hlt
    exact {
      start := hstart ▸ (hc.startsLine_of_ne_nil hne).lineStart
      stop := hstop ▸ hd.lineStart
      content := rfl
      fault := ⟨Nat.le_refl _, hordered, Nat.le_refl _⟩ }
  · obtain ⟨hline, hstart, t, d, hreads, hd, hposition⟩ := blocksFrom_entry hc hbs
    obtain rfl := Entry.junk.inj hj
    have hspan := (between_blockEntry hfault hreads hposition).span
    exact {
      start := hstart ▸ hline.lineStart
      stop := hposition ▸ hd.lineStart
      content := rfl
      fault := by
        show fault.span.Between m.span.start _
        rw [hstart]
        exact hposition ▸ hspan }

/-- Stray lines that made junk, seen from the break where they start: no further stray line follows. -/
theorem Leads.strays {bs : List Block} {j : Junk} (hc : c.AtBreak source.toList) (hbs : blocksFrom limit c = bs)
    (h : Leads (.ofString source) bs (.junk j)) (hj : j.fault.isStray = true) :
    j.location.span.start = c.offset ∧ (∃ b ∈ bs.head?, b.isStray = true) ∧
      ∃ d : Cursor, d.AtBreak source.toList ∧ d.offset = j.location.span.stop ∧
        ∀ b ∈ (blocksFrom limit d).head?, b.isStray = false := by
  rcases h.cases_junk with
    ⟨span, spans, bs', rfl, hfirst, hjunk⟩ | ⟨m, ms, isTerm, name, start, ending, bs', fault, rfl, hfault, hjunk⟩
  · obtain ⟨hstart, d, hd, hrest, -, hstop⟩ := blocksFrom_strays hc hbs
    obtain rfl := Entry.junk.inj hjunk
    exact ⟨hstart, ⟨_, rfl, rfl⟩, d, hd, hstop, hrest ▸ hfirst⟩
  · obtain ⟨-, -, t, d, hreads, -, hposition⟩ := blocksFrom_entry hc hbs
    obtain rfl := Entry.junk.inj hjunk
    have hstray := (between_blockEntry hfault hreads hposition).not_stray
    cases fault with
    | unfinishedLine span => exact absurd rfl (hstray span)
    | _ => cases hj

/-- Stray lines that made junk have no further stray line behind them. -/
theorem Leads.not_adjacent {d : Cursor} {j j' : Junk} (hc : c.AtBreak source.toList)
    (h : Leads (.ofString source) (blocksFrom limit c) (.junk j)) (hj : j.fault.isStray = true)
    (hd : d.AtBreak source.toList) (h' : Leads (.ofString source) (blocksFrom limit d) (.junk j'))
    (hj' : j'.fault.isStray = true) : j.location.span.stop ≠ j'.location.span.start := by
  intro htouch
  obtain ⟨-, -, e, ⟨pre, hover, -⟩, hstop, hnone⟩ := h.strays hc rfl hj
  obtain ⟨hstart, ⟨b, hb, hstray⟩, -⟩ := h'.strays hd rfl hj'
  obtain ⟨pre', hover', -⟩ := hd
  obtain rfl : e = d := Cursor.eq_of_offset_eq hover hover' (by rw [hstop, htouch, hstart])
  rw [hnone b hb] at hstray
  cases hstray

/-- **Junk is whole lines with its own fault.** It starts at a line start and ends at one or with the source,
its content is the text between, and its fault is no further out. Junk of stray lines takes all the stray
lines in a row, so no two pieces of it touch. -/
theorem junk_whole_lines (limit : Nat) (source : String) :
    (∀ j, .junk j ∈ (parse ⟨.preserve, limit⟩ source).body → j.WholeLines source) ∧
      ∀ j j', .junk j ∈ (parse ⟨.preserve, limit⟩ source).body →
        .junk j' ∈ (parse ⟨.preserve, limit⟩ source).body →
        j.fault.isStray = true → j'.fault.isStray = true → j.location.span.stop ≠ j'.location.span.start := by
  refine ⟨?_, ?_⟩
  · intro j hj
    obtain ⟨c, hc, hleads⟩ := leads_of_mem_body hj
    exact hleads.wholeLines hc rfl
  · intro j j' hj hj' hstray hstray'
    obtain ⟨c, hc, hleads⟩ := leads_of_mem_body hj
    obtain ⟨d, hd, hleads'⟩ := leads_of_mem_body hj'
    exact hleads.not_adjacent hc hstray hd hleads' hstray'

end Fluent
