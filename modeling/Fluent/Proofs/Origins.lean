import Fluent.Proofs.Grouping

/-!
# Where entries come from

Every entry of a body is made from the block at some line start, or from two of them, or from stray lines
in a row. So what is said of every entry need only be said of what the blocks from a line start on begin with.

* `Leads s bs e`: what the blocks `bs` begin with makes the entry `e`.
* `Grouped.leads`: every entry is made at the front of some last part of the blocks.
* `Cursor.AtBreak`: a cursor between two blocks, where a line starts or the source ends.
* `blocksFrom_split`: a last part of the blocks are the blocks from such a cursor on.
* `blocksFrom_strays`: stray lines in a row reach from one such cursor to the next.
* `leads_of_mem_body`: every entry of a source is made behind such a cursor.
-/

namespace Fluent

/-- What blocks begin with makes an entry. These are the cases of `Grouped` for a single entry, without what the other
blocks make. -/
inductive Leads (s : Source) : List Block → Entry → Prop
  | stray {span : Span} {spans : List Span} {bs : List Block} : (∀ b ∈ bs.head?, b.isStray = false) →
      Leads s (.stray span :: (spans.map .stray ++ bs))
        (strayJunk s (strayLexeme span) (spans.map strayLexeme))
  | comment {l close : Lexeme} {ls : List Lexeme} {bs : List Block} :
      Leads s (.comment (l :: ls) close :: bs) (.comment (joinComment s l ls))
  | documented {l close m : Lexeme} {ls ms : List Lexeme} {isTerm : Bool} {name : String} {start : Nat}
      {ending : Ending} {bs : List Block} {e : Entry} : blockEntry s m ms bs = .ok e →
      Leads s (.comment (l :: ls) close :: .entry isTerm name start (m :: ms) ending :: bs)
        (e.document (joinComment s l ls))
  | entry {m : Lexeme} {ms : List Lexeme} {isTerm : Bool} {name : String} {start : Nat} {ending : Ending}
      {bs : List Block} {e : Entry} : blockEntry s m ms bs = .ok e →
      Leads s (.entry isTerm name start (m :: ms) ending :: bs) e
  | broken {m : Lexeme} {ms : List Lexeme} {isTerm : Bool} {name : String} {start : Nat} {ending : Ending}
      {bs : List Block} {fault : Fault} : blockEntry s m ms bs = .error fault →
      Leads s (.entry isTerm name start (m :: ms) ending :: bs) (blockJunk s m bs fault)

/-- What leads a last part of some blocks does so behind more of them. -/
theorem exists_leads_append {s : Source} {e : Entry} (as : List Block) {bs : List Block}
    (h : ∃ cs bs', bs = cs ++ bs' ∧ Leads s bs' e) : ∃ cs bs', as ++ bs = cs ++ bs' ∧ Leads s bs' e := by
  obtain ⟨cs, bs', rfl, hleads⟩ := h
  exact ⟨as ++ cs, bs', (List.append_assoc ..).symm, hleads⟩

/-- **Every entry is made at the front of some last part of the blocks.** -/
theorem Grouped.leads {s : Source} {bs : List Block} {es : List Entry} (h : Grouped s bs es) {e : Entry}
    (he : e ∈ es) : ∃ as bs', bs = as ++ bs' ∧ Leads s bs' e := by
  induction h with
  | nil => cases he
  | @blank span bs es _ ih => exact exists_leads_append [.blank span] (ih he)
  | @stray span spans bs es hfirst _ ih =>
    rcases List.mem_cons.1 he with rfl | he
    · exact ⟨[], _, rfl, .stray hfirst⟩
    · exact exists_leads_append (.stray span :: spans.map .stray) (ih he)
  | @comment l close ls bs es _ _ ih =>
    rcases List.mem_cons.1 he with rfl | he
    · exact ⟨[], _, rfl, .comment⟩
    · exact exists_leads_append [.comment (l :: ls) close] (ih he)
  | @documented l close m ls ms isTerm name start ending bs es e' _ hok _ ih =>
    rcases List.mem_cons.1 he with rfl | he
    · exact ⟨[], _, rfl, .documented hok⟩
    · exact exists_leads_append [.comment (l :: ls) close, .entry isTerm name start (m :: ms) ending] (ih he)
  | @entry m ms isTerm name start ending bs es e' hok _ ih =>
    rcases List.mem_cons.1 he with rfl | he
    · exact ⟨[], _, rfl, .entry hok⟩
    · exact exists_leads_append [.entry isTerm name start (m :: ms) ending] (ih he)
  | @broken m ms isTerm name start ending bs es fault hfault _ ih =>
    rcases List.mem_cons.1 he with rfl | he
    · exact ⟨[], _, rfl, .broken hfault⟩
    · exact exists_leads_append [.entry isTerm name start (m :: ms) ending] (ih he)

/-! ## Between two blocks -/

/-- A cursor where a line of the source starts, or the source ends. This is where blocks begin and end. -/
def Cursor.AtBreak (source : List Char) (c : Cursor) : Prop :=
  ∃ pre, (Cursor.ofChars source).Over pre c ∧ (c.rest = [] ∨ AtLineStart pre)

namespace Cursor

variable {source : List Char} {c d : Cursor}

theorem atBreak_ofChars (source : List Char) : (ofChars source).AtBreak source := ⟨[], .refl _, .inr (.inl rfl)⟩

theorem AtBreak.startsLine (h : c.AtBreak source) : c.rest = [] ∨ c.StartsLine source := by
  obtain ⟨pre, hover, hbreak⟩ := h
  exact hbreak.imp_right fun hpre => ⟨pre, hover, hpre⟩

theorem AtBreak.startsLine_of_ne_nil (h : c.AtBreak source) (hc : c.rest ≠ []) : c.StartsLine source :=
  h.startsLine.resolve_left hc

/-- Cursors of a source at one offset are the same. -/
theorem eq_of_offset_eq {pre pre' : List Char} (hc : (ofChars source).Over pre c)
    (hd : (ofChars source).Over pre' d) (h : c.offset = d.offset) : c = d := by
  have hcount : byteCount pre = byteCount pre' := by
    have hc' := hc.offset
    have hd' := hd.offset
    omega
  have hrest : some c.rest = some d.rest := by
    rw [← fromOffset?_append pre c.rest, ← hc.rest, hcount, hd.rest, fromOffset?_append]
  cases c
  cases d
  simp_all

end Cursor

variable {source : List Char} {limit : Nat} {c : Cursor}

/-- A block lies over its lines. -/
theorem over_block (limit : Nat) (c : Cursor) : ∃ t, c.Over t (block limit c).2 := by
  obtain ⟨t, hreads⟩ := reads_block limit c
  exact ⟨t, hreads.stretch⟩

theorem atBreak_block (limit : Nat) (h : c.StartsLine source) : (block limit c).2.AtBreak source := by
  obtain ⟨t, hover⟩ := over_block limit c
  obtain ⟨pre, hpre, -⟩ := id h
  rcases startsLine_block limit h with hnil | ⟨pre', hover', hline⟩
  · exact ⟨pre ++ t, hpre.trans hover, .inl hnil⟩
  · exact ⟨pre', hover', .inr hline⟩

/-- Where there are blocks, the first is the one at the cursor. -/
theorem blocksFrom_eq_cons {b : Block} {bs : List Block} (h : blocksFrom limit c = b :: bs) :
    c.rest ≠ [] ∧ (block limit c).1 = b ∧ blocksFrom limit (block limit c).2 = bs := by
  rw [blocksFrom] at h
  split at h
  · cases h
  · rename_i hrest
    obtain ⟨hb, hbs⟩ := List.cons.inj h
    exact ⟨by rw [hrest]; exact List.cons_ne_nil _ _, hb, hbs⟩

/-- **A last part of the blocks** are the blocks from a break on. -/
theorem blocksFrom_split {as bs : List Block} (hc : c.AtBreak source) (h : blocksFrom limit c = as ++ bs) :
    ∃ d : Cursor, d.AtBreak source ∧ blocksFrom limit d = bs := by
  induction as generalizing c with
  | nil => exact ⟨c, hc, h⟩
  | cons a as ih =>
    obtain ⟨hne, -, hrest⟩ := blocksFrom_eq_cons h
    exact ih (atBreak_block limit (hc.startsLine_of_ne_nil hne)) hrest

/-- A stray line reaches up to the next line. -/
theorem block_eq_stray {span : Span} (h : (block limit c).1 = .stray span) :
    (block limit c).2 = c.nextLine ∧ span = ⟨c.offset, c.nextLine.offset⟩ := by
  have hblock := blockReads limit c
  rw [h] at hblock
  generalize (block limit c).2 = d at hblock ⊢
  cases hblock with
  | stray => exact ⟨rfl, rfl⟩

/-- **Stray lines in a row** reach from one break to the next. -/
theorem blocksFrom_strays {span : Span} {spans : List Span} {bs : List Block} (hc : c.AtBreak source)
    (h : blocksFrom limit c = .stray span :: (spans.map .stray ++ bs)) :
    span.start = c.offset ∧ ∃ d : Cursor, d.AtBreak source ∧ blocksFrom limit d = bs ∧ c.offset < d.offset ∧
      d.offset = ((strayLexeme span :: spans.map strayLexeme).getLast?.getD (strayLexeme span)).span.stop := by
  induction spans generalizing c span with
  | nil =>
    obtain ⟨hne, hb, hbs⟩ := blocksFrom_eq_cons h
    obtain ⟨hnext, rfl⟩ := block_eq_stray hb
    refine ⟨rfl, c.nextLine, ?_, ?_, Cursor.offset_lt_nextLine hne, rfl⟩
    · rw [← hnext]
      exact atBreak_block limit (hc.startsLine_of_ne_nil hne)
    · rw [← hnext]
      exact hbs
  | cons span' spans ih =>
    obtain ⟨hne, hb, hbs⟩ := blocksFrom_eq_cons h
    obtain ⟨hnext, rfl⟩ := block_eq_stray hb
    obtain ⟨-, d, hd, hbs', hlt, hoffset⟩ := ih (atBreak_block limit (hc.startsLine_of_ne_nil hne)) hbs
    have hlt' : c.offset < d.offset := by
      rw [hnext] at hlt
      exact Nat.lt_trans (Cursor.offset_lt_nextLine hne) hlt
    refine ⟨rfl, d, hd, hbs', hlt', ?_⟩
    rw [hoffset, List.map_cons, List.getLast?_cons_cons]
    simp [List.getLast?_cons]

/-- A comment block holds the comment lines in a row. -/
theorem block_eq_comment {l close : Lexeme} {ls : List Lexeme} (h : (block limit c).1 = .comment (l :: ls) close) :
    ∃ level, Line.commentLevel? c.rest = some level ∧ l = commentLine level c ∧
      ls = (commentLines level c.nextLine).1 ∧ (block limit c).2 = (commentLines level c.nextLine).2 := by
  have hblock := blockReads limit c
  rw [h] at hblock
  generalize (block limit c).2 = d at hblock ⊢
  cases hblock with
  | @comment level _ hlevel => exact ⟨level, hlevel, rfl, rfl, rfl⟩

theorem Laid.atBreak {source : String} {c d : Cursor} {pre : List Char} {bs : List Block}
    (h : Laid source c bs d) (hover : (Cursor.ofChars source.toList).Over pre c) : c.AtBreak source.toList := by
  cases h with
  | nil hrest => exact ⟨pre, hover, .inl hrest⟩
  | cons hline =>
    obtain ⟨pre', hover', hpre⟩ := hline
    exact ⟨pre', hover', .inr hpre⟩

/-- An entry block at a line start: where its tokens are, and where what follows begins. -/
theorem blocksFrom_entry {source : String} {isTerm : Bool} {name : String} {start : Nat} {m : Lexeme} {ms : List Lexeme}
    {ending : Ending} {bs : List Block} (hc : c.AtBreak source.toList)
    (h : blocksFrom limit c = .entry isTerm name start (m :: ms) ending :: bs) :
    c.StartsLine source.toList ∧ m.span.start = c.offset ∧ ∃ (t : List Char) (d : Cursor),
      Reads Anywhere c t ((m :: ms).reverse.map .lexeme) d ∧ d.AtBreak source.toList ∧
      (fenceAt (.ofString source) (bs.flatMap Block.lexemes)).position = d.offset := by
  obtain ⟨e, hlaid⟩ := laid_blocksFrom limit hc.startsLine
  rw [h] at hlaid
  obtain ⟨pre, hover, -⟩ := id hc
  cases hlaid with
  | cons hline hfits hreads hrest =>
    obtain ⟨rfl, l, ls, hl, -, hstart, -⟩ := hfits
    obtain ⟨rfl, rfl⟩ := List.cons.inj hl
    have hover' := hover.trans hreads.stretch
    exact ⟨hline, hstart, _, _, hreads, hrest.atBreak hover', hrest.position_fenceAt hover'⟩

/-- Where an entry of a source is made: at the front of the blocks from some break on. -/
theorem leads_of_mem_body {limit : Nat} {source : String} {e : Entry}
    (he : e ∈ body (.ofString source) (tokenize limit source.toList)) :
    ∃ c : Cursor, c.AtBreak source.toList ∧ Leads (.ofString source) (blocksFrom limit c) e := by
  obtain ⟨as, bs, hblocks, hleads⟩ := (grouped_body limit source).leads he
  obtain ⟨c, hc, rfl⟩ := blocksFrom_split (Cursor.atBreak_ofChars source.toList) hblocks
  exact ⟨c, hc, hleads⟩

end Fluent
