import Fluent.Proofs.Coverage
import Fluent.Proofs.Excerpt
import Fluent.Proofs.Misled
import Fluent.Proofs.Unlocated

/-!
# Entries by themselves

An entry takes nothing from the lines around it. The text at its location, read as a source of its own, holds the
same entry and nothing else.

* `Piece limit source pre s post e`: behind `pre` a source holds the text `s`, which by itself is the entry `e`.
* `piece_strays`, `piece_comment`, `piece_entry`, `piece_broken`: what blocks make is such a piece.
* `Comment.Clipped`: a comment that loses the carriage return that it ends with.
* `Junk.Misled`: junk that breaks off at the name of an argument whose colon stands behind the junk.
* `parse_slice`: an entry of a body is the entry of its slice, but for two things. A comment that ends with a
  carriage return loses it with the line break behind it, and such junk has another fault.
-/

namespace Fluent

/-- How far on a text stands that begins at a location. -/
def Location.place (l : Location) : Shift := ⟨l.span.start, l.start.line⟩

/-- The text from an offset on. -/
def Source.after (s : Source) (offset : Nat) : List Char := (fromOffset? offset s.chars).getD []

/-- A source holds a text from a line start on, and by itself the text is one entry. -/
structure Piece (limit : Nat) (source : String) (pre : List Char) (s : String) (post : List Char) (e : Entry) :
    Prop where
  chars : source.toList = pre ++ (s.toList ++ post)
  lineStart : AtLineStart pre
  reads : (parse ⟨.preserve, limit⟩ s).body = [e]
  location : e.location = (Source.ofString s).lines.locate ⟨0, byteCount s.toList⟩

variable {limit : Nat} {source s : String} {pre post t gap : List Char} {c : Cursor} {e : Entry}

theorem exists_toList (t : List Char) : ∃ s : String, s.toList = t := ⟨String.ofList t, String.toList_ofList⟩

/-- A text behind another one is the slice at its place. -/
theorem slice_of_chars (hchars : source.toList = pre ++ (s.toList ++ post)) :
    (Source.ofString source).slice ⟨byteCount pre, byteCount pre + byteCount s.toList⟩ = s := by
  have hover : (Cursor.ofChars source.toList).Over pre ⟨byteCount pre, s.toList ++ post⟩ :=
    ⟨hchars, (Nat.zero_add _).symm⟩
  have hover' : (⟨byteCount pre, s.toList ++ post⟩ : Cursor).Over s.toList
      ⟨byteCount pre + byteCount s.toList, post⟩ := ⟨rfl, rfl⟩
  rw [Cursor.Over.slice hover hover', String.ofList_toList]

/-- What begins a text stands, behind another one, where that one ends. -/
theorem Location.place_shift (pre : List Char) (s : String) (stop : Nat) :
    (((Source.ofString s).lines.locate ⟨0, stop⟩).shift (.behind pre)).place = .behind pre := by
  have hline : ((Source.ofString s).lines.position 0).line = 0 := by
    show ((LineMap.ofChars s.toList).position (byteCount [])).line = 0
    rw [show s.toList = [] ++ s.toList from rfl, LineMap.position_append]
    rfl
  simp only [place, shift, Span.move, Position.shift, hline, LineMap.locate, Shift.behind, Nat.zero_add]

namespace Piece

/-- The slice at the location of the entry, further on in the source, is the piece. -/
theorem slice (h : Piece limit source pre s post e) {l : Location} (hl : l = e.location.shift (.behind pre)) :
    (Source.ofString source).slice l.span = s ∧ l.place = .behind pre ∧
      (Source.ofString source).after l.span.stop = post := by
  have hspan : l.span = ⟨byteCount pre, byteCount pre + byteCount s.toList⟩ := by
    rw [hl, h.location]
    simp [Location.shift, LineMap.locate, Span.move, Shift.behind, Nat.add_comm]
  refine ⟨?_, ?_, ?_⟩
  · rw [hspan, slice_of_chars h.chars]
  · rw [hl, h.location]
    exact Location.place_shift pre s _
  · have hstop : l.span.stop = byteCount (pre ++ s.toList) := by rw [hspan, byteCount_append]
    rw [hstop, Source.after, Source.ofString, h.chars, ← List.append_assoc, fromOffset?_append, Option.getD_some]

end Piece

/-- What the one block of a text makes is all of its body. -/
theorem body_of_grouped {bs : List Block} {es : List Entry} (hbs : blocks limit s.toList = bs)
    (h : Grouped (.ofString s) bs es) : (parse ⟨.preserve, limit⟩ s).body = es := by
  have hbody := grouped_body limit s
  rw [hbs] at hbody
  exact hbody.unique h

theorem allWithin_of_blocks {bs : List Block} (hbs : blocks limit s.toList = bs) :
    AllWithin s (bs.flatMap Block.lexemes) := hbs ▸ blocksWithin limit s

/-- A location that takes in one more byte at its end, on the same line. -/
def Location.grown (l : Location) : Location :=
  ⟨⟨l.span.start, l.span.stop + 1⟩, l.start, ⟨l.stop.line, l.stop.column + 1⟩⟩

/-- A comment that ends with a carriage return. By itself it is the comment without that one, which is taken for a part
of the line break, and it ends before it. -/
structure Comment.Clipped (limit : Nat) (source : String) (d d₁ : Comment) : Prop where
  alone : (parse ⟨.preserve, limit⟩ ((Source.ofString source).slice d.location.span)).body = [.comment d₁]
  level : d₁.level = d.level
  content : d.content = d₁.content ++ "\r"
  location : d.location = (d₁.location.shift d.location.place).grown

/-- The lines of the block at a line start: they end where the next block begins. -/
theorem lines_of_blocksFrom {b : Block} {bs : List Block} {r : List Char} (hchars : source.toList = pre ++ r)
    (hpre : AtLineStart pre) (h : blocksFrom limit ⟨0 + byteCount pre, r⟩ = b :: bs) :
    ∃ (s : String) (post : List Char), r = s.toList ++ post ∧ s.toList ≠ [] ∧ Ended post s.toList ∧
      (block limit ((Cursor.ofChars s.toList).move (byteCount pre) post)).1 = b ∧
      (block limit ((Cursor.ofChars s.toList).move (byteCount pre) post)).2.rest = post ∧
      (fenceAt (.ofString source) (bs.flatMap Block.lexemes)).position = byteCount s.toList + byteCount pre := by
  obtain ⟨hne, hb, hbs⟩ := blocksFrom_eq_cons h
  have hover : (Cursor.ofChars source.toList).Over pre ⟨0 + byteCount pre, r⟩ := ⟨hchars, rfl⟩
  obtain ⟨t, hlines⟩ := over_block limit ⟨0 + byteCount pre, r⟩
  have hends := startsLine_block limit ⟨pre, hover, hpre⟩
  have hshorter := length_rest_block_lt limit ⟨0 + byteCount pre, r⟩ hne
  generalize hx : block limit ⟨0 + byteCount pre, r⟩ = x at hb hbs hlines hends hshorter
  obtain ⟨b', d⟩ := x
  obtain ⟨s, rfl⟩ := exists_toList t
  obtain ⟨hr, hoffset⟩ := id hlines
  simp only at hr hoffset hends hshorter hb hbs
  subst hr hb
  have hne' : s.toList ≠ [] := by
    intro hnil
    rw [hnil, List.nil_append] at hshorter
    exact Nat.lt_irrefl _ hshorter
  refine ⟨s, d.rest, rfl, hne', ?_, congrArg Prod.fst hx, congrArg (fun x => x.2.rest) hx, ?_⟩
  · refine hends.imp_right ?_
    rintro ⟨before, hbefore, hline⟩
    have hsame : before = pre ++ s.toList :=
      List.append_cancel_right (hbefore.rest.symm.trans (hover.trans hlines).rest)
    rw [hsame] at hline
    rcases hline with hnil | hlast
    · exact absurd (List.append_eq_nil_iff.1 hnil).2 hne'
    · rwa [List.getLast?_append_of_ne_nil _ hne'] at hlast
  · obtain ⟨e, hlaid⟩ := laid_blocksFrom limit hends
    rw [← hbs, hlaid.position_fenceAt (hover.trans hlines), hoffset]
    omega

/-- The first token of a text that is one entry begins it. -/
theorem start_of_blocks {m : Lexeme} {ms : List Lexeme} {isTerm : Bool} {name : String} {start : Nat} {ending : Ending}
    (h : blocks limit s.toList = [.entry isTerm name start (m :: ms) ending]) :
    m.span.start = 0 ∧ m.token.opensEntry = true := by
  obtain ⟨d, hlaid⟩ := laid_blocks limit s
  rw [h] at hlaid
  cases hlaid with
  | cons _ hfits =>
    obtain ⟨rfl, l, ls, hl, hopens, hstart, -⟩ := hfits
    obtain ⟨rfl, rfl⟩ := List.cons.inj hl
    exact ⟨hstart, hopens⟩

/-- A text that is one entry block stands in its source: the tokens lie within it, and the fences are where it ends. -/
theorem Embedded.shifted_of_blocks {m : Lexeme} {ms : List Lexeme} {isTerm : Bool} {name : String} {start : Nat}
    {ending : Ending} {bs : List Block} (h : Embedded (.behind pre) s source)
    (hblocks : blocks limit s.toList = [.entry isTerm name start (m :: ms) ending])
    (hposition : (Fluent.fenceAt (.ofString source) (bs.flatMap Block.lexemes)).position =
      byteCount s.toList + byteCount pre) :
    AllWithin s (m :: ms) ∧ (Fluent.fenceAt (.ofString s) []).Shifted (.behind pre) (byteCount s.toList)
      (Fluent.fenceAt (.ofString source) (bs.flatMap Block.lexemes)) := by
  have hwithin := allWithin_of_blocks hblocks
  rw [List.flatMap_singleton] at hwithin
  have hnone : AllWithin s (([] : List Block).flatMap Block.lexemes) := fun _ hl => absurd hl List.not_mem_nil
  exact ⟨hwithin, h.fenceAt hnone hposition⟩

/-- The tokens of the text, moved, are read alike in the source. -/
theorem Embedded.alike_of_blocks {m : Lexeme} {ms : List Lexeme} {isTerm : Bool} {name : String} {start : Nat}
    {ending : Ending} {bs : List Block} (h : Embedded (.behind pre) s source)
    (hblocks : blocks limit s.toList = [.entry isTerm name start (m :: ms) ending])
    (hposition : (Fluent.fenceAt (.ofString source) (bs.flatMap Block.lexemes)).position =
      byteCount s.toList + byteCount pre) :
    Alike (Fault.Shifted (byteCount pre)) (fun e e' => e' = e.shift (.behind pre)) (blockEntry (.ofString s) m ms [])
      (blockEntry (.ofString source) (m.move (byteCount pre)) (ms.map (Lexeme.move (byteCount pre))) bs) := by
  obtain ⟨hwithin, hfences⟩ := h.shifted_of_blocks hblocks hposition
  rw [blockEntry, blockEntry, entry_readTo (Fluent.fenceAt (.ofString source) _) _ 0 (0 + byteCount pre)]
  exact alike_entry hfences ⟨rfl, rfl, hwithin, Nat.zero_le _⟩

/-- A text breaks off at a name with which an argument begins, and a colon stands behind the text. The faults are those
of the name as a positional argument, in the text by itself, and as the name of a named argument, `k` bytes further
on. -/
structure PartsAt (limit k : Nat) (s : String) (post text : List Char) (arg : String) (fault₀ fault : Fault) : Prop where
  breaksOff : BreaksOff s.toList post text arg
  tokens : ∃ front l, l.OpensArgument ∧ tokenize limit s.toList =
    front ++ [l, ⟨.identifier arg, ⟨byteCount text, byteCount text + byteCount arg.toList⟩⟩]
  fault₀ : fault₀ = .unexpected (byteCount s.toList) .argumentEnd .endOfInput
  fault : fault = .unexpected (byteCount text + k) .namedArgument (.token (.identifier arg))

/-- **The tokens of a solid text reach to its end.** -/
theorem readThrough_of_solid {m : Lexeme} {ms : List Lexeme} {isTerm : Bool} {name : String} {start : Nat}
    {ending : Ending} (hs : Solid s.toList) (h : blocks limit s.toList = [.entry isTerm name start (m :: ms) ending]) :
    readThrough 0 (m :: ms) = byteCount s.toList := by
  obtain ⟨d, -, hreads⟩ := reads_tokenize limit s.toList
  rw [tokenize, h, List.flatMap_singleton] at hreads
  obtain ⟨hm, hopens⟩ := start_of_blocks h
  obtain ⟨x, hx, hlayout⟩ := hs
  obtain ⟨before, hbefore⟩ := List.getLast?_eq_some_iff.1 hx
  -- a token lies over the last character, and no token ends within it
  have hlast : byteCount before < readThrough 0 (m :: ms) := by
    by_contra hle
    have hchar : charAt? (byteCount before) s.toList = some x := by
      rw [hbefore, charAt?_append_right (Nat.le_refl _), Nat.sub_self, charAt?, if_pos x.utf8Size_pos]
    have hcovered := (covered_entry hreads hopens).layout _ x hchar
    rw [hcovered] at hlayout
    · cases hlayout
    · intro a ha hcovers
      rw [List.mem_singleton.1 ha] at hcovers
      have hstop : (Cursor.ofChars s.toList).offset + byteCount before < readThrough 0 (m :: ms) := hcovers.2
      rw [show (Cursor.ofChars s.toList).offset = 0 from rfl] at hstop
      omega
  rcases readThrough_eq_or_mem 0 (m :: ms) with hzero | ⟨l, hl, hstop⟩
  · omega
  · obtain ⟨xs, text, e₁, e₂, after, h₁, h₂, h₃, hspan, -⟩ := hreads.mem (List.mem_reverse.2 hl)
    have hover := h₁.trans h₂
    have hoffset : readThrough 0 (m :: ms) = byteCount (xs ++ text) := by
      rw [hstop, hspan]
      exact hover.offset.trans (Nat.zero_add _)
    have hchars : s.toList = xs ++ text ++ e₂.rest := hover.rest
    rcases List.eq_nil_or_concat e₂.rest with hnil | ⟨more, y, hmore⟩
    · rw [hoffset, hchars, hnil, List.append_nil]
    · rw [hmore, hbefore, List.concat_eq_append, ← List.append_assoc] at hchars
      have hprefix := List.append_inj_left' hchars rfl
      rw [hoffset, hprefix, byteCount_append] at hlast
      omega

/-- **An entry** is the same entry by itself, without the layout behind it. -/
theorem blockEntry_clip {m : Lexeme} {ms : List Lexeme} {s' : String} (hchars : s.toList = s'.toList ++ gap)
    (he : blockEntry (.ofString s) m ms [] = .ok e)
    (hwithin : AllWithin s' ((m :: ms).map (Lexeme.clip (byteCount s'.toList)))) :
    blockEntry (.ofString s') (m.clip (byteCount s'.toList)) (ms.map (Lexeme.clip (byteCount s'.toList))) [] =
      .ok e := by
  -- the grammar reads the clipped tokens at the end of the shorter text
  have hembedded : Embedded .zero s' s := ⟨[], gap, hchars, .inl rfl, rfl⟩
  have hderived := (derived_entry he).clip (byteCount s'.toList)
  have hread := hderived.read (f := ⟨(Source.ofString s).lines, byteCount s'.toList, .endOfInput⟩)
  have hfence : (fenceAt (.ofString s') []).Shifted .zero (byteCount s'.toList)
      ⟨(Source.ofString s).lines, byteCount s'.toList, .endOfInput⟩ :=
    ⟨fun o ho => hembedded.position ho, rfl, Nat.le_refl _⟩
  have hinput : Input.Shifted .zero (byteCount s'.toList)
      (Input.clip (byteCount s'.toList) ⟨m :: ms, 0⟩) (Input.clip (byteCount s'.toList) ⟨m :: ms, 0⟩) :=
    ⟨(List.map_id _).symm, rfl, hwithin, Nat.zero_le _⟩
  have halike := alike_entry hfence hinput
  rw [hread] at halike
  obtain ⟨e₁, he₁, rfl⟩ := halike.of_ok_right
  rw [e₁.shift_zero]
  exact he₁

/-- **An entry** is the same entry by itself, without the layout behind it: its text ends with content. -/
theorem piece_entry {m : Lexeme} {ms : List Lexeme} {isTerm : Bool} {name : String} {start : Nat} {ending : Ending}
    {bs : List Block} {r : List Char} (hchars : source.toList = pre ++ r) (hpre : AtLineStart pre)
    (h : blocksFrom limit ⟨0 + byteCount pre, r⟩ = .entry isTerm name start (m :: ms) ending :: bs)
    (he : blockEntry (.ofString source) m ms bs = .ok e) :
    ∃ s post e₁, Piece limit source pre s post e₁ ∧ Solid s.toList ∧ e₁.shift (.behind pre) = e := by
  obtain ⟨s, post, rfl, hne, hended, hb, hrest, hposition⟩ := lines_of_blocksFrom hchars hpre h
  obtain ⟨ls₀, ending₀, hblocks, hmoved | ⟨_, _, -, hparted⟩⟩ := blocks_lines hended hne hb hrest
  · -- first the lines by themselves
    obtain ⟨m₀, ms₀, rfl, rfl, rfl⟩ := List.map_eq_cons_iff.1 hmoved.symm
    have hembedded : Embedded (.behind pre) s source := ⟨pre, post, hchars, hpre, rfl⟩
    have halike := hembedded.alike_of_blocks hblocks hposition
    rw [he] at halike
    obtain ⟨e₀, he₀, rfl⟩ := halike.of_ok_right
    -- then without the layout behind them
    have hsolid : ¬ AllLayout s.toList := by
      obtain ⟨-, hheader, -⟩ := blocks_eq_singleton.1 hblocks
      obtain ⟨-, -, a, ha, -⟩ := header_of_block hheader
      obtain ⟨x, rest, hx, hopens⟩ := Line.opensHeader_of_header ha
      obtain ⟨hlayout, -⟩ := opensHeader_spec hopens
      intro hall
      have hfirst := hall x (by rw [show s.toList = x :: rest from hx]; exact List.mem_cons_self)
      rw [hlayout] at hfirst
      cases hfirst
    obtain ⟨g, gap, hchars', hg, hgap⟩ := exists_solid hsolid
    obtain ⟨s', rfl⟩ := exists_toList g
    have hblocks' := hblocks
    rw [hchars'] at hblocks'
    have hclipped := blocks_solid hg hgap hblocks' fun l hl => (derived_entry he₀).finished hl
    have hwithin' := allWithin_of_blocks hclipped
    rw [List.flatMap_singleton] at hwithin'
    have he₁ := blockEntry_clip hchars' he₀ hwithin'
    refine ⟨s', gap ++ post, e₀, ⟨?_, hpre, body_of_grouped hclipped (.entry he₁ .nil), ?_⟩, hg, rfl⟩
    · rw [hchars, hchars', List.append_assoc]
    · obtain ⟨-, -, l, ls, hl, hlocation⟩ := (derived_entry he₁).spells
      obtain ⟨rfl, -⟩ := List.cons.inj hl
      rw [hlocation, (start_of_blocks hclipped).1]
      exact congrArg (fun stop => (Source.ofString s').lines.locate ⟨0, stop⟩) (readThrough_of_solid hg hclipped)
  · -- the tokens of an entry do not end with a name
    exact absurd hparted.getLast?_right (derived_entry he).getLast?_ne_identifier

/-! ## Entries of a body -/

theorem Entry.location_withoutFound (e : Entry) : e.withoutFound.location = e.location := by
  cases e <;> rfl

theorem Entry.location_shift (d : Shift) (e : Entry) : (e.shift d).location = e.location.shift d := by
  cases e <;> rfl

theorem Entry.location_undocumented (e : Entry) : e.undocumented.location = e.location := by
  cases e <;> rfl

/-- The slice of an entry, read as a source, holds the entry without its comment and nothing else. -/
def ReadsAlone (limit : Nat) (source : String) (e : Entry) : Prop :=
  ∃ e₁, (parse ⟨.preserve, limit⟩ ((Source.ofString source).slice e.location.span)).body = [e₁] ∧
    (e₁.shift e.location.place).withoutFound = e.undocumented.withoutFound

theorem Piece.readsAlone {e₁ : Entry} (h : Piece limit source pre s post e₁)
    (he : (e₁.shift (.behind pre)).withoutFound = e.undocumented.withoutFound) : ReadsAlone limit source e := by
  have hlocation : e.location = e₁.location.shift (.behind pre) := by
    rw [← e.location_undocumented, ← e.undocumented.location_withoutFound, ← he, Entry.location_withoutFound,
      Entry.location_shift]
  obtain ⟨hslice, hplace, -⟩ := h.slice hlocation
  refine ⟨e₁, ?_, ?_⟩
  · rw [hslice]
    exact h.reads
  · rw [hplace]
    exact he

/-- A comment that is read alone is one comment. -/
theorem ReadsAlone.of_comment {d : Comment} (h : ReadsAlone limit source (.comment d)) :
    ∃ d₁, (parse ⟨.preserve, limit⟩ ((Source.ofString source).slice d.location.span)).body = [.comment d₁] ∧
      d₁.shift d.location.place = d := by
  obtain ⟨e₁, hbody, hsame⟩ := h
  cases e₁ with
  | comment d₁ => exact ⟨d₁, hbody, Entry.comment.inj hsame⟩
  | message | term | junk => cases hsame

/-- Junk that is read alone is junk throughout: no entry is hidden in it. -/
theorem ReadsAlone.of_junk {j : Junk} (h : ReadsAlone limit source (.junk j)) :
    ∃ j₁, (parse ⟨.preserve, limit⟩ ((Source.ofString source).slice j.location.span)).body = [.junk j₁] ∧
      (j₁.fault.move j.location.span.start).withoutFound = j.fault.withoutFound := by
  obtain ⟨e₁, hbody, hsame⟩ := h
  cases e₁ with
  | junk j₁ => exact ⟨j₁, hbody, congrArg Junk.fault (Entry.junk.inj hsame)⟩
  | message | term | comment => cases hsame

/-- A break with blocks behind it is a line start. -/
theorem Cursor.AtBreak.exists_chars (h : c.AtBreak source.toList) (hne : c.rest ≠ []) :
    ∃ pre r, c = ⟨0 + byteCount pre, r⟩ ∧ source.toList = pre ++ r ∧ AtLineStart pre := by
  obtain ⟨pre, hover, hline⟩ := h
  obtain ⟨offset, r⟩ := c
  obtain rfl : offset = 0 + byteCount pre := hover.offset
  exact ⟨pre, r, rfl, hover.rest, hline.resolve_left hne⟩

/-- Junk that breaks off at the name `arg`, which stands behind `text` and begins an argument of a call; behind the
junk stands a colon. Its fault is that of a named argument without its colon: the look-ahead for the colon crosses line
breaks and finds the one behind the junk, but no entry goes on there. By itself the junk is the same junk with the fault
of a positional argument behind which its list does not go on. -/
structure Junk.Misled (limit : Nat) (source : String) (j : Junk) (text : List Char) (arg : String) : Prop where
  breaksOff : BreaksOff j.content.toList ((Source.ofString source).after j.location.span.stop) text arg
  tokens : ∃ front l, l.OpensArgument ∧ tokenize limit j.content.toList =
    front ++ [l, ⟨.identifier arg, ⟨byteCount text, byteCount text + byteCount arg.toList⟩⟩]
  fault : j.fault =
    .unexpected (j.location.span.start + byteCount text) .namedArgument (.token (.identifier arg))
  alone : ReadsAlone limit source
    (.junk { j with fault := .unexpected j.location.span.stop .argumentEnd .endOfInput })

/-- Junk in the place of a piece that parts from it at a name. -/
theorem Piece.misled {j : Junk} {text : List Char} {arg : String} {m₀ : Lexeme} {fault₀ : Fault}
    (h : Piece limit source pre s post (blockJunk (.ofString s) m₀ [] fault₀))
    (hlocation : j.location = (blockJunk (.ofString s) m₀ [] fault₀).location.shift (.behind pre))
    (hcontent : j.content = (Source.ofString source).slice j.location.span)
    (hshift : ((blockJunk (.ofString s) m₀ [] fault₀).shift (.behind pre)).withoutFound =
      (Entry.junk { j with fault := fault₀.move (byteCount pre) }).withoutFound)
    (hparts : PartsAt limit (byteCount pre) s post text arg fault₀ j.fault) : j.Misled limit source text arg := by
  obtain ⟨hbreaks, htokens, hfault₀, hfault⟩ := hparts
  obtain ⟨hslice, -, hafter⟩ := h.slice hlocation
  have hspan : j.location.span = ⟨byteCount pre, byteCount s.toList + byteCount pre⟩ := by
    rw [hlocation, h.location]
    simp [Location.shift, LineMap.locate, Span.move, Shift.behind]
  rw [hslice] at hcontent
  refine ⟨?_, ?_, ?_, h.readsAlone ?_⟩
  · rwa [hcontent, hafter]
  · rwa [hcontent]
  · rw [hfault, hspan, Nat.add_comm]
  · rw [hshift, hspan, hfault₀]
    rfl

/-- The first exception is no wider than it has to be: such a comment is not read alone. -/
theorem Comment.Clipped.not_readsAlone {d d₁ : Comment} (h : d.Clipped limit source d₁) :
    ¬ ReadsAlone limit source (.comment d) := by
  intro halone
  obtain ⟨d₂, hbody, hd₂⟩ := halone.of_comment
  obtain rfl : d₁ = d₂ := Entry.comment.inj (List.singleton_inj.1 (h.alone.symm.trans hbody))
  -- the comment of the slice would have the carriage return, too
  have hlength := congrArg (fun c : Comment => c.content.toList.length) hd₂
  simp [h.content, Comment.shift, Comment.relocate] at hlength

/-- Nor is the second one: such junk is not read alone. -/
theorem Junk.Misled.not_readsAlone {j : Junk} {text : List Char} {arg : String} (h : j.Misled limit source text arg) :
    ¬ ReadsAlone limit source (.junk j) := by
  intro halone
  obtain ⟨j₁, hbody, hfault⟩ := halone.of_junk
  obtain ⟨j₂, hbody', hfault'⟩ := h.alone.of_junk
  obtain rfl : j₁ = j₂ := Entry.junk.inj (List.singleton_inj.1 (hbody.symm.trans hbody'))
  -- the slice would have both faults
  rw [hfault', h.fault] at hfault
  simp [Fault.withoutFound] at hfault

end Fluent
