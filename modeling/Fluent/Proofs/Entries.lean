import Fluent.Proofs.Alone
import Fluent.Proofs.CommentLines
import Fluent.Proofs.Duplicates
import Fluent.Proofs.LineNumbers
import Fluent.Proofs.Parts

/-!
# Where entries start and end

Under either policy every entry starts where a line starts. Only junk may end where one does: messages, terms and
comments end with a character of their last line.

* `of_mem_rejectDuplicates`: what is left of entries where duplicates are rejected.
* `located_of_mem_parse`, `extents_parse`, `ordered_parse`: the locations of a resource belong to its source, and its
  entries are in order.
* `Cursor.Over.line`, `Cursor.Over.column_eq_zero_iff`: the position of a cursor, by the text that was read.
* `ReadAt limit source c e`: an entry is read from the line start `c` on.
* `exists_readAt`: every message and every term is read so.
* `MadeOf.location`, `position_commentLine`: where the comment of a run starts and ends.
* `columns_of_mem_parse`: the columns where entries start and end.
-/

namespace Fluent

/-! ## What rejecting leaves -/

/-- The names that an entry defines. -/
def Entry.names (e : Entry) : List Identifier := e.name?.toList ++ e.attributes.map (·.id)

/-- **What is left where duplicates are rejected**: an entry, the comment of one, or junk in the place of one for a
name that it defines. -/
theorem of_mem_rejectDuplicates {s : Source} {seen : List String} {es : List Entry} {e' : Entry}
    (h : e' ∈ rejectDuplicates s seen es) : e' ∈ es ∨ ∃ e ∈ es, (∃ k ∈ e.doc?, e' = .comment k) ∨
      ∃ id ∈ e.names, ∃ name,
        e' = .junk ⟨s.slice e.location.span, .duplicateId id.location.span name, e.location⟩ := by
  have hreplaced : ∀ (e : Entry) (id : Identifier) (name : String), id ∈ e.names →
      e' ∈ e.asDuplicate s name id.location.span → (∃ k ∈ e.doc?, e' = .comment k) ∨ ∃ id ∈ e.names, ∃ name,
        e' = .junk ⟨s.slice e.location.span, .duplicateId id.location.span name, e.location⟩ := by
    intro e id name hid hmem
    rcases List.mem_append.1 hmem with hcomment | hjunk
    · obtain ⟨k, hk, rfl⟩ : ∃ k, e.doc? = some k ∧ Entry.comment k = e' := by simpa using hcomment
      exact .inl ⟨k, hk, rfl⟩
    · exact .inr ⟨id, hid, name, List.mem_singleton.1 hjunk⟩
  induction es generalizing seen with
  | nil => simp [rejectDuplicates] at h
  | cons e es ih =>
    obtain ⟨part, hpart, hreject⟩ := exists_replaced s seen e es
    rw [hreject] at h
    rcases List.mem_append.1 h with h | h
    · cases hpart with
      | kept => exact .inl (List.mem_singleton.1 h ▸ List.mem_cons_self)
      | @forAttribute before after a _ has =>
        have hname : a.id ∈ e.names := by
          refine List.mem_append_right _ (List.mem_map_of_mem (f := Attribute.id) ?_)
          rw [has]
          exact List.mem_append_right _ List.mem_cons_self
        exact .inr ⟨e, List.mem_cons_self, hreplaced e _ _ hname h⟩
      | forId _ _ _ hid =>
        have hname : _ ∈ e.names := List.mem_append_left _ (Option.mem_toList.2 hid)
        exact .inr ⟨e, List.mem_cons_self, hreplaced e _ _ hname h⟩
    · rcases ih h with hkept | ⟨e₀, he₀, hfrom⟩
      · exact .inl (List.mem_cons_of_mem _ hkept)
      · exact .inr ⟨e₀, List.mem_cons_of_mem _ he₀, hfrom⟩

variable {o : ParseOptions} {limit : Nat} {source : String} {c : Cursor} {e : Entry}

theorem Entry.Located.eq_locate {s : Source} (h : e.Located s) : e.location = s.lines.locate e.location.span := by
  have hown := (h.1 e.ownLocations (List.mem_append_right _ (List.mem_singleton_self _))).of.eq_locate
  rwa [e.location_ownLocations] at hown

/-- The names that an entry defines lie in it. -/
theorem Entry.Located.name {s : Source} (h : e.Located s) {id : Identifier} (hid : id ∈ e.names) :
    e.location.span.start ≤ id.location.span.start ∧ id.location.span.start ≤ e.location.span.stop := by
  have hown := h.1 e.ownLocations (List.mem_append_right _ (List.mem_singleton_self _))
  rcases List.mem_append.1 hid with hid | hid
  · have hid : e.name? = some id := Option.mem_toList.1 hid
    cases e with
    | message m | term m =>
      obtain rfl := Option.some.inj hid
      cases hown with
      | node _ hwithin _ hconsistent =>
        have hordered := (hconsistent _ List.mem_cons_self).of.ordered
        have hid := hwithin _ List.mem_cons_self
        exact ⟨hid.1, Nat.le_trans hordered hid.2⟩
    | comment | junk => cases hid
  · obtain ⟨a, ha, rfl⟩ := List.mem_map.1 hid
    have hattribute := h.attribute ha
    have htree : a.locations.Consistent s := by
      cases e with
      | message m =>
        cases hown with
        | node _ _ _ hconsistent =>
          exact hconsistent _ (List.mem_cons_of_mem _ (List.mem_append_right _
            (List.mem_map_of_mem (f := Attribute.locations) ha)))
      | term t =>
        cases hown with
        | node _ _ _ hconsistent =>
          exact hconsistent _ (List.mem_cons_of_mem _ (List.mem_cons_of_mem _
            (List.mem_map_of_mem (f := Attribute.locations) ha)))
      | comment | junk => cases ha
    cases htree with
    | node _ hwithin _ hconsistent =>
      have hordered := (hconsistent _ List.mem_cons_self).of.ordered
      have hid := hwithin _ List.mem_cons_self
      exact ⟨Nat.le_trans hattribute.1 hid.1, Nat.le_trans (Nat.le_trans hordered hid.2) hattribute.2⟩

/-- Entries and the comments that belong to them are in order, and each takes source text. -/
theorem extents_parse (o : ParseOptions) (source : String) :
    (extents (parse o source).body).Pairwise (fun a b => a.stop ≤ b.start) ∧
      ∀ a ∈ extents (parse o source).body, a.start < a.stop := by
  obtain ⟨d, hlaid⟩ := laid_blocks o.maxNesting source
  obtain ⟨t, hcovered⟩ := (grouped_body o.maxNesting source).covered hlaid (.refl _)
  rw [extents_parse_body]
  exact ⟨hcovered.ordered, fun a ha => (hcovered.within a ha).2.1⟩

/-- **Entries are in order**, and each takes source text: it ends in the source, and no later than the next one
starts. -/
theorem ordered_parse (o : ParseOptions) (source : String) :
    (parse o source).body.Pairwise (fun e e' => e.location.span.stop ≤ e'.location.span.start) ∧
      ∀ e ∈ (parse o source).body, e.location.span.start < e.location.span.stop ∧
        e.location.span.stop ≤ (Source.ofString source).size := by
  obtain ⟨hordered, hextents⟩ := extents_parse o source
  have hspan : ∀ e : Entry, e.location.span ∈ e.spans :=
    fun e => List.mem_append_right _ (List.mem_singleton_self _)
  refine ⟨?_, ?_⟩
  · refine (List.pairwise_flatMap.1 hordered).2.imp ?_
    intro e e' hbehind
    exact hbehind _ (hspan e) _ (hspan e')
  · intro e he
    have hown := (located_of_mem_parse he).1 e.ownLocations (List.mem_append_right _ (List.mem_singleton_self _))
    have hbounds := hown.of.inBounds
    rw [e.location_ownLocations] at hbounds
    exact ⟨hextents _ (List.mem_flatMap.2 ⟨e, he, hspan e⟩), hbounds⟩

/-! ## Positions of cursors -/

theorem Cursor.Over.offset_ofChars {pre : List Char} (h : (Cursor.ofChars source.toList).Over pre c) :
    c.offset = byteCount pre := by
  rw [h.offset]
  exact Nat.zero_add _

/-- The line of a cursor counts the line feeds that were read. -/
theorem Cursor.Over.line {pre : List Char} (h : (Cursor.ofChars source.toList).Over pre c) :
    ((Source.ofString source).lines.position c.offset).line = pre.count '\n' := by
  have hchars : source.toList = pre ++ c.rest := h.rest
  rw [h.offset_ofChars, Source.ofString, hchars, LineMap.line_append]

/-- The column of a cursor tells whether it stands at a line start. -/
theorem Cursor.Over.column_eq_zero_iff {pre : List Char} (h : (Cursor.ofChars source.toList).Over pre c) :
    ((Source.ofString source).lines.position c.offset).column = 0 ↔ AtLineStart pre := by
  have hchars : source.toList = pre ++ c.rest := h.rest
  rw [h.offset_ofChars, Source.ofString, hchars, ← LineMap.isLineStart_iff pre c.rest]
  exact beq_iff_eq.symm

theorem Cursor.Over.column_ne_zero {pre t : List Char} (h : (Cursor.ofChars source.toList).Over (pre ++ t) c)
    (hne : t ≠ []) (hlast : t.getLast? ≠ some '\n') :
    ((Source.ofString source).lines.position c.offset).column ≠ 0 := by
  intro hcolumn
  rcases h.column_eq_zero_iff.1 hcolumn with hnil | hfeed
  · exact hne (List.append_eq_nil_iff.1 hnil).2
  · rw [List.getLast?_append_of_ne_nil _ hne] at hfeed
    exact hlast hfeed

theorem Cursor.StartsLine.column (h : c.StartsLine source.toList) :
    ((Source.ofString source).lines.position c.offset).column = 0 := by
  obtain ⟨pre, hover, hpre⟩ := h
  exact hover.column_eq_zero_iff.2 hpre

/-! ## Messages and terms -/

/-- What is read of the entry block at a line start, before a comment is given to it. -/
def ReadAt (limit : Nat) (source : String) (c : Cursor) (e : Entry) : Prop :=
  ∃ isTerm name start m ms ending bs, c.StartsLine source.toList ∧
    blocksFrom limit c = .entry isTerm name start (m :: ms) ending :: bs ∧
    blockEntry (.ofString source) m ms bs = .ok e

namespace ReadAt

theorem startsLine (h : ReadAt limit source c e) : c.StartsLine source.toList := by
  obtain ⟨_, _, _, _, _, _, _, hc, -⟩ := h
  exact hc

theorem start (h : ReadAt limit source c e) : e.location.span.start = c.offset := by
  obtain ⟨_, _, _, _, _, _, _, ⟨pre, hover, hpre⟩, hblocks, hok⟩ := h
  rw [(blockEntry_spells hok).2.2, (blocksFrom_entry ⟨pre, hover, .inr hpre⟩ hblocks).2.1]

/-- The text of an entry ends with a character that is no layout. -/
theorem solid (h : ReadAt limit source c e) : ∃ (pre t : List Char) (d : Cursor),
    (Cursor.ofChars source.toList).Over (pre ++ t) d ∧ d.offset = e.location.span.stop ∧ Solid t := by
  obtain ⟨_, _, _, _, _, _, _, ⟨pre, hover, hpre⟩, hblocks, hok⟩ := h
  have hbreak : c.AtBreak source.toList := ⟨pre, hover, .inr hpre⟩
  obtain ⟨pre, r, rfl, hchars, hpre⟩ := hbreak.exists_chars (blocksFrom_eq_cons hblocks).1
  obtain ⟨s, post, e₁, hpiece, hsolid, rfl⟩ := piece_entry hchars hpre hblocks hok
  refine ⟨pre, s.toList, ⟨byteCount (pre ++ s.toList), post⟩, ⟨?_, (Nat.zero_add _).symm⟩, ?_, hsolid⟩
  · exact hpiece.chars.trans (List.append_assoc ..).symm
  · rw [Entry.location_shift, hpiece.location, byteCount_append]
    exact Nat.add_comm _ _

/-- An entry ends within a line, behind its last token with text. So only junk, which is made of whole lines, can end
where a line starts. -/
theorem column_stop (h : ReadAt limit source c e) :
    ((Source.ofString source).lines.position e.location.span.stop).column ≠ 0 := by
  obtain ⟨pre, t, d, hover, hstop, x, hlast, hx⟩ := h.solid
  rw [← hstop]
  refine hover.column_ne_zero (List.ne_nil_of_mem (List.mem_of_getLast? hlast)) ?_
  rintro hfeed
  obtain rfl := Option.some.inj (hlast.symm.trans hfeed)
  cases hx

end ReadAt

/-- What is read at a line start is what the header line opens, so an entry is known from the lines of the source alone,
without the tokens in front of it. -/
theorem readAt_iff : ReadAt limit source c e ↔
    c.StartsLine source.toList ∧ entryAt limit (Source.ofString source).lines c = some e := by
  constructor
  · rintro ⟨_, _, _, _, _, _, _, hc, hblocks, hok⟩
    obtain ⟨-, -, -, -, hentry⟩ := keptFrom_entry hblocks
    exact ⟨hc, by rw [hentry, blockEntry_eq_ok.1 hok]⟩
  · rintro ⟨hc, hentry⟩
    obtain ⟨⟨isTerm, a⟩, ha, he⟩ := Option.bind_eq_some_iff.1 hentry
    obtain ⟨l, ls, hls⟩ := exists_cons_of_entryOf he
    have hblocks : blocksFrom limit c = _ := blocksFrom_of_header ha
    simp only [hls] at he hblocks
    exact ⟨_, _, _, l, ls, _, _, hc, hblocks, blockEntry_eq_ok.2 he⟩

/-- **Every message and every term is read from a line start on.** -/
theorem exists_readAt (he : e ∈ body (.ofString source) (tokenize limit source.toList)) (hid : e.id? ≠ none) :
    ∃ c e', ReadAt limit source c e' ∧ (e = e' ∨ ∃ k, e = e'.document k) := by
  obtain ⟨c, hc, hleads⟩ := leads_of_mem_body he
  generalize hbs : blocksFrom limit c = bs at hleads
  cases hleads with
  | stray | comment | broken => exact absurd rfl hid
  | entry hok =>
    have hline := hc.startsLine_of_ne_nil (blocksFrom_eq_cons hbs).1
    exact ⟨c, e, ⟨_, _, _, _, _, _, _, hline, hbs, hok⟩, .inl rfl⟩
  | @documented _ _ _ _ _ _ _ _ _ _ e' hok =>
    obtain ⟨hne, -, hrest⟩ := blocksFrom_eq_cons hbs
    have hbreak := atBreak_block limit (hc.startsLine_of_ne_nil hne)
    have hline := hbreak.startsLine_of_ne_nil (blocksFrom_eq_cons hrest).1
    exact ⟨_, e', ⟨_, _, _, _, _, _, _, hline, hrest, hok⟩, .inr ⟨_, rfl⟩⟩

/-! ## Comments -/

/-- The comments of a resource are made of the runs of comment lines of its source. -/
theorem exists_run_of_comment {k : Comment} (hk : k ∈ (parse o source).allComments) :
    ∃ r ∈ runs (Cursor.ofChars source.toList).lines, MadeOf (.ofString source) k r := by
  have hmade := madeOf_allComments o source
  generalize runs (Cursor.ofChars source.toList).lines = rs at hmade
  generalize (parse o source).allComments = ks at hk hmade
  induction hmade with
  | nil => cases hk
  | cons hr _ ih =>
    rcases List.mem_cons.1 hk with rfl | hk
    · exact ⟨_, List.mem_cons_self, hr⟩
    · obtain ⟨r, hmem, hr⟩ := ih hk
      exact ⟨r, List.mem_cons_of_mem _ hmem, hr⟩

/-- The lines of a run are lines of the source, all of its level. -/
theorem of_mem_run {cs : List Cursor} {r : CommentLevel × List Cursor} (hr : r ∈ runs cs) {d : Cursor} (hd : d ∈ r.2) :
    d ∈ cs ∧ d.level? = some r.1 := by
  have hmem : d ∈ ((runs cs).map (·.2)).flatten := List.mem_flatten.2 ⟨r.2, List.mem_map_of_mem hr, hd⟩
  rw [flatten_runs] at hmem
  exact ⟨List.mem_of_mem_filter hmem, (@runs_maximal [] cs (by simp) r hr).levels d hd⟩

/-- **The comment of a run** reaches from its first line to the text of its last one. -/
theorem MadeOf.location {s : Source} {k : Comment} {r : CommentLevel × List Cursor} (h : MadeOf s k r) :
    ∃ first ∈ r.2.head?, ∃ last ∈ r.2.getLast?,
      k.location = s.lines.locate ⟨first.offset, (commentLine r.1 last).span.stop⟩ := by
  obtain ⟨c, cs, hrun, rfl⟩ := h
  have hlast := List.getLast?_eq_some_getLast (List.cons_ne_nil c cs)
  generalize (c :: cs).getLast _ = last at hlast
  refine ⟨c, by simp [hrun], last, by rw [hrun]; exact hlast, ?_⟩
  rw [joinComment, ← List.map_cons, List.getLast?_map, hlast]
  rfl

/-- A comment line takes text of its line. -/
theorem over_commentLine {level : CommentLevel} {d : Cursor} (h : d.level? = some level) :
    ∃ (t : List Char) (d' : Cursor), d.Over t d' ∧ d'.offset = (commentLine level d).span.stop ∧ t ≠ [] ∧
      '\n' ∉ t := by
  obtain ⟨text, hhead, -⟩ := Line.commentLevel?_eq_some h
  obtain ⟨gap, -, hdrop⟩ := Line.dropReturn_spec text
  have hrest : d.rest = level.sigil.toList ++ Line.dropReturn text ++ (gap ++ Line.tail d.rest) := by
    conv_lhs => rw [← Line.head_append_tail d.rest, hhead, ← hdrop]
    simp only [List.append_assoc]
  refine ⟨level.sigil.toList ++ Line.dropReturn text, ⟨_, gap ++ Line.tail d.rest⟩, ⟨hrest, rfl⟩, ?_, ?_, ?_⟩
  · rw [commentLine_of_head hhead]
  · cases level <;> simp [CommentLevel.sigil, CommentLevel.hashes]
  · have hnone := Line.newline_notMem_head d.rest
    rw [hhead, ← hdrop, ← List.append_assoc] at hnone
    exact fun hmem => hnone (List.mem_append_left _ hmem)

/-- **The text of a comment line** ends on its line, behind the start of the line. -/
theorem position_commentLine {level : CommentLevel} {d : Cursor} (hd : d.StartsLine source.toList)
    (h : d.level? = some level) :
    ((Source.ofString source).lines.position (commentLine level d).span.stop).line =
        ((Source.ofString source).lines.position d.offset).line ∧
      ((Source.ofString source).lines.position (commentLine level d).span.stop).column ≠ 0 := by
  obtain ⟨pre, hover, -⟩ := hd
  obtain ⟨t, d', hline, hstop, hne, hnone⟩ := over_commentLine h
  have hboth := hover.trans hline
  rw [← hstop]
  refine ⟨?_, ?_⟩
  · rw [hboth.line, hover.line, List.count_append, List.count_eq_zero.2 hnone, Nat.add_zero]
  · exact hboth.column_ne_zero hne fun hlast => hnone (List.mem_of_getLast? hlast)

/-! ## Columns -/

/-- An entry of a body starts at a line start. -/
theorem exists_startsLine (he : e ∈ body (.ofString source) (tokenize limit source.toList)) :
    ∃ c : Cursor, c.StartsLine source.toList ∧ c.offset = e.location.span.start := by
  by_cases hid : e.id? = none
  · obtain ⟨c, hc, hleads⟩ := leads_of_mem_body he
    generalize hbs : blocksFrom limit c = bs at hleads
    have hbegin : ∀ {b bs'}, bs = b :: bs' → c.StartsLine source.toList := by
      rintro b bs' rfl
      exact hc.startsLine_of_ne_nil (blocksFrom_eq_cons hbs).1
    cases hleads with
    | stray => exact ⟨c, hbegin rfl, (blocksFrom_strays hc hbs).1.symm⟩
    | comment =>
      obtain ⟨-, hblock, -⟩ := blocksFrom_eq_cons hbs
      obtain ⟨level, -, rfl, -⟩ := block_eq_comment hblock
      exact ⟨c, hbegin rfl, rfl⟩
    | broken => exact ⟨c, hbegin rfl, (blocksFrom_entry hc hbs).2.1.symm⟩
    | documented hok => cases derived_entry hok <;> cases hid
    | entry hok => cases derived_entry hok <;> cases hid
  · obtain ⟨c, e', hread, rfl | ⟨k, rfl⟩⟩ := exists_readAt he hid
    · exact ⟨c, hread.startsLine, hread.start.symm⟩
    · rw [Entry.location_document]
      exact ⟨c, hread.startsLine, hread.start.symm⟩

/-- **Every entry starts where a line starts, and only junk may end where one does.** -/
theorem columns_of_mem_parse (he : e ∈ (parse o source).body) :
    e.location.start.column = 0 ∧ (e.junk? = none → e.location.stop.column ≠ 0) := by
  rw [(located_of_mem_parse he).eq_locate]
  simp only [LineMap.locate]
  have hstart : ∀ e₀ ∈ body (.ofString source) (tokenize o.maxNesting source.toList),
      ((Source.ofString source).lines.position e₀.location.span.start).column = 0 := by
    intro e₀ he₀
    obtain ⟨c, hc, hoffset⟩ := exists_startsLine he₀
    rw [← hoffset]
    exact hc.column
  cases e with
  | comment k =>
    obtain ⟨r, hr, hmade⟩ := exists_run_of_comment (List.mem_filterMap.2 ⟨.comment k, he, rfl⟩)
    obtain ⟨first, hfirst, last, hlast, hlocation⟩ := hmade.location
    have hfirst := of_mem_run hr (List.mem_of_mem_head? hfirst)
    have hlast := of_mem_run hr (List.mem_of_getLast? hlast)
    rw [show (Entry.comment k).location = k.location from rfl, hlocation]
    exact ⟨(mem_lines_iff.1 hfirst.1).2.column,
      fun _ => (position_commentLine (mem_lines_iff.1 hlast.1).2 hlast.2).2⟩
  | message | term =>
    have hmem := mem_body_of_mem_parse he (by simp [Entry.id?])
    refine ⟨hstart _ hmem, fun _ => ?_⟩
    obtain ⟨c, e', hread, heq | ⟨k, heq⟩⟩ := exists_readAt hmem (by simp [Entry.id?])
    · rw [heq]
      exact hread.column_stop
    · rw [heq, Entry.location_document]
      exact hread.column_stop
  | junk j =>
    refine ⟨?_, fun hnone => by cases hnone⟩
    obtain ⟨policy, limit⟩ := o
    cases policy with
    | preserve => exact hstart _ he
    | reject =>
      rcases of_mem_rejectDuplicates he with hmem | ⟨e₀, he₀, ⟨k, -, hk⟩ | ⟨id, -, name, hj⟩⟩
      · exact hstart _ hmem
      · cases hk
      · rw [hj]
        exact hstart e₀ he₀

end Fluent
