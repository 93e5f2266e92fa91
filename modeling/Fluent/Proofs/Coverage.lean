import Fluent.Proofs.Written

/-!
# Nothing of a source is lost

The entries of a resource, with the comments that belong to them, lie over the source in order. What lies
between them is blank.

* `Covered c t spans d`: spans in order over the text `t`, and over all of it but layout.
* `Reads.covered_hull`: the tokens of a block are covered from the first to the last that has text.
* `Grouped.covered`: the entries of laid blocks cover them.
* `parse_covers`: the entries of a resource cover its source.
-/

namespace Fluent

/-! ## Extents -/

/-- The comment that belongs to an entry. -/
def Entry.doc? : Entry → Option Comment
  | message m => m.comment
  | term t => t.comment
  | _ => none

/-- Where an entry lies, the comment that belongs to it first. -/
def Entry.spans (e : Entry) : List Span := (e.doc?.map (·.location.span)).toList ++ [e.location.span]

def extents (es : List Entry) : List Span := es.flatMap Entry.spans

@[simp] theorem spans_comment (c : Comment) : (Entry.comment c).spans = [c.location.span] := rfl

@[simp] theorem spans_junk (j : Junk) : (Entry.junk j).spans = [j.location.span] := rfl

@[simp] theorem extents_nil : extents [] = [] := rfl

@[simp] theorem extents_cons (e : Entry) (es : List Entry) : extents (e :: es) = e.spans ++ extents es :=
  List.flatMap_cons

@[simp] theorem extents_append (es es' : List Entry) : extents (es ++ es') = extents es ++ extents es' :=
  List.flatMap_append

/-! ## Covering a text -/

/-- Spans that lie in order over the text between two cursors, and over all of it but layout. -/
structure Covered (c : Cursor) (t : List Char) (spans : List Span) (d : Cursor) : Prop where
  stretch : c.Over t d
  within : ∀ a ∈ spans, c.offset ≤ a.start ∧ a.start < a.stop ∧ a.stop ≤ d.offset
  ordered : spans.Pairwise fun a b => a.stop ≤ b.start
  layout : ∀ k x, charAt? k t = some x → (∀ a ∈ spans, ¬ a.covers (c.offset + k)) → isLayout x = true

namespace Covered

variable {c d e : Cursor} {t u : List Char} {as bs : List Span}

theorem ofLayout (h : c.Over t d) (ht : ∀ x ∈ t, isLayout x = true) : Covered c t [] d :=
  ⟨h, by simp, .nil, fun _ x hx _ => ht x (mem_of_charAt? hx)⟩

/-- Covers of consecutive texts make one. -/
theorem append (h₁ : Covered c t as d) (h₂ : Covered d u bs e) : Covered c (t ++ u) (as ++ bs) e := by
  have hcd := h₁.stretch.offset_le
  have hde := h₂.stretch.offset_le
  refine ⟨h₁.stretch.trans h₂.stretch, ?_, ?_, ?_⟩
  · intro a ha
    rcases List.mem_append.1 ha with ha | ha
    · have := h₁.within a ha
      omega
    · have := h₂.within a ha
      omega
  · rw [List.pairwise_append]
    refine ⟨h₁.ordered, h₂.ordered, ?_⟩
    intro a ha b hb
    exact Nat.le_trans (h₁.within a ha).2.2 (h₂.within b hb).1
  · intro k x hx hk
    by_cases hbefore : k < byteCount t
    · rw [charAt?_append_left hbefore] at hx
      exact h₁.layout k x hx fun a ha => hk a (List.mem_append_left _ ha)
    · rw [charAt?_append_right (by omega)] at hx
      apply h₂.layout _ x hx
      intro a ha
      have hoffset : d.offset + (k - byteCount t) = c.offset + k := by
        rw [h₁.stretch.offset]
        omega
      rw [hoffset]
      exact hk a (List.mem_append_right _ ha)

end Covered

/-! ## Covering tokens -/

theorem readThrough_cons (r : Nat) (l : Lexeme) (ls : List Lexeme) :
    readThrough r (l :: ls) = readThrough (if l.token.isMarker then r else l.span.stop) ls := rfl

theorem readThrough_concat (r : Nat) (ls : List Lexeme) (l : Lexeme) :
    readThrough r (ls ++ [l]) = if l.token.isMarker then readThrough r ls else l.span.stop := by
  rw [readThrough, List.foldl_append]
  rfl

theorem readThrough_le {n : Nat} {ls : List Lexeme} (hls : ∀ l ∈ ls, l.span.stop ≤ n) {r : Nat} (hr : r ≤ n) :
    readThrough r ls ≤ n := by
  induction ls generalizing r with
  | nil => exact hr
  | cons l ls ih =>
    rw [readThrough_cons]
    refine ih (fun m hm => hls m (List.mem_cons_of_mem _ hm)) ?_
    split
    · exact hr
    · exact hls l List.mem_cons_self

theorem readThrough_eq_or_mem (r : Nat) (ls : List Lexeme) :
    readThrough r ls = r ∨ ∃ l ∈ ls, readThrough r ls = l.span.stop := by
  induction ls generalizing r with
  | nil => exact .inl rfl
  | cons l ls ih =>
    rw [readThrough_cons]
    rcases ih (if l.token.isMarker then r else l.span.stop) with hkept | ⟨m, hm, hstop⟩
    · cases hl : l.token.isMarker with
      | true => exact .inl (by rw [hl] at hkept; exact hkept)
      | false => exact .inr ⟨l, List.mem_cons_self, by rw [hl] at hkept; exact hkept⟩
    · exact .inr ⟨m, List.mem_cons_of_mem _ hm, hstop⟩

/-- No token with text ends behind the last one. -/
theorem stop_le_readThrough {ls : List Lexeme} (hpairs : ls.Pairwise fun l m => l.span.stop ≤ m.span.start)
    (hspans : ∀ l ∈ ls, l.span.start ≤ l.span.stop) (r : Nat) {m : Lexeme} (hm : m ∈ ls)
    (htext : m.token.isMarker = false) : m.span.stop ≤ readThrough r ls := by
  induction ls using List.reverseRecOn with
  | nil => simp at hm
  | append_singleton ls l ih =>
    obtain ⟨hpairs, -, hlast⟩ := List.pairwise_append.1 hpairs
    rw [readThrough_concat]
    rcases List.mem_append.1 hm with hm | hm
    · split
      · exact ih hpairs (fun l hl => hspans l (List.mem_append_left _ hl)) hm
      · have := hlast m hm l List.mem_cons_self
        have := hspans l (List.mem_append_right _ List.mem_cons_self)
        omega
    · obtain rfl := List.mem_singleton.1 hm
      simp [htext]

/-- Among tokens with text the last one ends last. -/
theorem readThrough_eq_getLast {l : Lexeme} {ls : List Lexeme} (hls : ∀ m ∈ l :: ls, m.token.isMarker = false)
    (r : Nat) : readThrough r (l :: ls) = ((l :: ls).getLast?.getD l).span.stop := by
  obtain ⟨ms, m, hlast⟩ := (List.eq_nil_or_concat (l :: ls)).resolve_left (List.cons_ne_nil l ls)
  rw [List.concat_eq_append] at hlast
  rw [hlast] at hls ⊢
  rw [readThrough_concat, hls m (by simp), List.getLast?_concat]
  rfl

namespace Reads

variable {P : List Char → Token → Prop} {c d : Cursor} {t : List Char} {ls : List Lexeme}

/-- Blank lines are layout throughout. -/
theorem layout_of_blank {is : List PatternItem} (h : Reads P c t is d)
    (his : ∀ i ∈ is, ∃ span, i = .lexeme ⟨.blankLines, span⟩) : ∀ x ∈ t, isLayout x = true := by
  induction h with
  | start => simp
  | layout _ _ hx ih =>
    intro y hy
    rcases List.mem_append.1 hy with hy | hy
    · exact ih his y hy
    · exact List.mem_singleton.1 hy ▸ hx
  | run =>
    obtain ⟨span, hspan⟩ := his _ List.mem_cons_self
    cases hspan
  | lexeme _ _ _ _ hspelled ih =>
    intro y hy
    rcases List.mem_append.1 hy with hy | hy
    · exact ih (fun i hi => his i (List.mem_cons_of_mem _ hi)) y hy
    · obtain ⟨span, hspan⟩ := his _ List.mem_cons_self
      obtain rfl := PatternItem.lexeme.inj hspan
      exact hspelled y hy

/-- A span over all tokens that have text leaves only layout. -/
theorem covered (h : Reads P c t (ls.reverse.map .lexeme) d) {a : Span}
    (ha : c.offset ≤ a.start ∧ a.start < a.stop ∧ a.stop ≤ d.offset)
    (hls : ∀ m ∈ ls, m.token.isMarker = false → a.start ≤ m.span.start ∧ m.span.stop ≤ a.stop) :
    Covered c t [a] d := by
  refine ⟨h.stretch, by simpa using ha, by simp, ?_⟩
  intro k x hx hk
  apply h.uncovered hx
  intro l hl hcovers
  have hl := List.mem_reverse.1 hl
  -- a marker lies over no byte, and every other token lies under the span
  by_cases hmarker : l.token.isMarker = true
  · obtain ⟨_, text, e₁, e₂, _, -, hover, -, hspan, hspelled, -⟩ := h.mem (List.mem_reverse.2 hl)
    have := hover.offset
    rw [hspelled.eq_nil hmarker] at this
    rw [hspan] at hcovers
    have hempty := Nat.lt_of_le_of_lt hcovers.1 hcovers.2
    simp only [byteCount] at this hempty
    omega
  · have hin := hls l hl (by simpa using hmarker)
    exact hk a List.mem_cons_self ⟨Nat.le_trans hin.1 hcovers.1, Nat.lt_of_lt_of_le hcovers.2 hin.2⟩

/-- The tokens from one with text on are covered up to the last one with text. -/
theorem covered_hull {l : Lexeme} (h : Reads P c t ((l :: ls).reverse.map .lexeme) d)
    (hl : l.token.isMarker = false) (hspan : l.span.start < l.span.stop) (r : Nat) :
    Covered c t [⟨l.span.start, readThrough r (l :: ls)⟩] d := by
  have hmem : ∀ m ∈ l :: ls, _ := fun m hm => h.span_mem (List.mem_reverse.2 hm)
  have hpairs := List.pairwise_reverse.1 h.pairwise
  have hstop : ∀ m ∈ l :: ls, m.token.isMarker = false → m.span.stop ≤ readThrough r (l :: ls) :=
    fun m hm => stop_le_readThrough hpairs (fun m hm => (hmem m hm).2.1) r hm
  have hfirst := hstop l List.mem_cons_self hl
  have hlast : readThrough r (l :: ls) ≤ d.offset := by
    rw [readThrough_cons, hl]
    exact readThrough_le (fun m hm => (hmem m (List.mem_cons_of_mem _ hm)).2.2)
      (hmem l List.mem_cons_self).2.2
  refine h.covered ⟨(hmem l List.mem_cons_self).1, by dsimp only; omega, hlast⟩ ?_
  intro m hm htext
  refine ⟨?_, hstop m hm htext⟩
  rcases List.mem_cons.1 hm with rfl | hm
  · exact Nat.le_refl _
  · have := (List.pairwise_cons.1 hpairs).1 m hm
    dsimp only
    omega

end Reads

/-! ## Covering blocks -/

namespace Laid

variable {source : String} {c e : Cursor} {bs cs : List Block}

theorem rest_eq_nil (h : Laid source c bs e) : e.rest = [] := by
  induction h with
  | nil hnil => exact hnil
  | cons _ _ _ _ ih => exact ih

/-- The blocks at the front, read in one, and what is laid behind them. -/
theorem reads_append (bs : List Block) (h : Laid source c (bs ++ cs) e) :
    ∃ t d, Reads Anywhere c t ((bs.flatMap Block.lexemes).reverse.map .lexeme) d ∧ Laid source d cs e := by
  induction bs generalizing c with
  | nil => exact ⟨[], c, .start, h⟩
  | cons b bs ih =>
    cases h with
    | cons hc hfits hreads hlaid =>
      obtain ⟨u, d, hrest, hlaid⟩ := ih hlaid
      have hboth := hreads.append hrest fun _ _ _ => trivial
      rw [← List.map_append, ← List.reverse_append, ← List.flatMap_cons] at hboth
      exact ⟨_, d, hboth, hlaid⟩

end Laid

/-- A comment block is covered by its comment. -/
theorem covered_comment {s : Source} {c d : Cursor} {t : List Char} {level : CommentLevel} {l close : Lexeme}
    {ls : List Lexeme} (h : Reads Anywhere c t (((l :: ls) ++ [close]).reverse.map .lexeme) d)
    (hlevel : ∀ m ∈ l :: ls, ∃ content, m.token = .comment level content)
    (hclose : close.token = .closeComment) :
    Covered c t [(joinComment s l ls).location.span] d := by
  have htext : ∀ m ∈ l :: ls, m.token.isMarker = false := by
    intro m hm
    obtain ⟨content, hcontent⟩ := hlevel m hm
    rw [hcontent]
    rfl
  obtain ⟨content, hcontent⟩ := hlevel l List.mem_cons_self
  have hfirst := h.start_lt_stop (List.mem_reverse.2 List.mem_cons_self) (.inr ⟨_, _, hcontent⟩)
  have hcovered := h.covered_hull (htext l List.mem_cons_self) hfirst 0
  rwa [show l :: ls.append [close] = (l :: ls) ++ [close] from rfl, readThrough_concat, hclose,
    if_pos (by rfl), readThrough_eq_getLast htext] at hcovered

/-- Stray lines in a row are covered by their junk. -/
theorem covered_stray {s : Source} {c d : Cursor} {t : List Char} {span : Span} {spans : List Span}
    (h : Reads Anywhere c t ((strayLexeme span :: spans.map strayLexeme).reverse.map .lexeme) d)
    (hspan : span.start < span.stop) :
    Covered c t [(strayJunk s (strayLexeme span) (spans.map strayLexeme)).location.span] d := by
  have htext : ∀ m ∈ strayLexeme span :: spans.map strayLexeme, m.token.isMarker = false := by
    intro m hm
    rcases List.mem_cons.1 hm with rfl | hm
    · rfl
    · obtain ⟨span', -, rfl⟩ := List.mem_map.1 hm
      rfl
  have hcovered := h.covered_hull rfl hspan 0
  rwa [readThrough_eq_getLast htext] at hcovered

theorem Token.isMarker_of_opensEntry {k : Token} (h : k.opensEntry = true) : k.isMarker = false := by
  cases k <;> first | rfl | simp [opensEntry] at h

/-- An entry block is covered from its first token to the last one with text. -/
theorem covered_entry {c d : Cursor} {t : List Char} {l : Lexeme} {ls : List Lexeme}
    (h : Reads Anywhere c t ((l :: ls).reverse.map .lexeme) d) (hopens : l.token.opensEntry = true) :
    Covered c t [⟨l.span.start, readThrough 0 (l :: ls)⟩] d := by
  have hfirst := h.start_lt_stop (List.mem_reverse.2 List.mem_cons_self) (.inl hopens)
  exact h.covered_hull (Token.isMarker_of_opensEntry hopens) hfirst 0

/-- Junk in the place of an entry covers its block. -/
theorem covered_junk {source : String} {c d e : Cursor} {pre t : List Char} {l : Lexeme} {ls : List Lexeme}
    {bs : List Block} {fault : Fault} (h : Reads Anywhere c t ((l :: ls).reverse.map .lexeme) d)
    (hopens : l.token.opensEntry = true) (hstart : l.span.start = c.offset) (hlaid : Laid source d bs e)
    (hover : (Cursor.ofChars source.toList).Over pre d) :
    Covered c t [(blockJunk (.ofString source) l bs fault).location.span] d := by
  have hspan : (blockJunk (.ofString source) l bs fault).location.span = ⟨c.offset, d.offset⟩ := by
    rw [← hstart, ← hlaid.position_fenceAt hover]
    rfl
  have hmem : ∀ m ∈ l :: ls, _ := fun m hm => h.span_mem (List.mem_reverse.2 hm)
  have hfirst := h.start_lt_stop (List.mem_reverse.2 List.mem_cons_self) (.inl hopens)
  have hlast := (hmem l List.mem_cons_self).2.2
  rw [hspan]
  refine h.covered ⟨Nat.le_refl _, by dsimp only; omega, Nat.le_refl _⟩ ?_
  intro m hm _
  exact ⟨(hmem m hm).1, (hmem m hm).2.2⟩

/-- An entry that is read lies over its tokens. -/
theorem spans_blockEntry {s : Source} {l : Lexeme} {ls : List Lexeme} {bs : List Block} {e : Entry}
    (h : blockEntry s l ls bs = .ok e) :
    e.spans = [⟨l.span.start, readThrough 0 (l :: ls)⟩] ∧
      ∀ c, (e.document c).spans = [c.location.span, ⟨l.span.start, readThrough 0 (l :: ls)⟩] := by
  have hderived := derived_entry h
  obtain ⟨-, -, l', ls', hl, hlocation⟩ := hderived.spells
  obtain ⟨rfl, -⟩ := List.cons.inj hl
  have hspan : e.location.span = ⟨l.span.start, readThrough 0 (l :: ls)⟩ := by
    rw [hlocation]
    rfl
  cases hderived with
  | message => exact ⟨congrArg (fun a => [a]) hspan, fun c => congrArg (fun a => [c.location.span, a]) hspan⟩
  | term => exact ⟨congrArg (fun a => [a]) hspan, fun c => congrArg (fun a => [c.location.span, a]) hspan⟩

/-- **The entries of laid blocks** cover them. -/
theorem Grouped.covered {source : String} {c e : Cursor} {pre : List Char} {bs : List Block} {es : List Entry}
    (h : Grouped (.ofString source) bs es) (hlaid : Laid source c bs e)
    (hover : (Cursor.ofChars source.toList).Over pre c) : ∃ t, Covered c t (extents es) e := by
  -- each rule takes its blocks off the front, and the cover of the rest goes behind theirs
  induction h generalizing c pre with
  | nil =>
    cases hlaid with
    | nil => exact ⟨[], .ofLayout (.refl _) (by simp)⟩
  | @blank span bs es _ ih =>
    cases hlaid with
    | cons _ _ hreads hlaid =>
      have hblank := hreads.layout_of_blank fun i hi => ⟨span, List.mem_singleton.1 hi⟩
      obtain ⟨u, hcovered⟩ := ih hlaid (hover.trans hreads.stretch)
      exact ⟨_, (Covered.ofLayout hreads.stretch hblank).append hcovered⟩
  | @stray span spans bs es _ _ ih =>
    have hspan : span.start < span.stop := by
      cases hlaid with
      | cons _ hfits _ _ => exact hfits.2
    obtain ⟨t, d, hreads, hlaid⟩ := Laid.reads_append (.stray span :: spans.map .stray) hlaid
    obtain ⟨u, hcovered⟩ := ih hlaid (hover.trans hreads.stretch)
    rw [flatMap_lexemes_stray, flatMap_lexemes_strays] at hreads
    exact ⟨_, (covered_stray hreads hspan).append hcovered⟩
  | comment _ _ ih =>
    cases hlaid with
    | cons _ hfits hreads hlaid =>
      obtain ⟨hclose, l, ls, level, hl, -, hlevel⟩ := hfits
      obtain ⟨u, hcovered⟩ := ih hlaid (hover.trans hreads.stretch)
      exact ⟨_, (covered_comment hreads hlevel hclose).append hcovered⟩
  | documented _ hok _ ih =>
    cases hlaid with
    | cons _ hfits hreads hlaid =>
      obtain ⟨hclose, l, ls, level, hl, -, hlevel⟩ := hfits
      cases hlaid with
      | cons _ hfits' hreads' hlaid =>
        obtain ⟨-, m, ms, hm, hopens, -, -⟩ := hfits'
        obtain ⟨rfl, rfl⟩ := List.cons.inj hm
        obtain ⟨u, hcovered⟩ := ih hlaid (hover.trans (hreads.stretch.trans hreads'.stretch))
        have hcomment := covered_comment (s := .ofString source) hreads hlevel hclose
        rw [extents_cons, (spans_blockEntry hok).2]
        exact ⟨_, hcomment.append ((covered_entry hreads' hopens).append hcovered)⟩
  | entry hok _ ih =>
    cases hlaid with
    | cons _ hfits hreads hlaid =>
      obtain ⟨-, m, ms, hm, hopens, -, -⟩ := hfits
      obtain ⟨rfl, rfl⟩ := List.cons.inj hm
      obtain ⟨u, hcovered⟩ := ih hlaid (hover.trans hreads.stretch)
      rw [extents_cons, (spans_blockEntry hok).1]
      exact ⟨_, (covered_entry hreads hopens).append hcovered⟩
  | broken _ _ ih =>
    cases hlaid with
    | cons _ hfits hreads hlaid =>
      obtain ⟨-, m, ms, hm, hopens, hstart, -⟩ := hfits
      obtain ⟨rfl, rfl⟩ := List.cons.inj hm
      obtain ⟨u, hcovered⟩ := ih hlaid (hover.trans hreads.stretch)
      exact ⟨_, (covered_junk hreads hopens hstart hlaid (hover.trans hreads.stretch)).append hcovered⟩

/-- Rejecting duplicates leaves every entry and every comment in its place. -/
theorem extents_rejectDuplicates (s : Source) (seen : List String) (es : List Entry) :
    extents (rejectDuplicates s seen es) = extents es := by
  have hrejected : ∀ e : Entry, ∀ name span, extents (rejected s e e.doc? name span) = e.spans := by
    intro e name span
    rw [rejected, Entry.spans]
    cases e.doc? <;> simp
  fun_induction rejectDuplicates s seen es with
  | case1 => rfl
  | case2 seen m es key ih | case3 seen t es key ih =>
    rw [extents_append, extents_cons, ih]
    congr 1
    split
    · simp
    · exact hrejected _ _ _
  | case4 seen e es _ _ ih => rw [extents_cons, extents_cons, ih]

theorem extents_parse_body (o : ParseOptions) (source : String) :
    extents (parse o source).body = extents (body (.ofString source) (tokenize o.maxNesting source.toList)) := by
  obtain ⟨policy, limit⟩ := o
  cases policy with
  | preserve => rfl
  | reject => exact extents_rejectDuplicates _ _ _

/-- **Nothing of a source is lost or doubled.** The entries of a resource and the comments that belong to
them, each comment in front of its entry, follow one another without overlap; a byte that none of them lies
over is a blank or a line feed. -/
theorem parse_covers (o : ParseOptions) (source : String) :
    (extents (parse o source).body).Pairwise (fun a b => a.stop ≤ b.start) ∧
      (∀ a ∈ extents (parse o source).body, a.start < a.stop ∧ a.stop ≤ (Source.ofString source).size) ∧
      ∀ k x, charAt? k source.toList = some x →
        (∀ a ∈ extents (parse o source).body, ¬ a.covers k) → isLayout x = true := by
  rw [extents_parse_body]
  obtain ⟨d, hlaid⟩ := laid_blocks o.maxNesting source
  obtain ⟨t, hcovered⟩ := (grouped_body o.maxNesting source).covered hlaid (.refl _)
  have hrest := hlaid.rest_eq_nil
  have ht : source.toList = t := by
    have := hcovered.stretch.rest
    rwa [hrest, List.append_nil] at this
  have hsize : d.offset = (Source.ofString source).size := by
    simpa [Cursor.ofChars, Source.ofString, ← ht] using hcovered.stretch.offset
  refine ⟨hcovered.ordered, ?_, ?_⟩
  · intro a ha
    have := hcovered.within a ha
    exact ⟨this.2.1, hsize ▸ this.2.2⟩
  · intro k x hx hk
    apply hcovered.layout k x (ht ▸ hx)
    intro a ha
    simpa [Cursor.ofChars] using hk a ha

end Fluent
