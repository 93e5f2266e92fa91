import Fluent.Proofs.Excerpt
import Fluent.Proofs.Reaches
import Fluent.Proofs.Restyled

/-!
# What is displayed is parsed

A pattern on a single line is displayed as it could stand behind an equals sign. Read there it is the same pattern, but
for locations.

* `Pattern.OneLine`: what is asked of the pattern.
* `reaches_elements`: the machine reads the displayed elements of a pattern as tokens that spell them.
* `Pattern.OneLine.parse_short`: the displayed pattern is parsed as the value of a message.
* `parse_display`: patterns and placeables of a resource are.
-/

namespace Fluent

/-! ## Runs of text -/

/-- The token that a run of text becomes where it begins no line. -/
def textLexemes (offset : Nat) (text : List Char) : List Lexeme :=
  if text = [] then [] else [⟨.pureText (String.ofList text), ⟨offset, offset + byteCount text⟩⟩]

theorem textLexemes_nil (offset : Nat) : textLexemes offset [] = [] := rfl

theorem dedent_lexeme (l : Lexeme) (items : List PatternItem) : dedent (.lexeme l :: items) = l :: dedent items := by
  have hindents : (PatternItem.lexeme l :: items).filterMap PatternItem.indent? =
      items.filterMap PatternItem.indent? := List.filterMap_cons_none rfl
  rw [dedent, hindents, dedent]
  rfl

theorem dedent_text (offset : Nat) (text : List Char) (items : List PatternItem) :
    dedent (.run ⟨0, none, offset, text⟩ :: items) = textLexemes offset text ++ dedent items := by
  have hindents : (PatternItem.run ⟨0, none, offset, text⟩ :: items).filterMap PatternItem.indent? =
      items.filterMap PatternItem.indent? := List.filterMap_cons_none rfl
  rw [dedent, hindents, dedent]
  generalize commonIndent _ = common
  cases text with
  | nil =>
    have hnone : PatternItem.settle? common (.run ⟨0, none, offset, []⟩) = none := by
      simp [PatternItem.settle?, TextRun.value]
    rw [List.filterMap_cons_none hnone]
    rfl
  | cons x xs =>
    have hsome : PatternItem.settle? common (.run ⟨0, none, offset, x :: xs⟩) =
        some ⟨.pureText (String.ofList (x :: xs)), ⟨offset, offset + byteCount (x :: xs)⟩⟩ := by
      simp [PatternItem.settle?, TextRun.value]
    rw [List.filterMap_cons_some hsome]
    rfl

theorem dedent_written (items : List PatternItem) (ls : List Lexeme) :
    dedent (written items ls) = ls.reverse ++ dedent items := by
  induction ls generalizing items with
  | nil => rfl
  | cons l ls ih => rw [written_cons, ih, dedent_lexeme, List.reverse_cons, List.append_assoc, List.singleton_append]

/-- The items outside of a pattern, behind a run of text in it. -/
theorem written_text (offset : Nat) (text : List Char) (items outer : List PatternItem) :
    (dedent (.run ⟨0, none, offset, text⟩ :: items)).map .lexeme ++ outer =
      written ((dedent items).map .lexeme ++ outer) (textLexemes offset text) := by
  rw [dedent_text, textLexemes]
  split <;> rfl

/-- Nothing is trimmed off a text that ends with content. -/
theorem trimEnd_of_solid {text : List Char} (h : text = [] ∨ Solid text) (breaks : Nat) (indent : Option Nat)
    (offset : Nat) : TextRun.trimEnd ⟨breaks, indent, offset, text⟩ = ⟨breaks, indent, offset, text⟩ := by
  have hkeep : (text.reverse.dropWhile Line.isBlankChar).reverse = text := by
    rcases h with rfl | ⟨x, hlast, hx⟩
    · rfl
    · simp only [isLayout, Bool.or_eq_false_iff] at hx
      obtain ⟨xs, hxs⟩ := List.head?_eq_some_iff.1 ((List.head?_reverse).trans hlast)
      rw [hxs, List.dropWhile_cons, if_neg (by simp [hx.1]), ← hxs, List.reverse_reverse]
  rw [TextRun.trimEnd, hkeep]

variable (limit : Nat) {c d b : Cursor} {text : List Char} (items : List PatternItem) {outer : List PatternItem}
  {breaks : Nat} {indent : Option Nat} {fs : List Frame}

/-- Text on one line, without braces: what a pattern shows of itself as it stands, so that reading it again can tell it
from placeables. -/
def IsLineText (text : List Char) : Prop := IsText text ∧ '\n' ∉ text

theorem IsLineText.inRun (h : IsLineText text) : ∀ x ∈ text, State.inRun x = true := by
  intro x hx
  have hbreak : x ≠ '\n' := fun heq => h.2 (heq ▸ hx)
  simp [State.inRun, h.1 x hx, hbreak]

/-- A brace behind text opens a placeable. -/
theorem step_text {rest : List Char} (h : c.Over text d) (htext : IsLineText text) (hrest : d.rest = '{' :: rest) :
    State.step limit ⟨c, items, .pattern outer breaks indent :: fs⟩ =
      State.openPlaceable limit
        ⟨d, .run ⟨breaks, indent, c.offset, text⟩ :: items, .pattern outer 0 none :: fs⟩ := by
  have hbrace : ∀ x ∈ d.rest.head?, State.inRun x = false := by
    rw [hrest]
    rintro x hx
    obtain rfl := Option.some.inj hx
    rfl
  obtain ⟨hskip, htake⟩ := h.skipWhile htext.inRun hbrace
  simp only [State.step]
  rw [State.readText_brace (by rw [hskip, hrest]), hskip, htake]

/-- The end of a line that no line behind it goes on with: the line ends here, and the next one with content, if there
is one, begins something else. -/
structure Line.EndsValue (cs : List Char) : Prop where
  head : ∀ x ∈ cs.head?, x = '\n'
  next : (nextContent? cs).filter (·.continuesPattern) = none

theorem Line.endsValue_nil : EndsValue [] := ⟨nofun, by simp [nextContent?]⟩

/-- Text at the end of its line ends its pattern, unless a line goes on with it. -/
theorem step_close (h : c.Over text d) (htext : IsLineText text) (hend : Line.EndsValue d.rest) :
    State.step limit ⟨c, items, .pattern outer breaks indent :: fs⟩ =
      .next ⟨d, written outer ((dedent (.run (TextRun.mk breaks indent c.offset text).trimEnd :: items)).reverse ++
        [⟨.patternEnd, .at d.offset⟩]), fs⟩ := by
  obtain ⟨hhead, hnext⟩ := hend
  have hbreak : ∀ x ∈ d.rest.head?, State.inRun x = false := fun x hx => by
    rw [hhead x hx]
    rfl
  obtain ⟨hskip, htake⟩ := h.skipWhile htext.inRun hbreak
  have hclosed : ∀ run : TextRun, run.trimEnd = (TextRun.mk breaks indent c.offset text).trimEnd →
      State.closePattern ⟨d, items, .pattern outer breaks indent :: fs⟩ run outer fs =
        ⟨d, written outer ((dedent (.run (TextRun.mk breaks indent c.offset text).trimEnd :: items)).reverse ++
          [⟨.patternEnd, .at d.offset⟩]), fs⟩ := by
    intro run hrun
    rw [State.closePattern, hrun, written_append, written_eq outer, List.map_reverse, List.reverse_reverse]
    rfl
  simp only [State.step]
  cases hrest : d.rest with
  | nil =>
    rw [State.readText_otherwise (by simp [hskip, hrest]) (by simp [hskip, hrest]), hskip, htake, hclosed _ rfl]
  | cons x xs =>
    obtain rfl : x = '\n' := hhead x (by rw [hrest]; rfl)
    rw [State.readText_newline (by rw [hskip, hrest]), hskip, htake, hnext]
    simp only
    rw [hclosed _ (TextRun.trimEnd_dropReturn _)]

/-- Nothing is lost where the last text ends with content. -/
theorem step_lastText (h : c.Over text d) (htext : IsLineText text) (hend : Line.EndsValue d.rest)
    (hsolid : text = [] ∨ Solid text) :
    State.step limit ⟨c, items, .pattern outer 0 none :: fs⟩ =
      .next ⟨d, written ((dedent items).map .lexeme ++ outer)
        (textLexemes c.offset text ++ [⟨.patternEnd, .at d.offset⟩]), fs⟩ := by
  rw [step_close limit items h htext hend, trimEnd_of_solid hsolid, written_append, written_append, ← written_text,
    written_eq outer, List.map_reverse, List.reverse_reverse]

/-! ## Elements -/

theorem WellSpaced.tail {e : PatternElement} {es : List PatternElement} (h : WellSpaced (e :: es)) : WellSpaced es := by
  refine ⟨(List.isChain_cons.1 h.apart).2, ?_⟩
  intro chunk hlast
  cases es with
  | nil => cases hlast
  | cons e' es => exact h.solid chunk (by rwa [List.getLast?_cons_cons])

/-- Text in front of some elements that goes on with none of them. If it is not empty, the first of these is no text;
and if there are none, it ends with content. -/
structure Precedes (text : List Char) (es : List PatternElement) : Prop where
  line : IsLineText text
  apart : text ≠ [] → ∀ e ∈ es.head?, e.chunk? = none
  solid : text ≠ [] → es = [] → Solid text

theorem precedes_nil (es : List PatternElement) : Precedes [] es :=
  ⟨⟨by simp [IsText], List.not_mem_nil⟩, fun h => absurd rfl h, fun h => absurd rfl h⟩

/-- **The displayed elements of a pattern are read** up to the end of their line, with some text in front. -/
theorem reaches_elements {es : List PatternElement} (hlegible : ∀ e ∈ es, e.Legible) (hspaced : WellSpaced es)
    (hbreaks : ∀ chunk, .text chunk ∈ es → '\n' ∉ chunk.value.toList) (htext : Precedes text es)
    (hdepths : ∀ k ∈ elementsDepths ((.pattern outer 0 none :: fs).countP Frame.nests) es, k ≤ limit)
    (hover : c.Over (text ++ (displayElements es).toList) b) (hb : Line.EndsValue b.rest) :
    ∃ ls, Spells (.elements es) ls ∧
      State.Reaches limit ⟨c, items, .pattern outer 0 none :: fs⟩
        ⟨b, written ((dedent items).map .lexeme ++ outer) (textLexemes c.offset text ++ ls), fs⟩ := by
  induction es generalizing text c items with
  | nil =>
    have hnil : (displayElements []).toList = [] := rfl
    rw [hnil, List.append_nil] at hover
    refine ⟨[⟨.patternEnd, .at b.offset⟩], .elementsEnd, .single (step_lastText limit items hover htext.line hb ?_)⟩
    by_cases hempty : text = []
    · exact .inl hempty
    · exact .inr (htext.solid hempty rfl)
  | cons e es ih =>
    obtain ⟨hfirst, hrest⟩ := List.forall_mem_cons.1 hlegible
    have hbreaks' : ∀ chunk, .text chunk ∈ es → '\n' ∉ chunk.value.toList :=
      fun chunk hchunk => hbreaks chunk (List.mem_cons_of_mem _ hchunk)
    obtain ⟨hdeep, hdeeper⟩ := List.forall_mem_append.1 hdepths
    rw [toList_displayElements_cons] at hover
    cases e with
    | text chunk =>
      -- the text in front is none, so this one takes its place
      obtain rfl : text = [] := by
        by_contra hne
        cases htext.apart hne _ rfl
      obtain ⟨hne, hletters⟩ := hfirst
      have hprecedes : Precedes chunk.value.toList es := by
        refine ⟨⟨hletters, hbreaks chunk List.mem_cons_self⟩, fun _ e he => ?_, ?_⟩
        · exact ((List.isChain_cons.1 hspaced.apart).1 e he).resolve_left (by rintro ⟨⟩)
        · rintro - rfl
          exact hspaced.solid chunk rfl
      obtain ⟨ls, hspells, hreaches⟩ := ih items hrest hspaced.tail hbreaks' hprecedes hdeeper hover
      rw [textLexemes, if_neg hne, String.ofList_toList] at hreaches
      exact ⟨⟨.pureText chunk.value, ⟨c.offset, c.offset + byteCount chunk.value.toList⟩⟩ :: ls, .elementsText hspells,
        hreaches⟩
    | placeable p =>
      obtain ⟨c₁, hover₁, hover⟩ := hover.split
      obtain ⟨c₂, hplaceable, hover⟩ := hover.split
      obtain ⟨rest, hrest'⟩ := p.exists_brace
      have hbrace : c₁.rest = '{' :: (rest ++ c₂.rest) := by
        rw [hplaceable.rest, show (PatternElement.placeable p).display = p.display from rfl, hrest', List.cons_append]
      obtain ⟨ls, t, hspells, hopen, hreaches⟩ := Placeable.readable hfirst (.pattern outer 0 none :: fs)
        (.run ⟨0, none, c.offset, text⟩ :: items) hplaceable hdeep
      obtain ⟨ms, hspells', hreaches'⟩ := ih (c := c₂)
        (written (.run ⟨0, none, c.offset, text⟩ :: items) ls) hrest hspaced.tail hbreaks' (precedes_nil es)
        hdeeper hover
      refine ⟨ls ++ ms, .elementsPlaceable hspells hspells', ?_⟩
      have hstep := (step_text limit items hover₁ htext.line hbrace).trans hopen
      rw [dedent_written, List.map_append, List.map_reverse, List.append_assoc, ← written_eq, written_text,
        textLexemes_nil, List.nil_append, ← written_append, ← written_append] at hreaches'
      exact .head hstep (hreaches.trans hreaches')

/-! ## Patterns -/

/-- A pattern that is displayed on one line, and as it was read: every part of it is told apart again, nothing is
trimmed, and no placeable or argument list is deeper than the limit. -/
structure Pattern.OneLine (limit : Nat) (p : Pattern) : Prop where
  wellFormed : p.WellFormed
  legible : ∀ e ∈ p.elements, e.Legible
  spaced : WellSpaced p.elements
  breaks : ∀ chunk, .text chunk ∈ p.elements → '\n' ∉ chunk.value.toList
  start : p.display.toList.head? ≠ some ' '
  depths : ∀ k ∈ p.depths 0, k ≤ limit

/-- A text is not blank if content stands in its first line. -/
theorem isBlank_of_content {xs rest : List Char} {x : Char} (hxs : '\n' ∉ xs) (hx : isLayout x = false) :
    Line.isBlank (xs ++ x :: rest) = false := by
  simp only [isLayout, Bool.or_eq_false_iff, beq_eq_false_iff_ne] at hx
  by_contra hblank
  have hmem : x ∈ Line.head (xs ++ x :: rest) := by
    have hkeep : ∀ y ∈ xs, (y != '\n') = true := fun y hy => bne_iff_ne.2 fun heq => hxs (heq ▸ hy)
    rw [Line.head, List.takeWhile_append_of_pos hkeep, List.takeWhile_cons, if_pos (by simpa using hx.2)]
    exact List.mem_append_right _ List.mem_cons_self
  rw [Line.isBlank_iff.1 (by simpa using hblank) x hmem] at hx
  cases hx.1

theorem Solid.isBlank_of_notMem {xs : List Char} (h : Solid xs) (hbreak : '\n' ∉ xs) : Line.isBlank xs = false := by
  by_contra hblank
  exact hbreak (h.mem_of_isBlank (by simpa using hblank)).1

/-- Elements begin with a brace where the first of them is a placeable. -/
theorem exists_brace_displayElements (p : Placeable) (es : List PatternElement) :
    ∃ rest, (displayElements (.placeable p :: es)).toList = '{' :: rest := by
  obtain ⟨rest, hrest⟩ := p.exists_brace
  rw [toList_displayElements_cons, show (PatternElement.placeable p).display = p.display from rfl, hrest]
  exact ⟨_, List.cons_append⟩

/-- The first line of displayed elements has content. -/
theorem isBlank_displayElements {es : List PatternElement} (hne : es ≠ []) (hspaced : WellSpaced es)
    (hbreaks : ∀ chunk, .text chunk ∈ es → '\n' ∉ chunk.value.toList) :
    Line.isBlank (displayElements es).toList = false := by
  cases es with
  | nil => exact absurd rfl hne
  | cons e es =>
    cases e with
    | placeable p =>
      obtain ⟨rest, hrest⟩ := exists_brace_displayElements p es
      rw [hrest]
      have hnone : '\n' ∉ ([] : List Char) := List.not_mem_nil
      exact isBlank_of_content hnone rfl
    | text chunk =>
      have hbreak := hbreaks chunk List.mem_cons_self
      cases es with
      | nil =>
        have htext : (displayElements [.text chunk]).toList = chunk.value.toList := by
          rw [toList_displayElements_cons]
          exact List.append_nil _
        rw [htext]
        exact (hspaced.solid chunk rfl).isBlank_of_notMem hbreak
      | cons e' es =>
        cases e' with
        | text chunk' =>
          have happart := (List.isChain_cons_cons.1 hspaced.apart).1
          simp [PatternElement.chunk?] at happart
        | placeable p =>
          obtain ⟨rest, hrest⟩ := exists_brace_displayElements p es
          rw [toList_displayElements_cons, hrest]
          exact isBlank_of_content hbreak rfl

/-! ## Messages -/

/-- What is read from a header up to the end of the source. -/
theorem lexemes_written (c : Cursor) (ls : List Lexeme) : State.lexemes ⟨c, written [] ls, []⟩ = ls := by
  rw [State.lexemes, State.unwind, dedent_written, List.reverse_append, List.reverse_reverse]
  rfl

/-- What stands behind the last line of a source: nothing, or a line feed. Either of them ends a value in the same
way. -/
def IsEnding (cs : List Char) : Prop := cs = [] ∨ cs = ['\n']

theorem IsEnding.endsValue {cs : List Char} (h : IsEnding cs) : Line.EndsValue cs := by
  rcases h with rfl | rfl
  · exact Line.endsValue_nil
  · exact ⟨by simp, by simp [Line.nextContent?, Line.isBlank, Line.head, Line.tail]⟩

theorem IsEnding.nextLine (h : IsEnding c.rest) : c.nextLine.rest = [] := by
  rcases h with hrest | hrest <;> simp [Cursor.nextLine, Cursor.lineEnd, Cursor.skip, Cursor.skipWhile, hrest]

/-- An entry ends with the source. -/
theorem run_at_end (hrest : IsEnding c.rest) :
    State.run limit ⟨c, items, []⟩ = (.complete, ⟨c, items, []⟩) := by
  have hend : c.lineEnd = c := by
    obtain ⟨offset, rest⟩ := c
    rcases hrest with rfl | rfl <;> simp [Cursor.lineEnd, Cursor.skipWhile, byteCount]
  have hnext : Line.isBlank c.rest = true ∧ Line.nextContent? c.rest = none := by
    rcases hrest with hrest | hrest <;> simp [hrest, Line.nextContent?, Line.isBlank, Line.head, Line.tail]
  have hstep : State.step limit ⟨c, items, []⟩ = .stop .complete ⟨c, items, []⟩ := by
    simp only [State.step, State.betweenAttributes, State.finishLine, State.toLineEnd, hend, hnext, if_true]
  rw [State.run, hstep]

/-- The message `m`, from its equals sign on. -/
def messageText (value : List Char) : List Char := 'm' :: ' ' :: '=' :: value

def messageHeader (value : List Char) : Line.Assignment := ⟨['m'], 1, value⟩

/-- The tokens in front of the value. -/
def shortTokens : List Lexeme := [⟨.identifier "m", ⟨0, 1⟩⟩, ⟨.equals, ⟨2, 3⟩⟩]

/-- Behind its header the value of a message begins. -/
theorem ofHeader_message (value : List Char) :
    State.ofHeader (.ofChars (messageText value)) false (messageHeader value) =
      State.beginValue ⟨⟨3, value⟩, written [] shortTokens, []⟩ := rfl

/-- A value begins on the line of its sign. -/
theorem beginValue_inline (fs : List Frame) {spaces : List Char} (hover : c.Over spaces d)
    (hspaces : ∀ x ∈ spaces, (x == ' ') = true) (hstart : d.rest.head? ≠ some ' ') (hcontent : Line.isBlank d.rest = false) :
    State.beginValue ⟨c, items, fs⟩ =
      ⟨d, [], .pattern (.lexeme ⟨.patternStart, .at d.offset⟩ :: items) 0 none :: fs⟩ := by
  have hend : ∀ x ∈ d.rest.head?, (x == ' ') = false := fun x hx => beq_eq_false_iff_ne.2 fun heq => hstart (heq ▸ hx)
  obtain ⟨hskip, -⟩ := hover.skipWhile hspaces hend
  simp only [State.beginValue, hskip, hcontent, Bool.false_eq_true, if_false]
  rfl

/-- **A message that is all of a source** is parsed as the pattern that its tokens spell. -/
theorem parse_message {value : List Char} {p : Pattern} {ls : List Lexeme} (hwell : p.WellFormed)
    (hspells : Spells (.pattern (some p)) ls)
    (hrun : (State.ofHeader (.ofChars (messageText value)) false (messageHeader value)).run limit =
      (.complete, ⟨b, written [] (shortTokens ++ ls), []⟩))
    (hb : b.nextLine.rest = []) (policy : DuplicatePolicy) {source : String} (hsource : source.toList = messageText value) :
    ∃ m, (parse ⟨policy, limit⟩ source).body = [.message m] ∧
      m.unlocated = ⟨⟨"m", default⟩, some p.unlocated, [], none, default⟩ := by
  have hspelled : Entry.SpelledBy (.message ⟨⟨"m", default⟩, some p, [], none, default⟩)
      (⟨.identifier "m", ⟨0, 1⟩⟩ :: ⟨.equals, ⟨2, 3⟩⟩ :: (ls ++ [])) := .message hspells .attributesEnd
  rw [List.append_nil] at hspelled
  have hentry : Entry.WellFormed (.message ⟨⟨"m", default⟩, some p, [], none, default⟩) := by
    refine ⟨.inl (by simp), ?_, by simp⟩
    rintro q ⟨⟩
    exact hwell
  -- the message is the only block
  have hheader : Line.entryHeader? (Cursor.ofChars (messageText value)).rest = some (false, messageHeader value) := rfl
  have hblank : Line.isBlank (Cursor.ofChars (messageText value)).rest = false := rfl
  have hblock : block limit (.ofChars (messageText value)) = _ :=
    block_of_header hblank (Line.commentLevel?_of_entryHeader hheader) hheader
  rw [hrun] at hblock
  simp only [lexemes_written] at hblock
  have hblocks : blocks limit (messageText value) = [.entry false "m" 0 (shortTokens ++ ls) .complete] :=
    blocks_eq_singleton.2 ⟨by simp [messageText], congrArg Prod.fst hblock, by rw [hblock]; exact hb⟩
  -- no token of it begins an item at another line
  have hfence : ∀ m ∈ ⟨.equals, ⟨2, 3⟩⟩ :: ls, isFence (.ofString source) m = false := by
    have hline : (Cursor.ofChars (messageText value)).StartsLine source.toList := by
      rw [hsource]
      exact ⟨[], .refl _, .inl rfl⟩
    have hfits := fits_block limit hline (List.cons_ne_nil _ _)
    rw [hblock] at hfits
    obtain ⟨-, l, ms, hcons, -, -, hms⟩ := hfits
    obtain ⟨-, rfl⟩ := List.cons.inj hcons
    exact hms
  obtain ⟨e, hbody, hequal⟩ := body_of_spelled hentry .none hspelled hfence
  obtain ⟨m, rfl⟩ : ∃ m, e = .message m := by
    cases e with
    | message m => exact ⟨m, rfl⟩
    | _ => cases hequal
  refine ⟨m, ?_, Entry.message.inj hequal⟩
  have htokens : tokenize limit (Source.ofString source).chars =
      [] ++ ⟨.identifier "m", ⟨0, 1⟩⟩ :: ⟨.equals, ⟨2, 3⟩⟩ :: ls := by
    rw [tokenize, show (Source.ofString source).chars = _ from hsource, hblocks]
    exact List.append_nil _
  rw [parse, htokens, parseTokens]
  cases policy with
  | preserve => exact hbody
  | reject =>
    simp only [bodyUnder, hbody]
    refine rejectDuplicates_singleton ?_
    rw [← Entry.attributeNames_unlocated, hequal]
    exact List.nodup_nil

/-- A message with a displayed value. -/
def shortText (p : Pattern) : List Char := 'm' :: ' ' :: '=' :: ' ' :: p.display.toList

def shortHeader (p : Pattern) : Line.Assignment := ⟨['m'], 1, ' ' :: p.display.toList⟩

namespace Pattern.OneLine

variable {limit : Nat} {p : Pattern}

theorem not_isBlank (h : p.OneLine limit) : Line.isBlank p.display.toList = false := by
  obtain ⟨es, location⟩ := p
  exact isBlank_displayElements h.wellFormed.1 h.spaced h.breaks

/-- Behind its header the value of the message begins. -/
theorem ofHeader_short (h : p.OneLine limit) :
    State.ofHeader (.ofChars (shortText p)) false (shortHeader p) =
      ⟨⟨4, p.display.toList⟩, [], [.pattern (written [] (shortTokens ++ [⟨.patternStart, ⟨4, 4⟩⟩])) 0 none]⟩ := by
  have hover : Cursor.Over ⟨3, ' ' :: p.display.toList⟩ [' '] ⟨4, p.display.toList⟩ := ⟨rfl, rfl⟩
  have hbegin := beginValue_inline (written [] shortTokens) [] hover (by simp) h.start h.not_isBlank
  exact (ofHeader_message _).trans hbegin

/-- **The machine reads a displayed pattern** up to the end of the source. -/
theorem run_short (h : p.OneLine limit) :
    ∃ b ls, b.rest = [] ∧ Spells (.pattern (some p)) ls ∧
      (State.ofHeader (.ofChars (shortText p)) false (shortHeader p)).run limit =
        (.complete, ⟨b, written [] (shortTokens ++ ls), []⟩) := by
  obtain ⟨es, location⟩ := p
  have hover : Cursor.Over ⟨4, (displayElements es).toList⟩ ([] ++ (displayElements es).toList)
      ⟨4 + byteCount (displayElements es).toList, []⟩ := ⟨(List.append_nil _).symm, rfl⟩
  have hdepths : ∀ k ∈ elementsDepths ([Frame.pattern (written [] (shortTokens ++ [⟨.patternStart, ⟨4, 4⟩⟩]))
      0 none].countP Frame.nests) es, k ≤ limit := h.depths
  obtain ⟨ls, hspells, hreaches⟩ := reaches_elements limit [] h.legible h.spaced h.breaks (precedes_nil es) hdepths
    hover Line.endsValue_nil
  have hitems : written ((dedent []).map .lexeme ++ written [] (shortTokens ++ [⟨.patternStart, ⟨4, 4⟩⟩]))
      (textLexemes 4 [] ++ ls) = written [] (shortTokens ++ ⟨.patternStart, ⟨4, 4⟩⟩ :: ls) := by
    rw [List.append_cons shortTokens _ ls, written_append [] _ ls]
    rfl
  rw [hitems] at hreaches
  refine ⟨⟨4 + byteCount (displayElements es).toList, []⟩, ⟨.patternStart, ⟨4, 4⟩⟩ :: ls, rfl, .pattern hspells, ?_⟩
  rw [h.ofHeader_short]
  exact hreaches.run_eq.trans (run_at_end limit _ (.inl rfl))

/-- **A pattern on one line** is parsed as it is displayed. -/
theorem parse_alone (h : p.OneLine limit) (policy : DuplicatePolicy) :
    ∃ m, (parse ⟨policy, limit⟩ ("m = " ++ p.display)).body = [.message m] ∧
      m.unlocated = ⟨⟨"m", default⟩, some p.unlocated, [], none, default⟩ := by
  obtain ⟨b, ls, hb, hspells, hrun⟩ := h.run_short
  have hend : IsEnding b.rest := .inl hb
  exact parse_message limit h.wellFormed hspells hrun hend.nextLine policy String.toList_append

theorem parse_short (h : p.OneLine limit) (policy : DuplicatePolicy) :
    ∃ m, (parse ⟨policy, limit⟩ ("m = " ++ p.display)).body = [.message m] ∧
      m.value.map Pattern.unlocated = some p.unlocated := by
  obtain ⟨m, hbody, hequal⟩ := h.parse_alone policy
  exact ⟨m, hbody, congrArg Message.value hequal⟩

end Pattern.OneLine

/-! ## Resources -/

section

variable {o : ParseOptions} {source : String}

theorem oneLine_of_pattern {p : Pattern} (hp : p ∈ (parse o source).patterns) (hfree : p.selectFree = true)
    (hbreaks : ∀ chunk, .text chunk ∈ p.elements → '\n' ∉ chunk.value.toList)
    (hstart : p.display.toList.head? ≠ some ' ') : p.OneLine o.maxNesting := by
  obtain ⟨e, he, hpart⟩ := Resource.mem_patterns hp
  obtain ⟨c, isTerm, a, hc, ha, i, j, hsuffix, hderives⟩ := exists_run_of_part he hpart
  have hneat := (neat_run hc ha o.maxNesting).suffix hsuffix
  have hfrees := List.all_eq_true.1 hfree
  have hlegible := hderives.legible hneat.lexical p rfl
  refine ⟨hderives.wellFormed p rfl, fun e he => hlegible e he (hfrees e he), ?_, hbreaks, hstart, ?_⟩
  · cases hderives with
    | pattern hmarker hes _ => exact hes.wellSpaced (hneat.suffix hmarker.suffix) hbreaks
  · exact fun k hk => depths_le_of_part he hpart hk

/-- A placeable is displayed on one line wherever it stands. -/
theorem oneLine_of_placeable {q : Placeable} (hq : q ∈ (parse o source).placeables) (hfree : q.selectFree = true)
    (location : Location) : Pattern.OneLine o.maxNesting ⟨[.placeable q], location⟩ := by
  obtain ⟨e, he, hpart⟩ := Resource.mem_placeables hq
  obtain ⟨c, isTerm, a, hc, ha, i, j, hsuffix, hderives⟩ := exists_run_of_part he hpart
  have hneat := (neat_run hc ha o.maxNesting).suffix hsuffix
  refine ⟨⟨by simp, hderives.wellFormed, trivial⟩, ?_, ⟨.singleton _, by simp⟩, by simp, ?_, ?_⟩
  · rintro e he
    obtain rfl := List.mem_singleton.1 he
    exact hderives.legible hneat.lexical hfree
  · change (displayElements _).toList.head? ≠ some ' '
    obtain ⟨rest, hrest⟩ := exists_brace_displayElements q []
    rw [hrest]
    simp
  · intro k hk
    have hdepths : Pattern.depths 0 ⟨[.placeable q], location⟩ = q.depths 0 := List.append_nil _
    rw [hdepths] at hk
    exact depths_le_of_part he hpart hk

end

/-- **What is displayed is parsed.** A pattern without select expressions whose text has no line feed and which does
not start with a space is read back as the value of the only entry, under any policy; so is the pattern of any single
placeable without select expressions. -/
theorem parse_display (o : ParseOptions) (source : String) (policy : DuplicatePolicy) :
    (∀ p ∈ (parse o source).patterns, p.selectFree = true →
      (∀ chunk ∈ p.elements.filterMap PatternElement.chunk?, '\n' ∉ chunk.value.toList) →
      p.display.toList.head? ≠ some ' ' →
      ∃ m, (parse ⟨policy, o.maxNesting⟩ ("m = " ++ p.display)).body = [.message m] ∧
        m.value.map Pattern.unlocated = some p.unlocated) ∧
    ∀ q ∈ (parse o source).placeables, q.selectFree = true → ∀ location,
      ∃ m, (parse ⟨policy, o.maxNesting⟩ ("m = " ++ Pattern.display ⟨[.placeable q], location⟩)).body = [.message m] ∧
        m.value.map Pattern.unlocated = some (Pattern.unlocated ⟨[.placeable q], location⟩) := by
  constructor
  · intro p hp hfree hbreaks hstart
    have hbreaks' : ∀ chunk, .text chunk ∈ p.elements → '\n' ∉ chunk.value.toList := fun chunk hchunk =>
      hbreaks chunk (List.mem_filterMap.2 ⟨_, hchunk, rfl⟩)
    exact (oneLine_of_pattern hp hfree hbreaks' hstart).parse_short policy
  · intro q hq hfree location
    exact (oneLine_of_placeable hq hfree location).parse_short policy

/-- A call between two texts, and the placeable in it. -/
theorem parse_display_call :
    ∃ p ∈ (parse ⟨.reject, 100⟩ "k = a \x7b F(-t(x: 1), \x7b $y \x7d, k: \"\\u0041\") \x7d b\n").patterns,
      p.selectFree = true ∧
      (∀ chunk ∈ p.elements.filterMap PatternElement.chunk?, '\n' ∉ chunk.value.toList) ∧
      p.display.toList.head? ≠ some ' ' ∧
      (∃ m, (parse ⟨.preserve, 100⟩ ("m = " ++ p.display)).body = [.message m] ∧
        m.value.map Pattern.unlocated = some p.unlocated) ∧
    ∃ q ∈ (parse ⟨.reject, 100⟩ "k = a \x7b F(-t(x: 1), \x7b $y \x7d, k: \"\\u0041\") \x7d b\n").placeables,
      q.selectFree = true ∧
      ∃ m, (parse ⟨.preserve, 100⟩ ("m = " ++ Pattern.display ⟨[.placeable q], default⟩)).body = [.message m] ∧
        m.value.map Pattern.unlocated = some (Pattern.unlocated ⟨[.placeable q], default⟩) := by
  have hpattern : ∃ p ∈
      (parse ⟨.reject, 100⟩ "k = a \x7b F(-t(x: 1), \x7b $y \x7d, k: \"\\u0041\") \x7d b\n").patterns,
      p.selectFree = true ∧
      (∀ chunk ∈ p.elements.filterMap PatternElement.chunk?, '\n' ∉ chunk.value.toList) ∧
      p.display.toList.head? ≠ some ' ' := by
    decide +kernel
  have hplaceable : ∃ q ∈
      (parse ⟨.reject, 100⟩ "k = a \x7b F(-t(x: 1), \x7b $y \x7d, k: \"\\u0041\") \x7d b\n").placeables,
      q.selectFree = true := by
    decide +kernel
  obtain ⟨p, hp, hfree, hbreaks, hstart⟩ := hpattern
  obtain ⟨q, hq, hfree'⟩ := hplaceable
  obtain ⟨hpatterns, hplaceables⟩ := parse_display ⟨.reject, 100⟩
    "k = a \x7b F(-t(x: 1), \x7b $y \x7d, k: \"\\u0041\") \x7d b\n" .preserve
  exact ⟨p, hp, hfree, hbreaks, hstart, hpatterns p hp hfree hbreaks hstart, q, hq, hfree',
    hplaceables q hq hfree' default⟩

end Fluent
