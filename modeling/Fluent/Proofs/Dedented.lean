import Fluent.Proofs.Gaps

/-!
# Values on several lines

A value can begin on the line of its equals sign or on the next line, and go on over any number of indented lines with
blank lines between them. What the indentations of these lines have in common is no part of the value; line feeds and
the rest of an indentation are, in front of what its line begins with.

* `Row`: texts and placeables on one line.
* `SpreadValue`: the lines of a value, with the elements that they stand for.
* `reaches_row`, `reaches_lines`: the machine reads a line, and all the lines of a value.
* `parse_beside`, `parse_below`: a value that begins on the line of the equals sign, and one that begins on the next.
* `parse_dedented`: a value on several lines is parsed as the elements that it stands for.
-/

namespace Fluent

/-! ## Lines of a value -/

/-- What stands on a line: texts in front of placeables, and the text behind the last one. Texts may be empty. -/
inductive Row where
  | text (text : List Char)
  | placeable (text : List Char) (p : Placeable) (row : Row)

/-- A text as an element; an empty one is none. -/
def textElements (text : List Char) : List PatternElement :=
  if text = [] then [] else [.text ⟨String.ofList text, default⟩]

/-- Text of one line without braces and carriage returns, which stand for something else than themselves in a pattern or
in front of a line feed. -/
def IsRowText (text : List Char) : Prop := ∀ x ∈ text, x ∉ ['{', '}', '\r', '\n']

namespace Row

def chars : Row → List Char
  | text t => t
  | placeable t p row => t ++ (p.display.toList ++ row.chars)

/-- The elements of a line, something in front of its first text. -/
def elements (lead : List Char) : Row → List PatternElement
  | text t => textElements (lead ++ t)
  | placeable t p row => textElements (lead ++ t) ++ .placeable p :: row.elements []

/-- The text behind the last placeable. -/
def last : Row → List Char
  | text t => t
  | placeable _ _ row => row.last

/-- The same line with another text behind the last placeable. -/
def withLast (other : List Char) : Row → Row
  | text _ => text other
  | placeable t p row => placeable t p (row.withLast other)

theorem withLast_last (row : Row) : row.withLast row.last = row := by
  induction row with
  | text => rfl
  | placeable t p row ih => rw [last, withLast, ih]

/-- Texts without line breaks, and displayed placeables within the nesting limit: what a line of a value can be made
of. -/
def Fits (limit : Nat) : Row → Prop
  | text t => IsRowText t
  | placeable t p row => IsRowText t ∧ (p.Legible ∧ p.WellFormed ∧ ∀ k ∈ p.depths 0, k ≤ limit) ∧ row.Fits limit

end Row

/-- A further line of a value: the blank lines in front of it, its indentation and what stands on it. -/
structure FurtherLine where
  blanks : List (List Char)
  indent : Nat
  row : Row

namespace FurtherLine

def chars (l : FurtherLine) : List Char := gap l.blanks l.indent ++ l.row.chars

/-- What is left of the indentation. -/
def spaces (common : Nat) (l : FurtherLine) : List Char := List.replicate (l.indent - common) ' '

/-- The line feeds between this line and the one with content before it, and what is left of the indentation. -/
def lead (common : Nat) (l : FurtherLine) : List Char :=
  List.replicate (l.blanks.length + 1) '\n' ++ l.spaces common

/-- A line of a value behind its first one, with the blank lines in front of it: it goes on with the value, since it is
indented and begins with no sign that ends one. -/
structure Fits (limit : Nat) (l : FurtherLine) : Prop where
  blanks : AllBlank l.blanks
  row : l.row.Fits limit
  continues : Line.Continues l.indent l.row.chars

end FurtherLine

/-- A value on several lines: spaces and a line behind the equals sign, unless the value begins below, and the further
lines. -/
structure SpreadValue where
  inline : Option (Nat × Row)
  lines : List FurtherLine

/-- Elements without the white space at the end of their last text. -/
def trimLast (es : List PatternElement) : List PatternElement :=
  match es.getLast? with
  | some (.text chunk) => es.dropLast ++ textElements (chunk.value.toList.rdropWhile Line.isBlankChar)
  | _ => es

namespace SpreadValue

def chars (v : SpreadValue) : List Char :=
  (match v.inline with
    | some (spaces, row) => List.replicate spaces ' ' ++ row.chars
    | none => []) ++ v.lines.flatMap FurtherLine.chars

/-- The least indentation of a further line. -/
def common (v : SpreadValue) : Nat := ((v.lines.map (·.indent)).min?).getD 0

/-- **What the lines of a value stand for.** A value that begins below has no line feed in front. -/
def elements (v : SpreadValue) : List PatternElement :=
  trimLast <|
    match v.inline, v.lines with
    | some (_, row), lines => row.elements [] ++ lines.flatMap fun l => l.row.elements (l.lead v.common)
    | none, line :: lines =>
      line.row.elements (line.spaces v.common) ++ lines.flatMap fun l => l.row.elements (l.lead v.common)
    | none, [] => []

/-- A value on several lines that a source can hold. What stands behind the sign, if anything does, is not blank and
begins with no space, and there is at least one line below. -/
structure Fits (limit : Nat) (v : SpreadValue) : Prop where
  inline : ∀ spaces row, v.inline = some (spaces, row) →
    row.Fits limit ∧ row.chars.head? ≠ some ' ' ∧ Line.isBlank row.chars = false
  lines : ∀ l ∈ v.lines, l.Fits limit
  nonempty : v.lines ≠ []

end SpreadValue

/-! ## The last text -/

theorem rdropWhile_append {lead text : List Char} (h : ∃ x ∈ text, Line.isBlankChar x = false) :
    (lead ++ text).rdropWhile Line.isBlankChar = lead ++ text.rdropWhile Line.isBlankChar := by
  obtain ⟨x, hx, hcontent⟩ := h
  rw [List.rdropWhile, List.rdropWhile, List.reverse_append, List.dropWhile_append, if_neg, List.reverse_append,
    List.reverse_reverse]
  simp only [List.isEmpty_iff, List.dropWhile_eq_nil_iff, List.mem_reverse]
  intro hall
  rw [hall x hx] at hcontent
  cases hcontent

theorem trimLast_append (es : List PatternElement) {es' : List PatternElement} (h : es' ≠ []) :
    trimLast (es ++ es') = es ++ trimLast es' := by
  unfold trimLast
  rw [List.getLast?_append_of_ne_nil _ h, List.dropLast_append_of_ne_nil h]
  cases es'.getLast? with
  | none => rfl
  | some e =>
    cases e with
    | text chunk => exact List.append_assoc ..
    | placeable p => rfl

/-- A placeable in front is never trimmed. -/
theorem trimLast_placeable (es : List PatternElement) (p : Placeable) (es' : List PatternElement) :
    trimLast (es ++ .placeable p :: es') = es ++ .placeable p :: trimLast es' := by
  by_cases h : es' = []
  · subst h
    simp [trimLast]
  · rw [List.append_cons, trimLast_append _ h, List.append_assoc, List.singleton_append]

namespace Row

/-- A line with content. -/
def Solid : Row → Prop
  | text t => ∃ x ∈ t, Line.isBlankChar x = false
  | placeable .. => True

theorem solid_of_content {row : Row} (h : Line.isBlank row.chars = false) : row.Solid := by
  cases row with
  | placeable => trivial
  | text t =>
    by_contra hnone
    have hall : ∀ x ∈ Line.head t, Line.isBlankChar x = true := fun x hx => by
      by_contra hx'
      exact hnone ⟨x, (List.takeWhile_prefix _).mem hx, by simpa using hx'⟩
    rw [show Line.isBlank (Row.text t).chars = true from Line.isBlank_iff.2 hall] at h
    cases h

theorem elements_ne_nil {row : Row} (h : row.Solid) (lead : List Char) : row.elements lead ≠ [] := by
  cases row with
  | text t =>
    obtain ⟨x, hx, -⟩ := h
    have hne : lead ++ t ≠ [] := List.append_ne_nil_of_right_ne_nil _ (List.ne_nil_of_mem hx)
    rw [elements, textElements, if_neg hne]
    exact List.cons_ne_nil _ _
  | placeable t p row =>
    rw [elements]
    exact List.append_ne_nil_of_right_ne_nil _ (List.cons_ne_nil _ _)

/-- Content outlasts trimming. -/
theorem Solid.trim {row : Row} (h : row.Solid) : (row.withLast (row.last.rdropWhile Line.isBlankChar)).Solid := by
  cases row with
  | placeable => trivial
  | text t =>
    obtain ⟨x, hx, hcontent⟩ := h
    refine ⟨x, ?_, hcontent⟩
    rw [← List.rdropWhile_append_rtakeWhile (p := Line.isBlankChar) (l := t)] at hx
    refine (List.mem_append.1 hx).resolve_right fun hblank => ?_
    rw [List.mem_rtakeWhile_imp hblank] at hcontent
    cases hcontent

theorem trimLast_textElements (t : List Char) :
    trimLast (textElements t) = textElements (t.rdropWhile Line.isBlankChar) := by
  unfold trimLast
  by_cases h : t = []
  · subst h
    rfl
  · rw [textElements, if_neg h]
    simp

/-- **Only the text behind the last placeable is trimmed**, and nothing in front of a text with content. -/
theorem trimLast_elements {row : Row} {lead : List Char} (h : lead = [] ∨ row.Solid) :
    trimLast (row.elements lead) = (row.withLast (row.last.rdropWhile Line.isBlankChar)).elements lead := by
  induction row generalizing lead with
  | text t =>
    rw [elements, trimLast_textElements]
    rcases h with rfl | hsolid
    · rfl
    · rw [rdropWhile_append hsolid]
      rfl
  | placeable t p row ih => rw [elements, trimLast_placeable, ih (.inl rfl), withLast, elements, last]

end Row

/-- The elements of some lines, with the last text trimmed. -/
def linesElements (common : Nat) (lead : List Char) (row : Row) : List FurtherLine → List PatternElement
  | [] => (row.withLast (row.last.rdropWhile Line.isBlankChar)).elements lead
  | l :: ls => row.elements lead ++ linesElements common (l.lead common) l.row ls

theorem trimLast_lines (common : Nat) (lead : List Char) {row : Row} {ls : List FurtherLine} (hrow : row.Solid)
    (hls : ∀ l ∈ ls, l.row.Solid) :
    trimLast (row.elements lead ++ ls.flatMap fun l => l.row.elements (l.lead common)) =
      linesElements common lead row ls := by
  induction ls generalizing lead row with
  | nil => rw [List.flatMap_nil, List.append_nil, Row.trimLast_elements (.inr hrow), linesElements]
  | cons l ls ih =>
    obtain ⟨hl, hrest⟩ := List.forall_mem_cons.1 hls
    have hne : l.row.elements (l.lead common) ++ ls.flatMap (fun l => l.row.elements (l.lead common)) ≠ [] :=
      List.append_ne_nil_of_left_ne_nil (Row.elements_ne_nil hl _) _
    rw [List.flatMap_cons, trimLast_append _ hne, ih _ hl hrest, linesElements]

/-! ## Items of a pattern -/

/-- What the items of a pattern become, the earliest first. -/
def settled (common : Nat) (items : List PatternItem) : List Lexeme :=
  (items.filterMap (PatternItem.settle? common)).reverse

theorem settled_append (common : Nat) (items items' : List PatternItem) :
    settled common (items ++ items') = settled common items' ++ settled common items := by
  simp [settled]

theorem settled_lexemes (common : Nat) (ls : List Lexeme) :
    settled common (ls.map PatternItem.lexeme).reverse = ls := by
  have hsettle : PatternItem.settle? common ∘ PatternItem.lexeme = some := rfl
  rw [settled, List.filterMap_reverse, List.reverse_reverse, List.filterMap_map, hsettle, List.filterMap_some]

/-- What a pattern becomes where it ends is its items in order, settled with the least of the indentations that were
noted. -/
theorem reverse_dedent (items : List PatternItem) :
    (dedent items).reverse = settled (commonIndent (items.filterMap PatternItem.indent?)) items := rfl

/-- Tokens spell some elements, whatever is spelled behind them. So the spellings of the lines of a value can be put
together in a row. -/
def SpellsElements (es : List PatternElement) (ls : List Lexeme) : Prop :=
  ∀ (es' : List PatternElement) (ls' : List Lexeme), Spells (.elements es') ls' →
    Spells (.elements (es ++ es')) (ls ++ ls')

/-- Spellings of elements are put together in order, which is what their definition is made for. -/
theorem SpellsElements.append {es es' : List PatternElement} {ls ls' : List Lexeme} (h : SpellsElements es ls)
    (h' : SpellsElements es' ls') : SpellsElements (es ++ es') (ls ++ ls') := by
  intro es'' ls'' hspells
  rw [List.append_assoc, List.append_assoc]
  exact h _ _ (h' _ _ hspells)

/-- The tokens of a placeable spell it as an element of its own. -/
theorem spellsElements_placeable {p : Placeable} {ls : List Lexeme} (h : Spells (.placeable p) ls) :
    SpellsElements [.placeable p] ls := fun _ _ hspells => .elementsPlaceable h hspells

/-- What stands in front of the text of a run. -/
def leadOf (common breaks : Nat) (indent : Option Nat) : List Char :=
  List.replicate breaks '\n' ++ List.replicate (indent.getD common - common) ' '

theorem leadOf_none (common : Nat) : leadOf common 0 none = [] := by simp [leadOf]

/-- **A run of text** is spelled by what it becomes: its line feeds, what the common indentation leaves of its own, and
its text, in one token if there is any of these. -/
theorem spellsElements_run (common : Nat) (r : TextRun) :
    SpellsElements (textElements (leadOf common r.breaks r.indent ++ r.text)) (settled common [.run r]) := by
  have hvalue : r.value common = leadOf common r.breaks r.indent ++ r.text := rfl
  intro es ls h
  rw [← hvalue]
  cases hr : r.value common with
  | nil => simpa [textElements, settled, PatternItem.settle?, hr] using h
  | cons x xs =>
    simp only [textElements, settled, PatternItem.settle?, hr, List.filterMap_cons, List.filterMap_nil,
      List.reverse_singleton, List.cons_append, List.nil_append, reduceCtorEq, if_false]
    exact .elementsText h

/-! ## Reading a line -/

section

variable (limit : Nat) {c d : Cursor} (items outer : List PatternItem) (breaks : Nat) (indent : Option Nat)

theorem IsRowText.isLineText {text : List Char} (h : IsRowText text) : IsLineText text := by
  refine ⟨fun x hx => ?_, fun hbreak => h _ hbreak (by simp)⟩
  have := h x hx
  simp only [List.mem_cons, List.not_mem_nil, or_false, not_or] at this
  exact ⟨this.1, this.2.1⟩

/-- What was read of a line up to its last text: the items, the earliest last, and what stands in front of that text. -/
structure ReadsRow (row : Row) (breaks : Nat) (indent : Option Nat) (new : List PatternItem) (breaks' : Nat)
    (indent' : Option Nat) : Prop where
  indents : ∀ start text,
    (PatternItem.run ⟨breaks', indent', start, text⟩ :: new).filterMap PatternItem.indent? = indent.toList
  spells : ∀ common start text,
    SpellsElements ((row.withLast text).elements (leadOf common breaks indent))
      (settled common (.run ⟨breaks', indent', start, text⟩ :: new))

theorem readsRow_text (text : List Char) (breaks : Nat) (indent : Option Nat) :
    ReadsRow (.text text) breaks indent [] breaks indent := by
  refine ⟨fun start text => ?_, fun common start text => spellsElements_run common ⟨breaks, indent, start, text⟩⟩
  cases indent <;> rfl

/-- In front of it a text and a placeable are read. -/
theorem ReadsRow.placeable {row : Row} {new : List PatternItem} {breaks' : Nat} {indent' : Option Nat} {p : Placeable}
    {ls : List Lexeme} (h : ReadsRow row 0 none new breaks' indent') (hp : Spells (.placeable p) ls) (r : TextRun) :
    ReadsRow (.placeable r.text p row) r.breaks r.indent (new ++ ((ls.map .lexeme).reverse ++ [.run r])) breaks'
      indent' := by
  refine ⟨fun start text => ?_, fun common start text => ?_⟩
  · have hlexemes : (ls.map PatternItem.lexeme).reverse.filterMap PatternItem.indent? = [] := by
      simp [List.filterMap_eq_nil_iff, PatternItem.indent?]
    rw [← List.cons_append, List.filterMap_append, h.indents, List.filterMap_append, hlexemes]
    cases hindent : r.indent <;> simp [PatternItem.indent?, hindent]
  · rw [← List.cons_append, settled_append, settled_append, settled_lexemes, Row.withLast, Row.elements,
      List.append_cons, List.append_assoc, List.append_assoc]
    have hrest := h.spells common start text
    rw [leadOf_none] at hrest
    exact (spellsElements_run common r).append ((spellsElements_placeable hp).append hrest)

/-- **A line is read** up to the text behind its last placeable. -/
theorem reaches_row {row : Row} (hrow : row.Fits limit) (hover : c.Over row.chars d) :
    ∃ e new breaks' indent', e.Over row.last d ∧ IsRowText row.last ∧
      State.Reaches limit ⟨c, items, [.pattern outer breaks indent]⟩
        ⟨e, new ++ items, [.pattern outer breaks' indent']⟩ ∧
      ReadsRow row breaks indent new breaks' indent' := by
  -- the line feeds and the indentation in front belong to the first text alone; behind a placeable there are none
  induction row generalizing c items breaks indent with
  | text t => exact ⟨c, [], breaks, indent, hover, hrow, .refl _, readsRow_text t breaks indent⟩
  | placeable t p row ih =>
    obtain ⟨ht, ⟨hlegible, -, hdepths⟩, hrest⟩ := hrow
    obtain ⟨c₁, htext, hover⟩ := hover.split
    obtain ⟨c₂, hplaceable, hover⟩ := hover.split
    obtain ⟨rest, hrest'⟩ := p.exists_brace
    have hbrace : c₁.rest = '{' :: (rest ++ c₂.rest) := by rw [hplaceable.rest, hrest', List.cons_append]
    obtain ⟨ls, s, hspells, hopen, hreaches⟩ := Placeable.readable hlegible [.pattern outer 0 none]
      (.run ⟨breaks, indent, c.offset, t⟩ :: items) hplaceable hdepths
    obtain ⟨e, new, breaks', indent', hlast, htext', hreaches', hreads⟩ := ih
      (written (.run ⟨breaks, indent, c.offset, t⟩ :: items) ls) 0 none hrest hover
    have hstep := (step_text limit items htext ht.isLineText hbrace).trans hopen
    refine ⟨e, _, breaks', indent', hlast, htext', ?_, hreads.placeable hspells ⟨breaks, indent, c.offset, t⟩⟩
    rw [written_eq] at hreaches hreaches'
    rw [List.append_assoc, List.append_assoc, List.singleton_append]
    exact .head hstep (hreaches.trans hreaches')

/-- Behind its last text a line is followed by another one. -/
theorem step_nextLine {blanks : List (List Char)} {text : List Char} {n : Nat} {e : Cursor} (htext : c.Over text d)
    (hplain : IsRowText text) (hgap : d.Over (gap blanks n) e) (hblanks : AllBlank blanks)
    (hnext : Line.Continues n e.rest) :
    State.step limit ⟨c, items, [.pattern outer breaks indent]⟩ =
      .next ⟨e, .run ⟨breaks, indent, c.offset, text⟩ :: items, [.pattern outer (blanks.length + 1) (some n)]⟩ := by
  obtain ⟨l, hl, hcontinues, hbreaks, hindent, hcontent⟩ := hgap.continues hblanks hnext
  obtain ⟨ys, hys⟩ := exists_gap blanks n
  have hrest : d.rest = '\n' :: (ys ++ e.rest) := by rw [hgap.rest, hys, List.cons_append]
  obtain ⟨hskip, htake⟩ := htext.skipWhile hplain.isLineText.inRun (by simp [hrest, State.inRun])
  have hreturn : '\r' ∉ text := fun hmem => hplain _ hmem (by simp)
  simp only [State.step]
  rw [State.readText_newline (by rw [hskip, hrest]), hskip, htake, hl, Option.filter_some, if_pos hcontinues,
    LineStyle.dropReturn_of_notMem hreturn]
  simp only [hcontent, hbreaks, hindent]

theorem Line.Continues.append {n : Nat} {cs : List Char} (h : Line.Continues n cs) (rest : List Char) :
    Line.Continues n (cs ++ rest) := by
  refine ⟨h.indented, Line.isBlank_append_of_content h.content rest, ?_⟩
  cases cs with
  | nil => exact absurd h.content (by decide)
  | cons x xs => exact h.first

/-- **The lines of a value are read** up to its end. They leave behind their indentations, and items that spell the
elements of the lines once the common indentation is known. -/
theorem reaches_lines {row : Row} {ls : List FurtherLine} (hrow : row.Fits limit) (hls : ∀ l ∈ ls, l.Fits limit)
    (hover : c.Over (row.chars ++ ls.flatMap FurtherLine.chars) d) (hend : Line.EndsValue d.rest) :
    ∃ new, State.Reaches limit ⟨c, items, [.pattern outer breaks indent]⟩
        ⟨d, written outer ((dedent (new ++ items)).reverse ++ [⟨.patternEnd, .at d.offset⟩]), []⟩ ∧
      new.filterMap PatternItem.indent? = (ls.map (·.indent)).reverse ++ indent.toList ∧
      ∀ common, SpellsElements (linesElements common (leadOf common breaks indent) row ls) (settled common new) := by
  -- the common indentation is known at the end only, so the spelling is carried along for any
  induction ls generalizing row c items breaks indent with
  | nil =>
    rw [List.flatMap_nil, List.append_nil] at hover
    obtain ⟨e, new, breaks', indent', hlast, htext, hreaches, hreads⟩ := reaches_row limit items outer breaks indent
      hrow hover
    refine ⟨.run (TextRun.mk breaks' indent' e.offset row.last).trimEnd :: new, ?_, hreads.indents _ _, ?_⟩
    · exact hreaches.trans (.single (step_close limit (new ++ items) hlast htext.isLineText hend))
    · exact fun common => hreads.spells common _ _
  | cons l ls ih =>
    obtain ⟨hl, hrest⟩ := List.forall_mem_cons.1 hls
    rw [List.flatMap_cons, FurtherLine.chars, List.append_assoc] at hover
    obtain ⟨c₁, hchars, hover⟩ := hover.split
    obtain ⟨c₂, hgap, hover⟩ := hover.split
    obtain ⟨e, new, breaks', indent', hlast, htext, hreaches, hreads⟩ := reaches_row limit items outer breaks indent
      hrow hchars
    have hnext : Line.Continues l.indent c₂.rest := by
      rw [hover.rest, List.append_assoc]
      exact hl.continues.append _
    -- the text behind the last placeable is kept whole: only the value's own end is trimmed
    have hstep := step_nextLine limit (new ++ items) outer breaks' indent' hlast htext hgap hl.blanks hnext
    obtain ⟨more, hreaches', hindents, hspells⟩ := ih (.run ⟨breaks', indent', e.offset, row.last⟩ :: (new ++ items))
      (l.blanks.length + 1) (some l.indent) hl.row hrest hover
    refine ⟨more ++ .run ⟨breaks', indent', e.offset, row.last⟩ :: new, ?_, ?_, fun common => ?_⟩
    · rw [List.append_assoc]
      exact hreaches.trans (.head hstep hreaches')
    · rw [List.filterMap_append, hindents, hreads.indents]
      simp
    · have hfirst := hreads.spells common e.offset row.last
      rw [Row.withLast_last] at hfirst
      rw [settled_append, linesElements]
      exact hfirst.append (hspells common)

end

/-! ## What the lines stand for -/

theorem commonIndent_reverse (ns : List Nat) : commonIndent ns.reverse = ns.min?.getD 0 := by
  have hcommon : ∀ ms : List Nat, commonIndent ms = ms.min?.getD 0 := by rintro (_ | _) <;> rfl
  rw [hcommon]
  cases h : ns.min? with
  | none =>
    rw [List.min?_eq_none_iff] at h
    rw [h]
    rfl
  | some n =>
    obtain ⟨hmem, hle⟩ := List.min?_eq_some_iff.1 h
    rw [List.min?_eq_some_iff.2 ⟨List.mem_reverse.2 hmem, fun m hm => hle m (List.mem_reverse.1 hm)⟩]

theorem elementsWellFormed_append {es es' : List PatternElement} (h : ElementsWellFormed es)
    (h' : ElementsWellFormed es') : ElementsWellFormed (es ++ es') := by
  induction es with
  | nil => exact h'
  | cons e es ih => exact ⟨h.1, ih h.2⟩

theorem elementsWellFormed_text (text : List Char) : ElementsWellFormed (textElements text) := by
  unfold textElements
  split
  · trivial
  · exact ⟨trivial, trivial⟩

theorem Row.Fits.elementsWellFormed {limit : Nat} {row : Row} (h : row.Fits limit) (lead other : List Char) :
    ElementsWellFormed ((row.withLast other).elements lead) := by
  induction row generalizing lead with
  | text t => exact elementsWellFormed_text _
  | placeable t p row ih => exact elementsWellFormed_append (elementsWellFormed_text _) ⟨h.2.1.2.1, ih h.2.2 []⟩

/-- The elements of lines with content make a pattern: there is at least one of them, and the placeables among them are
well-formed. -/
theorem wellFormed_lines {limit : Nat} (common : Nat) {lead : List Char} {row : Row} {ls : List FurtherLine}
    (hrow : row.Fits limit) (hsolid : row.Solid) (hls : ∀ l ∈ ls, l.Fits limit) (location : Location) :
    Pattern.WellFormed ⟨linesElements common lead row ls, location⟩ := by
  induction ls generalizing lead row with
  | nil => exact ⟨Row.elements_ne_nil hsolid.trim lead, hrow.elementsWellFormed lead _⟩
  | cons l ls ih =>
    obtain ⟨hl, hrest⟩ := List.forall_mem_cons.1 hls
    have hfirst := hrow.elementsWellFormed lead row.last
    rw [Row.withLast_last] at hfirst
    exact ⟨List.append_ne_nil_of_left_ne_nil (Row.elements_ne_nil hsolid lead) _,
      elementsWellFormed_append hfirst (ih hl.row (Row.solid_of_content hl.continues.content) hrest).2⟩

/-- A message is parsed as the elements of the lines of its value, wherever the value begins: behind the sign, or on a
line below it. -/
theorem parse_lines {limit : Nat} {value ending : List Char} {row : Row} {ls : List FurtherLine} {indent : Option Nat}
    {c : Cursor} (hrow : row.Fits limit) (hsolid : row.Solid) (hls : ∀ l ∈ ls, l.Fits limit)
    (hbegin : State.beginValue ⟨⟨3, value⟩, written [] shortTokens, []⟩ =
      ⟨c, [], [.pattern (.lexeme ⟨.patternStart, .at c.offset⟩ :: written [] shortTokens) 0 indent]⟩)
    (hchars : c.rest = row.chars ++ ls.flatMap FurtherLine.chars ++ ending) (hending : IsEnding ending) {common : Nat}
    (hcommon : common = (indent.toList ++ ls.map (·.indent)).min?.getD 0) (policy : DuplicatePolicy) :
    ∃ m, (parse ⟨policy, limit⟩ (String.ofList (messageText value))).body = [.message m] ∧
      m.unlocated = ⟨⟨"m", default⟩, some (Pattern.unlocated ⟨linesElements common (leadOf common 0 indent) row ls,
        default⟩), [], none, default⟩ := by
  obtain ⟨d, hover, hrest⟩ : ∃ d, c.Over (row.chars ++ ls.flatMap FurtherLine.chars) d ∧ d.rest = ending :=
    ⟨⟨_, ending⟩, ⟨hchars, rfl⟩, rfl⟩
  have hd : IsEnding d.rest := hrest ▸ hending
  obtain ⟨new, hreaches, hindents, hspells⟩ := reaches_lines limit []
    (.lexeme ⟨.patternStart, .at c.offset⟩ :: written [] shortTokens) 0 indent hrow hls hover hd.endsValue
  have hcommon' : commonIndent (new.filterMap PatternItem.indent?) = common := by
    have hreverse : indent.toList.reverse = indent.toList := by cases indent <;> rfl
    rw [hindents, hcommon, ← commonIndent_reverse, List.reverse_append, hreverse]
  rw [List.append_nil, reverse_dedent, hcommon'] at hreaches
  have helements : Spells (.elements (linesElements common (leadOf common 0 indent) row ls))
      (settled common new ++ [⟨.patternEnd, .at d.offset⟩]) := by
    have h := hspells common [] [⟨.patternEnd, .at d.offset⟩] .elementsEnd
    rwa [List.append_nil] at h
  have hpattern : Spells (.pattern (some ⟨linesElements common (leadOf common 0 indent) row ls, default⟩))
      (⟨.patternStart, .at c.offset⟩ :: (settled common new ++ [⟨.patternEnd, .at d.offset⟩])) := .pattern helements
  refine parse_message limit (wellFormed_lines common hrow hsolid hls default) hpattern ?_ hd.nextLine policy
    String.toList_ofList
  rw [ofHeader_message, hbegin]
  exact hreaches.run_eq.trans (run_at_end limit _ hd)

/-- A value that begins beside the equals sign. -/
theorem parse_beside {limit : Nat} {row : Row} {ls : List FurtherLine} {ending : List Char} (spaces : Nat)
    (hrow : row.Fits limit) (hstart : row.chars.head? ≠ some ' ') (hcontent : Line.isBlank row.chars = false)
    (hls : ∀ l ∈ ls, l.Fits limit) (hending : IsEnding ending) (policy : DuplicatePolicy) :
    ∃ m, (parse ⟨policy, limit⟩ (String.ofList (messageText (List.replicate spaces ' ' ++
        (row.chars ++ ls.flatMap FurtherLine.chars ++ ending))))).body = [.message m] ∧
      m.unlocated = ⟨⟨"m", default⟩, some (Pattern.unlocated ⟨linesElements ((ls.map (·.indent)).min?.getD 0) [] row ls,
        default⟩), [], none, default⟩ := by
  generalize hrest : row.chars ++ ls.flatMap FurtherLine.chars ++ ending = rest
  have hover : Cursor.Over ⟨3, List.replicate spaces ' ' ++ rest⟩ (List.replicate spaces ' ')
      ⟨3 + byteCount (List.replicate spaces ' '), rest⟩ := ⟨rfl, rfl⟩
  have hnonblank : Line.isBlank rest = false := by
    rw [← hrest, List.append_assoc]
    exact Line.isBlank_append_of_content hcontent _
  have hfirst : rest.head? ≠ some ' ' := by
    have hchars : row.chars ≠ [] := fun hnil => by
      rw [hnil] at hcontent
      cases hcontent
    rwa [← hrest, List.append_assoc, List.head?_append_of_ne_nil _ hchars]
  have hbegin := beginValue_inline (written [] shortTokens) [] hover (by simp) hfirst hnonblank
  rw [← leadOf_none]
  exact parse_lines hrow (Row.solid_of_content hcontent) hls hbegin hrest.symm hending rfl policy

/-- A value that begins below the equals sign. -/
theorem parse_below {limit : Nat} {l : FurtherLine} {ls : List FurtherLine} {ending : List Char} (hl : l.Fits limit)
    (hls : ∀ l ∈ ls, l.Fits limit) (hending : IsEnding ending) {common : Nat}
    (hcommon : common = ((l :: ls).map (·.indent)).min?.getD 0) (policy : DuplicatePolicy) :
    ∃ m, (parse ⟨policy, limit⟩ (String.ofList (messageText (gap l.blanks l.indent ++
        (l.row.chars ++ ls.flatMap FurtherLine.chars ++ ending))))).body = [.message m] ∧
      m.unlocated = ⟨⟨"m", default⟩, some (Pattern.unlocated ⟨linesElements common (l.spaces common) l.row ls, default⟩),
        [], none, default⟩ := by
  generalize hrest : l.row.chars ++ ls.flatMap FurtherLine.chars ++ ending = rest
  have hover : Cursor.Over ⟨3, gap l.blanks l.indent ++ rest⟩ (gap l.blanks l.indent)
      ⟨3 + byteCount (gap l.blanks l.indent), rest⟩ := ⟨rfl, rfl⟩
  have hnext : Line.Continues l.indent rest := by
    rw [← hrest, List.append_assoc]
    exact hl.continues.append _
  have hbegin := hover.beginValue_gap (written [] shortTokens) [] hl.blanks hnext
  have hlead : leadOf common 0 (some l.indent) = l.spaces common := rfl
  rw [← hlead]
  exact parse_lines hl.row (Row.solid_of_content hl.continues.content) hls hbegin hrest.symm hending hcommon policy

/-- **Values on several lines are dedented.** The lines of a value are parsed as one message, and its elements are what
the lines stand for: texts and placeables in their order, in front of each line the line feeds crossed and what the least
indentation leaves of its own, and no white space at the end of the last text. -/
theorem parse_dedented (o : ParseOptions) (v : SpreadValue) (hv : v.Fits o.maxNesting) {ending : List Char}
    (hending : IsEnding ending) :
    ∃ m, (parse o (String.ofList (messageText (v.chars ++ ending)))).body = [.message m] ∧
      m.unlocated = ⟨⟨"m", default⟩, some (Pattern.unlocated ⟨v.elements, default⟩), [], none, default⟩ := by
  obtain ⟨inline, lines⟩ := v
  obtain ⟨hinline, hlines, hne⟩ := hv
  have hsolids : ∀ l ∈ lines, l.row.Solid := fun l hl => Row.solid_of_content (hlines l hl).continues.content
  cases inline with
  | some first =>
    obtain ⟨spaces, row⟩ := first
    obtain ⟨hrow, hstart, hcontent⟩ := hinline spaces row rfl
    rw [SpreadValue.elements, trimLast_lines _ [] (Row.solid_of_content hcontent) hsolids, SpreadValue.chars,
      List.append_assoc, List.append_assoc, ← List.append_assoc row.chars]
    exact parse_beside spaces hrow hstart hcontent hlines hending o.duplicates
  | none =>
    obtain ⟨l, lines, rfl⟩ := List.exists_cons_of_ne_nil hne
    obtain ⟨hl, hlines⟩ := List.forall_mem_cons.1 hlines
    obtain ⟨hsolid, hsolids⟩ := List.forall_mem_cons.1 hsolids
    rw [SpreadValue.elements, trimLast_lines _ (l.spaces _) hsolid hsolids, SpreadValue.chars, List.nil_append,
      List.flatMap_cons, FurtherLine.chars, List.append_assoc, List.append_assoc, ← List.append_assoc l.row.chars]
    exact parse_below hl hlines hending rfl o.duplicates

/-- A line with a blank one below, a placeable, and a line that is indented further. -/
def stairs : SpreadValue where
  inline := some (1, .text ['a'])
  lines := [⟨[[' ']], 2, .placeable [] ⟨.variableRef ⟨"x", default⟩ default, default⟩ (.text [',', ' '])⟩,
    ⟨[], 4, .text ['b', '\t']⟩]

theorem parse_dedented_stairs :
    stairs.Fits 1 ∧ IsEnding ['\n'] ∧ String.ofList (messageText (stairs.chars ++ ['\n'])) =
        "m = a\n \n  { $x }, \n    b\t\n" ∧
      stairs.elements = [.text ⟨"a", default⟩, .text ⟨"\n\n", default⟩,
        .placeable ⟨.variableRef ⟨"x", default⟩ default, default⟩, .text ⟨", ", default⟩, .text ⟨"\n  b", default⟩] ∧
      ∃ m, (parse ⟨.reject, 1⟩ (String.ofList (messageText (stairs.chars ++ ['\n'])))).body = [.message m] ∧
        m.unlocated = ⟨⟨"m", default⟩, some (Pattern.unlocated ⟨stairs.elements, default⟩), [], none, default⟩ := by
  have hplaceable : Row.Fits 1 (.placeable [] ⟨.variableRef ⟨"x", default⟩ default, default⟩ (.text [',', ' '])) := by
    have hname : IsName ['x'] := ⟨'x', [], rfl, by decide, nofun⟩
    have htext : IsRowText [',', ' '] := by simp [IsRowText]
    exact ⟨nofun, ⟨hname, ⟨trivial, rfl⟩, by decide⟩, htext⟩
  have hinline : IsRowText ['a'] := by simp [IsRowText]
  have hlast : IsRowText ['b', '\t'] := by simp [IsRowText]
  have hfits : stairs.Fits 1 := by
    refine ⟨?_, List.forall_mem_cons.2 ⟨⟨?_, hplaceable, ⟨by decide, rfl, ?_⟩⟩,
      List.forall_mem_singleton.2 ⟨nofun, hlast, ⟨by decide, rfl, ?_⟩⟩⟩, List.cons_ne_nil _ _⟩
    · rintro _ _ ⟨⟩
      exact ⟨hinline, by decide, rfl⟩
    · simp [AllBlank, Line.isBlankChar]
    · rintro _ ⟨⟩
      decide
    · rintro _ ⟨⟩
      decide
  exact ⟨hfits, .inr rfl, rfl, rfl, parse_dedented ⟨.reject, 1⟩ stairs hfits (.inr rfl)⟩

end Fluent
