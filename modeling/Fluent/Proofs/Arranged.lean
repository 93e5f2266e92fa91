import Fluent.Proofs.Dedented

/-!
# Select expressions in any layout

The variants of a select expression stand on lines of their own, and so does the brace that closes it. None of these
lines need be indented, and blank lines may stand between them: at a line break the value of a variant ends, since it
cannot go on with what opens a variant or closes the placeable, and the expression goes on, since with that it can.

* `VariantLine`, `SpreadSelect`: a variant on its line, and a select expression on several lines.
* `reaches_variant`, `reaches_variants`: the machine reads a variant, and all of them up to the closing brace.
* `parse_spreadSelect`: a select expression on several lines is parsed as it is.
-/

namespace Fluent

/-! ## Variants on their lines -/

/-- The letters of a variant's key; a number has the value that it is written with. -/
def VariantKey.Legible : VariantKey → Prop
  | identifier id => IsName id.name.toList
  | number n => IsNumber n.raw.toList ∧ Binary64.read? n.raw.toList = some n.value

/-- A variant on its line: the blank lines in front of it, its indentation, its key and the text of its value. -/
structure VariantLine where
  blanks : List (List Char)
  indent : Nat
  isDefault : Bool
  key : VariantKey
  value : List Char

namespace VariantLine

/-- The bracket that opens a variant, with a star in front of the default one. -/
def bracket (isDefault : Bool) : List Char := if isDefault then ['*', '['] else ['[']

/-- A line behind its indentation. -/
def content (l : VariantLine) : List Char := bracket l.isDefault ++ (l.key.name.toList ++ (']' :: ' ' :: l.value))

def chars (l : VariantLine) : List Char := gap l.blanks l.indent ++ l.content

def variant (l : VariantLine) : Variant :=
  ⟨l.key, ⟨[.text ⟨String.ofList l.value, default⟩], default⟩, l.isDefault, default⟩

/-- A variant on a line of its own, such that it can be told apart again: the key is read as it is displayed, and the
value is text of one line that neither begins with a space nor ends with layout. -/
structure Fits (l : VariantLine) : Prop where
  blanks : AllBlank l.blanks
  key : l.key.Legible
  text : IsRowText l.value
  start : l.value.head? ≠ some ' '
  solid : Solid l.value

end VariantLine

/-- A select expression: its selector, the lines of its variants and that of the brace which closes it. -/
structure SpreadSelect where
  selector : Expression
  lines : List VariantLine
  blanks : List (List Char)
  indent : Nat

namespace SpreadSelect

def chars (e : SpreadSelect) : List Char :=
  '{' :: ' ' :: (e.selector.display.toList ++ (' ' :: '-' :: '>' ::
    (e.lines.flatMap VariantLine.chars ++ (gap e.blanks e.indent ++ ['}']))))

def placeable (e : SpreadSelect) : Placeable := ⟨.select e.selector (e.lines.map VariantLine.variant) default, default⟩

/-- A select expression over several lines that a source can hold within the nesting limit: the selector is read as it
is displayed, each line fits, and exactly one of the variants is the default. -/
structure Fits (limit : Nat) (e : SpreadSelect) : Prop where
  legible : e.selector.Legible
  wellFormed : e.selector.WellFormed
  selects : e.selector.isSelector = true
  lines : ∀ l ∈ e.lines, l.Fits
  default : OneDefault (e.lines.map VariantLine.variant)
  blanks : AllBlank e.blanks
  depths : ∀ k ∈ e.placeable.depths 0, k ≤ limit

end SpreadSelect

/-! ## Reading a variant -/

section

variable (limit : Nat) {c d e : Cursor} {x : Char} {xs : List Char} {t : Token} (items : List PatternItem)
  (fs : List Frame)

/-- A key is scanned in front of its closing bracket, and begins with a character that is neither layout nor a bracket. -/
theorem VariantKey.Legible.scanned {key : VariantKey} (h : key.Legible) :
    ∃ x xs t, key.name.toList = x :: xs ∧ isLayout x = false ∧ x ≠ ']' ∧
      (∀ rest, Token.scan x (xs ++ ']' :: rest) = (t, xs)) ∧ ∀ span, SpellsKey key [⟨t, span⟩] := by
  have hbracket : isIdentifierChar ']' = false ∧ extendsNumber ']' = false := by decide
  cases key with
  | identifier id =>
    obtain ⟨x, xs, hcons, hx, hxs⟩ := h
    have hscan : ∀ rest, Token.scan x (xs ++ ']' :: rest) = (.identifier id.name, xs) := by
      intro rest
      rw [scan_name ⟨x, xs, rfl, hx, hxs⟩ (by simp [hbracket]), ← hcons, String.ofList_toList]
    refine ⟨x, xs, _, hcons, (isPlain_of_isIdentifierStart hx).1, ?_, hscan, fun _ => .identifier⟩
    rintro rfl
    cases hx
  | number n =>
    obtain ⟨hnumber, hvalue⟩ := h
    have hnumber' := hnumber
    obtain ⟨d, ds, hd, hdigits, hcons⟩ := hnumber'
    obtain ⟨x, xs, hraw, hlayout, hx⟩ : ∃ x xs, n.raw.toList = x :: xs ∧ isLayout x = false ∧ x ≠ ']' := by
      rcases hcons with hcons | hcons
      · refine ⟨d, ds, hcons, (isPlain_of_isDigit hd).1, ?_⟩
        rintro rfl
        cases hd
      · exact ⟨'-', d :: ds, hcons, rfl, by decide⟩
    have hscan : ∀ rest, Token.scan x (xs ++ ']' :: rest) = (.number n.raw, xs) := by
      intro rest
      rw [hraw] at hnumber
      rw [scan_number hnumber (by simp [hbracket]), ← hraw, String.ofList_toList]
    exact ⟨x, xs, _, hraw, hlayout, hx, hscan, fun _ => .number hvalue⟩

/-- Where a variant begins, beyond layout that the expression goes on behind. -/
theorem reaches_bracket {isDefault : Bool} (hgap : c.skipBlank? = some d)
    (hover : d.Over (VariantLine.bracket isDefault) e) :
    ∃ ls, SpellsBracket isDefault ls ∧
      State.Reaches limit ⟨c, items, .variants :: fs⟩ ⟨e, written items ls, .key false :: .variants :: fs⟩ := by
  have hopen : ∀ {c d e : Cursor} (items : List PatternItem), c.skipBlank? = some d → d.Over ['['] e →
      State.step limit ⟨c, items, .variants :: fs⟩ =
        .next ⟨e, .lexeme ⟨.openBracket, ⟨d.offset, e.offset⟩⟩ :: items, .key false :: .variants :: fs⟩ := by
    intro c d e items hgap hover
    have hrest : d.rest = '[' :: e.rest := hover.rest
    have hskip : d.skip 1 = e := hover.skip
    simp only [State.step, State.onContent, hgap, State.readVariants, hrest, State.emit, hskip]
  cases isDefault with
  | false => exact ⟨_, .plain, .single (hopen items hgap hover)⟩
  | true =>
    have hparts : d.Over (['*'] ++ ['[']) e := hover
    obtain ⟨d', hstar, hbracket⟩ := hparts.split
    have hrest : d.rest = '*' :: d'.rest := hstar.rest
    have hscan : Token.scan '*' ([] ++ d'.rest) = (.star, []) := rfl
    have hfirst : State.step limit ⟨c, items, .variants :: fs⟩ =
        .next ⟨d', .lexeme ⟨.star, ⟨d.offset, d'.offset⟩⟩ :: items, .variants :: fs⟩ := by
      simp only [State.step, State.onContent, hgap]
      rw [State.readVariants_otherwise hrest (by decide) (by decide), emitScanned_over _ _ hstar hscan]
    have hskip := (Cursor.Over.refl d').skipBlank? (by simp) hbracket.rest rfl
    exact ⟨_, .starred, .head hfirst (.single (hopen _ hskip hbracket))⟩

/-- The key of a variant is read, and the bracket behind it. -/
theorem reaches_key {key : VariantKey} (hkey : key.Legible) (hname : c.Over key.name.toList d) (hclose : d.Over [']'] e) :
    ∃ ms closing, SpellsKey key ms ∧
      State.Reaches limit ⟨c, items, .key false :: fs⟩
        (State.beginValue ⟨e, written items (ms ++ [⟨.closeBracket, closing⟩]), fs⟩) := by
  obtain ⟨x, xs, t, hcons, hlayout, hx, hscan, hspells⟩ := hkey.scanned
  rw [hcons] at hname
  have hrest : c.rest = x :: (xs ++ d.rest) := hname.rest
  have hbracket : d.rest = ']' :: e.rest := hclose.rest
  have hread := hscan e.rest
  rw [← hbracket] at hread
  have hskip := (Cursor.Over.refl c).skipBlank? (by simp) hrest hlayout
  have hskip' := (Cursor.Over.refl d).skipBlank? (by simp) hbracket rfl
  have hend : d.skip 1 = e := hclose.skip
  have hfirst : State.step limit ⟨c, items, .key false :: fs⟩ =
      .next ⟨d, .lexeme ⟨t, ⟨c.offset, d.offset⟩⟩ :: items, .key true :: fs⟩ := by
    simp only [State.step, State.onContent, hskip]
    rw [State.readKey_otherwise hrest hx, if_neg Bool.false_ne_true, emitScanned_over _ _ hname hread]
  have hsecond : State.step limit ⟨d, .lexeme ⟨t, ⟨c.offset, d.offset⟩⟩ :: items, .key true :: fs⟩ =
      .next (State.beginValue ⟨e, .lexeme ⟨.closeBracket, ⟨d.offset, e.offset⟩⟩ ::
        .lexeme ⟨t, ⟨c.offset, d.offset⟩⟩ :: items, fs⟩) := by
    simp only [State.step, State.onContent, hskip', State.readKey, hbracket, State.emit, hend]
  exact ⟨_, ⟨d.offset, e.offset⟩, hspells _, .head hfirst (.single hsecond)⟩

/-! ## Reading variants -/

/-- The signs that open a variant or close the placeable. A line that begins with one of them goes on with no value. -/
def IsSign (x : Char) : Prop := x ∈ ['*', '[', '}']

theorem IsSign.marks (h : IsSign x) :
    isLayout x = false ∧ Line.isSpecialStart x = true ∧ Line.continuesExpression x = true := by
  simp only [IsSign, List.mem_cons, List.not_mem_nil, or_false] at h
  rcases h with rfl | rfl | rfl <;> decide

theorem IsSign.begins (h : IsSign x) (rest : List Char) : Line.Begins x (x :: rest) := by
  have hnone : '\n' ∉ ([] : List Char) := List.not_mem_nil
  refine ⟨rfl, ?_, isBlank_of_content hnone h.marks.1⟩
  rintro rfl
  exact absurd h (by simp [IsSign])

/-- At a sign a value ends, whatever the indentation. -/
theorem IsSign.endsValue (h : IsSign x) {blanks : List (List Char)} (hblanks : AllBlank blanks) (indent : Nat)
    (rest : List Char) : Line.EndsValue (gap blanks indent ++ x :: rest) :=
  Line.endsValue_gap hblanks (h.begins rest) (.inr h.marks.2.1)

/-- At a sign an expression goes on, whatever the indentation. -/
theorem IsSign.skipBlank? (h : IsSign x) {blanks : List (List Char)} (hblanks : AllBlank blanks) {indent : Nat}
    {rest : List Char} (hgap : c.Over (gap blanks indent) d) (hrest : d.rest = x :: rest) : c.skipBlank? = some d :=
  hgap.skipBlank?_gap hblanks (hrest ▸ h.begins rest) h.marks.1 (.inr h.marks.2.2)

theorem VariantLine.exists_sign (l : VariantLine) : ∃ x rest, l.content = x :: rest ∧ IsSign x := by
  unfold content bracket
  cases l.isDefault with
  | false => exact ⟨'[', _, rfl, by simp [IsSign]⟩
  | true => exact ⟨'*', _, rfl, by simp [IsSign]⟩

/-- **A variant is read** up to the end of its line. -/
theorem reaches_variant {l : VariantLine} (hl : l.Fits) (hgap : c.skipBlank? = some d) (hover : d.Over l.content e)
    (hend : Line.EndsValue e.rest) :
    ∃ ls, Spells (.variant l.variant) ls ∧
      State.Reaches limit ⟨c, items, .variants :: fs⟩ ⟨e, written items ls, .variants :: fs⟩ := by
  have htext : l.content = VariantLine.bracket l.isDefault ++ (l.key.name.toList ++ ([']'] ++ ([' '] ++ l.value))) := rfl
  rw [htext] at hover
  obtain ⟨c₁, hbracket, hover⟩ := hover.split
  obtain ⟨c₂, hname, hover⟩ := hover.split
  obtain ⟨c₃, hclose, hover⟩ := hover.split
  obtain ⟨c₄, hspace, hvalue⟩ := hover.split
  obtain ⟨ls, hspells, hreaches⟩ := reaches_bracket limit items fs hgap hbracket
  obtain ⟨ms, closing, hspells', hreaches'⟩ := reaches_key limit (written items ls) (.variants :: fs) hl.key hname hclose
  -- the value begins behind the space, and ends with its line
  have hne : l.value ≠ [] := hl.solid.ne_nil
  have hstart : c₄.rest.head? ≠ some ' ' := by
    rw [hvalue.rest, List.head?_append_of_ne_nil _ hne]
    exact hl.start
  have hcontent : Line.isBlank c₄.rest = false := by
    rw [hvalue.rest]
    exact Line.isBlank_append_of_content (hl.solid.isBlank_of_notMem hl.text.isLineText.2) e.rest
  have hbegin := beginValue_inline (written (written items ls) (ms ++ [⟨.closeBracket, closing⟩])) (.variants :: fs)
    hspace (by simp) hstart hcontent
  have hlexemes : textLexemes c₄.offset l.value =
      [⟨.pureText (String.ofList l.value), ⟨c₄.offset, c₄.offset + byteCount l.value⟩⟩] := if_neg hne
  have hpattern : Spells (.pattern (some ⟨[.text ⟨String.ofList l.value, default⟩], default⟩))
      (⟨.patternStart, .at c₄.offset⟩ :: (textLexemes c₄.offset l.value ++ [⟨.patternEnd, .at e.offset⟩])) := by
    rw [hlexemes]
    exact .pattern (.elementsText .elementsEnd)
  have hvariant : Spells (.variant l.variant) (ls ++ (ms ++ ⟨.closeBracket, closing⟩ :: _)) :=
    .variant hspells hspells' hpattern
  refine ⟨_, hvariant, ?_⟩
  rw [hbegin] at hreaches'
  rw [written_append, List.append_cons, written_append]
  exact hreaches.trans (hreaches'.trans (.single (step_lastText limit [] hvalue hl.text.isLineText hend (.inr hl.solid))))

/-- **The variants of a select expression are read**, the closing brace included. -/
theorem reaches_variants {ls : List VariantLine} (hls : ∀ l ∈ ls, l.Fits) {blanks : List (List Char)}
    (hblanks : AllBlank blanks) {indent : Nat}
    (hover : c.Over (ls.flatMap VariantLine.chars ++ (gap blanks indent ++ ['}'])) e) :
    ∃ ms closing, Spells (.variants (ls.map VariantLine.variant)) ms ∧
      State.Reaches limit ⟨c, items, .variants :: fs⟩ ⟨e, written items (ms ++ [⟨.closeBrace, closing⟩]), fs⟩ := by
  have hsign : IsSign '}' := by simp [IsSign]
  induction ls generalizing c items with
  | nil =>
    rw [List.flatMap_nil, List.nil_append] at hover
    obtain ⟨d, hgap, hclose⟩ := hover.split
    have hrest : d.rest = '}' :: e.rest := hclose.rest
    have hskip := hsign.skipBlank? hblanks hgap hrest
    have hend : d.skip 1 = e := hclose.skip
    have hstep : State.step limit ⟨c, items, .variants :: fs⟩ =
        .next ⟨e, .lexeme ⟨.closeBrace, ⟨d.offset, e.offset⟩⟩ :: items, fs⟩ := by
      simp only [State.step, State.onContent, hskip, State.readVariants, hrest, State.emit, hend]
    exact ⟨[], _, .variantsEnd, .single hstep⟩
  | cons l ls ih =>
    obtain ⟨hl, hrest⟩ := List.forall_mem_cons.1 hls
    rw [List.flatMap_cons, VariantLine.chars, List.append_assoc, List.append_assoc] at hover
    obtain ⟨d, hgap, hover⟩ := hover.split
    obtain ⟨d', hcontent, hover⟩ := hover.split
    obtain ⟨x, rest, hx, hsign'⟩ := l.exists_sign
    have hsigned : d.rest = x :: (rest ++ d'.rest) := by rw [hcontent.rest, hx, List.cons_append]
    have hskip := hsign'.skipBlank? hl.blanks hgap hsigned
    -- the next line is that of a variant or of the brace
    have hend : Line.EndsValue d'.rest := by
      rw [hover.rest]
      cases ls with
      | nil =>
        rw [List.flatMap_nil, List.nil_append, List.append_assoc]
        exact hsign.endsValue hblanks indent _
      | cons l' ls =>
        obtain ⟨y, more, hy, hsign''⟩ := l'.exists_sign
        rw [List.flatMap_cons, VariantLine.chars, hy, List.append_assoc, List.append_assoc, List.append_assoc,
          List.cons_append]
        exact hsign''.endsValue (hrest l' List.mem_cons_self).blanks l'.indent _
    obtain ⟨ms, hspells, hreaches⟩ := reaches_variant limit items fs hl hskip hcontent hend
    obtain ⟨ns, closing, hspells', hreaches'⟩ := ih (written items ms) hrest hover
    refine ⟨ms ++ ns, closing, .variantsCons hspells hspells', ?_⟩
    rw [List.append_assoc, written_append]
    exact hreaches.trans hreaches'

/-! ## Select expressions -/

/-- The arrow behind a selector makes a placeable one of variants. -/
theorem step_arrow (hspace : c.Over [' '] d) (harrow : d.Over ['-', '>'] e) :
    State.step limit ⟨c, items, .placeable :: fs⟩ =
      .next ⟨e, .lexeme ⟨.arrow, ⟨d.offset, e.offset⟩⟩ :: items, .variants :: fs⟩ := by
  have hrest : d.rest = '-' :: '>' :: e.rest := harrow.rest
  have hskip := hspace.skipBlank? isBlankChar_space hrest rfl
  have hend : d.skip 2 = e := harrow.skip
  simp only [State.step, State.onContent, hskip, State.readPlaceable, hrest, State.emit, hend]

/-- **A select expression on several lines is read.** -/
theorem SpreadSelect.Fits.readable {s : SpreadSelect} (h : s.Fits limit) (hover : c.Over s.chars e)
    (hfs : fs.countP Frame.nests = 0) :
    ∃ ls t, Spells (.placeable s.placeable) ls ∧ State.openPlaceable limit ⟨c, items, fs⟩ = .next t ∧
      t.Reaches limit ⟨e, written items ls, fs⟩ := by
  have htext : s.chars = ['{'] ++ ([' '] ++ (s.selector.display.toList ++ ([' '] ++ (['-', '>'] ++
      (s.lines.flatMap VariantLine.chars ++ (gap s.blanks s.indent ++ ['}'])))))) := rfl
  rw [htext] at hover
  obtain ⟨c₁, hopen, hover⟩ := hover.split
  obtain ⟨c₂, hspace, hover⟩ := hover.split
  obtain ⟨c₃, hselector, hover⟩ := hover.split
  obtain ⟨c₄, hspace', hover⟩ := hover.split
  obtain ⟨c₅, harrow, hover⟩ := hover.split
  obtain ⟨hroom, hinner⟩ := List.forall_mem_cons.1 h.depths
  obtain ⟨hdepths, -⟩ := List.forall_mem_append.1 hinner
  have hbrace := openPlaceable_over items fs hopen (hfs.symm ▸ hroom)
  have hselects : ∀ k ∈ s.selector.depths ((Frame.placeable :: fs).countP Frame.nests), k ≤ limit := by
    rw [List.countP_cons_of_pos rfl, hfs]
    exact hdepths
  obtain ⟨ls, hspells, hreaches⟩ := Expression.readable h.legible .placeable fs
    (.lexeme ⟨.openBrace, ⟨c.offset, c₁.offset⟩⟩ :: items) rfl hspace isBlankChar_space hselector
    ⟨' ', _, hspace'.rest, rfl⟩ hselects
  have hstep := step_arrow limit (written (.lexeme ⟨.openBrace, ⟨c.offset, c₁.offset⟩⟩ :: items) ls) fs hspace' harrow
  obtain ⟨ms, closing, hspells', hreaches'⟩ := reaches_variants limit (.lexeme ⟨.arrow, ⟨c₄.offset, c₅.offset⟩⟩ ::
    written (.lexeme ⟨.openBrace, ⟨c.offset, c₁.offset⟩⟩ :: items) ls) fs h.lines h.blanks hover
  have hplaceable : Spells (.placeable s.placeable) (⟨.openBrace, ⟨c.offset, c₁.offset⟩⟩ ::
      (ls ++ ⟨.arrow, ⟨c₄.offset, c₅.offset⟩⟩ :: (ms ++ [⟨.closeBrace, closing⟩]))) := .select hspells hspells'
  refine ⟨_, _, hplaceable, hbrace, ?_⟩
  rw [written_cons, written_append, written_cons]
  exact hreaches.trans (.head hstep hreaches')

end

theorem variantsWellFormed_lines (ls : List VariantLine) : VariantsWellFormed (ls.map VariantLine.variant) := by
  induction ls with
  | nil => trivial
  | cons l ls ih => exact ⟨⟨List.cons_ne_nil _ _, trivial, trivial⟩, ih⟩

/-- **Select expressions survive any layout.** A message whose value is a select expression is parsed with its selector
and with the keys, the values and the default flags of its variants in their order, wherever the lines of these and that
of the closing brace begin, and however many blank lines stand between them. -/
theorem parse_spreadSelect (o : ParseOptions) (s : SpreadSelect) (hs : s.Fits o.maxNesting) {ending : List Char}
    (hending : IsEnding ending) :
    ∃ m, (parse o (String.ofList (messageText (' ' :: (s.chars ++ ending))))).body = [.message m] ∧
      m.unlocated = ⟨⟨"m", default⟩, some (Pattern.unlocated ⟨[.placeable s.placeable], default⟩), [], none, default⟩ := by
  obtain ⟨policy, limit⟩ := o
  have hspace : Cursor.Over ⟨3, ' ' :: (s.chars ++ ending)⟩ [' '] ⟨4, s.chars ++ ending⟩ := ⟨rfl, rfl⟩
  obtain ⟨d, hover, hrest⟩ : ∃ d, Cursor.Over ⟨4, s.chars ++ ending⟩ s.chars d ∧ d.rest = ending :=
    ⟨⟨_, ending⟩, ⟨rfl, rfl⟩, rfl⟩
  have hd : IsEnding d.rest := hrest ▸ hending
  have hnone : '\n' ∉ ([] : List Char) := List.not_mem_nil
  have hbegin := beginValue_inline (written [] shortTokens) [] hspace (by simp) (by simp [SpreadSelect.chars])
    (isBlank_of_content hnone rfl)
  obtain ⟨ls, t, hspells, hopen, hreaches⟩ := hs.readable limit [.run ⟨0, none, 4, []⟩]
    [.pattern (.lexeme ⟨.patternStart, .at 4⟩ :: written [] shortTokens) 0 none] hover rfl
  have hempty : IsLineText [] := ⟨by simp [IsText], List.not_mem_nil⟩
  -- no text stands in front of the placeable, and none behind it
  have hfirst := (step_text limit [] (.refl _) hempty rfl).trans hopen
  have hlast : State.step limit ⟨d, written [.run ⟨0, none, 4, []⟩] ls,
      [.pattern (.lexeme ⟨.patternStart, .at 4⟩ :: written [] shortTokens) 0 none]⟩ =
        .next ⟨d, written [] (shortTokens ++ ⟨.patternStart, .at 4⟩ :: (ls ++ [⟨.patternEnd, .at d.offset⟩])), []⟩ := by
    rw [step_lastText limit _ (.refl d) hempty hd.endsValue (.inl rfl), dedent_written, List.map_append, List.map_reverse,
      List.append_assoc, ← written_eq, written_text, textLexemes_nil, textLexemes_nil, List.nil_append, ← written_append]
    rfl
  have hwell : Pattern.WellFormed ⟨[.placeable s.placeable], default⟩ :=
    ⟨List.cons_ne_nil _ _, ⟨hs.wellFormed, hs.selects, hs.default, variantsWellFormed_lines s.lines⟩, trivial⟩
  have hpattern : Spells (.pattern (some ⟨[.placeable s.placeable], default⟩))
      (⟨.patternStart, .at 4⟩ :: (ls ++ [⟨.patternEnd, .at d.offset⟩])) :=
    .pattern (.elementsPlaceable hspells .elementsEnd)
  refine parse_message limit hwell hpattern ?_ hd.nextLine policy String.toList_ofList
  rw [ofHeader_message, hbegin]
  exact (State.Reaches.head hfirst (hreaches.trans (.single hlast))).run_eq.trans (run_at_end limit _ hd)

/-- Keys of both kinds, blank lines, and one line indented but not the one of the brace. -/
def plurals : SpreadSelect where
  selector := .variableRef ⟨"n", default⟩ default
  lines := [⟨[], 0, false, .number ⟨"1", .finite false 4503599627370496 (-52), default⟩, ['a']⟩,
    ⟨[[], [' ']], 3, true, .identifier ⟨"other", default⟩, ['[', 'b']⟩]
  blanks := []
  indent := 0

theorem parse_spreadSelect_plurals :
    plurals.Fits 1 ∧ IsEnding [] ∧ String.ofList (messageText (' ' :: (plurals.chars ++ []))) =
        "m = \x7b $n ->\n[1] a\n\n \n   *[other] [b\n\x7d" ∧
      ∃ m, (parse ⟨.reject, 1⟩ (String.ofList (messageText (' ' :: (plurals.chars ++ []))))).body = [.message m] ∧
        m.unlocated = ⟨⟨"m", default⟩, some (Pattern.unlocated ⟨[.placeable plurals.placeable], default⟩), [], none,
          default⟩ := by
  have hselector : plurals.selector.Legible := ⟨'n', [], rfl, by decide, List.forall_mem_nil _⟩
  have hnumber : VariantLine.Fits ⟨[], 0, false, .number ⟨"1", .finite false 4503599627370496 (-52), default⟩, ['a']⟩ :=
    ⟨List.forall_mem_nil _, ⟨⟨'1', [], by decide, by decide, .inl rfl⟩, by decide +kernel⟩, by simp [IsRowText],
      by decide, ⟨'a', rfl, rfl⟩⟩
  have hname : VariantLine.Fits ⟨[[], [' ']], 3, true, .identifier ⟨"other", default⟩, ['[', 'b']⟩ :=
    ⟨by simp [AllBlank, Line.isBlankChar], ⟨'o', ['t', 'h', 'e', 'r'], rfl, by decide, List.all_eq_true.1 rfl⟩,
      by simp [IsRowText], by decide, ⟨'b', rfl, rfl⟩⟩
  have hfits : plurals.Fits 1 :=
    ⟨hselector, trivial, rfl, List.forall_mem_cons.2 ⟨hnumber, List.forall_mem_singleton.2 hname⟩, rfl,
      List.forall_mem_nil _, List.forall_mem_singleton.2 le_rfl⟩
  exact ⟨hfits, .inl rfl, rfl, parse_spreadSelect ⟨.reject, 1⟩ plurals hfits (.inl rfl)⟩

end Fluent
