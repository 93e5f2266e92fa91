import Fluent.Proofs.Coverage
import Fluent.Proofs.Joined
import Fluent.Proofs.Determined
import Fluent.Proofs.Escapes
import Fluent.Proofs.Repeats
import Fluent.Proofs.Unlocated

/-!
# What spells an entry is read as the entry

A tree can be spelled in more than one way: a comma may follow the last argument of a list, and the tokens
may stand anywhere, as long as signs touch their names. Whichever way is taken, the grammar reads the tree.

* `Spells p ls`: the tokens `ls` spell the phrase `p` in the order of the grammar.
* `Spells.derives_inline`, `Spells.derives_pattern`, `Spells.derives_attributes`, ...: what is spelled is derived,
  but for locations.
* `Entry.SpelledBy`: the tokens of a message or of a term.
* `parse_complete`: the tokens of an entry, its comment in front, are read as this entry alone.
-/

namespace Fluent

/-! ## Spelling -/

/-- A dot and a name in one piece behind something that ends at an offset, or nothing. -/
inductive SpellsAccessor (offset : Nat) : Option Identifier → List Lexeme → Prop
  | none : SpellsAccessor offset none []
  | some {id : Identifier} {dot span : Span} : dot.start = offset → span.start = dot.stop →
      SpellsAccessor offset (some id) [⟨.dot, dot⟩, ⟨.identifier id.name, span⟩]

/-- The key of a variant; a number has the value that it is written with. -/
inductive SpellsKey : VariantKey → List Lexeme → Prop
  | identifier {id : Identifier} {span : Span} : SpellsKey (.identifier id) [⟨.identifier id.name, span⟩]
  | number {n : NumberLiteral} {span : Span} : Binary64.read? n.raw.toList = some n.value →
      SpellsKey (.number n) [⟨.number n.raw, span⟩]

/-- The bracket that opens a variant, with a star in front of the default one. Nothing is asked of where the two
stand. -/
inductive SpellsBracket : Bool → List Lexeme → Prop
  | plain {bracket : Span} : SpellsBracket false [⟨.openBracket, bracket⟩]
  | starred {star bracket : Span} : SpellsBracket true [⟨.star, star⟩, ⟨.openBracket, bracket⟩]

/-- The tokens that spell a phrase in the order of the grammar, wherever they stand: the signs `$` and `-`
take one byte and touch the name behind them, and so does the dot of an accessor on both sides. Locations in
the phrase are of no account. -/
inductive Spells : Phrase → List Lexeme → Prop
  | string {value raw : String} {location : Location} {span : Span} :
      Spells (.inline (.string value raw location)) [⟨.string raw, span⟩]
  | number {n : NumberLiteral} {span : Span} : Binary64.read? n.raw.toList = some n.value →
      Spells (.inline (.number n)) [⟨.number n.raw, span⟩]
  | variableRef {id : Identifier} {location : Location} {dollar span : Span} : span.start = dollar.start + 1 →
      Spells (.inline (.variableRef id location)) [⟨.dollar, dollar⟩, ⟨.identifier id.name, span⟩]
  | term {id : Identifier} {accessor : Option Identifier} {location : Location} {minus span : Span}
      {ls : List Lexeme} : span.start = minus.start + 1 → SpellsAccessor span.stop accessor ls →
      Spells (.inline (.termRef id accessor none location))
        (⟨.minus, minus⟩ :: ⟨.identifier id.name, span⟩ :: ls)
  | termCall {id : Identifier} {accessor : Option Identifier} {a : CallArguments} {location : Location}
      {minus span : Span} {ls ms : List Lexeme} : span.start = minus.start + 1 →
      SpellsAccessor span.stop accessor ls → Spells (.arguments a) ms →
      Spells (.inline (.termRef id accessor (some a) location))
        (⟨.minus, minus⟩ :: ⟨.identifier id.name, span⟩ :: (ls ++ ms))
  | message {id : Identifier} {accessor : Option Identifier} {location : Location} {span : Span}
      {ls : List Lexeme} : SpellsAccessor span.stop accessor ls →
      Spells (.inline (.messageRef id accessor location)) (⟨.identifier id.name, span⟩ :: ls)
  | function {id : Identifier} {a : CallArguments} {location : Location} {span : Span} {ls : List Lexeme} :
      Spells (.arguments a) ls →
      Spells (.inline (.functionRef id a location)) (⟨.identifier id.name, span⟩ :: ls)
  | nested {p : Placeable} {ls : List Lexeme} : Spells (.placeable p) ls → Spells (.inline (.placeable p)) ls
  | select {e : Expression} {vs : List Variant} {inner location : Location} {opening arrow closing : Span}
      {ls ms : List Lexeme} : Spells (.inline e) ls → Spells (.variants vs) ms →
      Spells (.placeable ⟨.select e vs inner, location⟩)
        (⟨.openBrace, opening⟩ :: (ls ++ ⟨.arrow, arrow⟩ :: (ms ++ [⟨.closeBrace, closing⟩])))
  | placeable {e : Expression} {location : Location} {opening closing : Span} {ls : List Lexeme} :
      Spells (.inline e) ls →
      Spells (.placeable ⟨e, location⟩) (⟨.openBrace, opening⟩ :: (ls ++ [⟨.closeBrace, closing⟩]))
  | arguments {es : List Expression} {as : List NamedArgument} {location : Location} {opening closing : Span}
      {ls ms : List Lexeme} : Spells (.positional es) ls → Spells (.named [] as closing) ms →
      Spells (.arguments ⟨es, as, location⟩) (⟨.openParen, opening⟩ :: (ls ++ ms))
  | positionalEnd {marker : Span} : Spells (.positional []) [⟨.endPositional, marker⟩]
  | positionalLast {e : Expression} {marker : Span} {ls : List Lexeme} : Spells (.inline e) ls →
      Spells (.positional [e]) (ls ++ [⟨.endPositional, marker⟩])
  | positionalCons {e : Expression} {es : List Expression} {comma : Span} {ls ms : List Lexeme} :
      Spells (.inline e) ls → Spells (.positional es) ms →
      Spells (.positional (e :: es)) (ls ++ ⟨.comma, comma⟩ :: ms)
  | namedEnd {seen : List String} {closing : Span} : Spells (.named seen [] closing) [⟨.closeParen, closing⟩]
  | namedLast {seen : List String} {name : Identifier} {e : Expression} {location : Location}
      {span colon closing : Span} {ls : List Lexeme} : Spells (.inline e) ls →
      Spells (.named seen [⟨name, e, location⟩] closing)
        (⟨.identifier name.name, span⟩ :: ⟨.colon, colon⟩ :: (ls ++ [⟨.closeParen, closing⟩]))
  | namedCons {seen : List String} {name : Identifier} {e : Expression} {location : Location}
      {as : List NamedArgument} {span colon comma closing : Span} {ls ms : List Lexeme} : Spells (.inline e) ls →
      Spells (.named (name.name :: seen) as closing) ms →
      Spells (.named seen (⟨name, e, location⟩ :: as) closing)
        (⟨.identifier name.name, span⟩ :: ⟨.colon, colon⟩ :: (ls ++ ⟨.comma, comma⟩ :: ms))
  | variantsEnd : Spells (.variants []) []
  | variantsCons {v : Variant} {vs : List Variant} {ls ms : List Lexeme} : Spells (.variant v) ls →
      Spells (.variants vs) ms → Spells (.variants (v :: vs)) (ls ++ ms)
  | variant {key : VariantKey} {value : Pattern} {isDefault : Bool} {location : Location} {closing : Span}
      {ls ms ns : List Lexeme} : SpellsBracket isDefault ls → SpellsKey key ms →
      Spells (.pattern (some value)) ns →
      Spells (.variant ⟨key, value, isDefault, location⟩) (ls ++ (ms ++ ⟨.closeBracket, closing⟩ :: ns))
  | noPattern {marker : Span} : Spells (.pattern none) [⟨.patternSkip, marker⟩]
  | pattern {es : List PatternElement} {location : Location} {marker : Span} {ls : List Lexeme} :
      Spells (.elements es) ls → Spells (.pattern (some ⟨es, location⟩)) (⟨.patternStart, marker⟩ :: ls)
  | elementsEnd {marker : Span} : Spells (.elements []) [⟨.patternEnd, marker⟩]
  | elementsText {chunk : TextChunk} {es : List PatternElement} {span : Span} {ls : List Lexeme} :
      Spells (.elements es) ls → Spells (.elements (.text chunk :: es)) (⟨.pureText chunk.value, span⟩ :: ls)
  | elementsPlaceable {p : Placeable} {es : List PatternElement} {ls ms : List Lexeme} :
      Spells (.placeable p) ls → Spells (.elements es) ms → Spells (.elements (.placeable p :: es)) (ls ++ ms)
  | oneAttribute {a : Attribute} {dot span equals : Span} {ls : List Lexeme} :
      Spells (.pattern (some a.value)) ls →
      Spells (.oneAttribute a)
        (⟨.dot, dot⟩ :: ⟨.identifier a.id.name, span⟩ :: ⟨.equals, equals⟩ :: ls)
  | attributesEnd : Spells (.attributes []) []
  | attributesCons {a : Attribute} {as : List Attribute} {ls ms : List Lexeme} : Spells (.oneAttribute a) ls →
      Spells (.attributes as) ms → Spells (.attributes (a :: as)) (ls ++ ms)

/-! ## Reading what is spelled -/

namespace Input

variable {i j : Input} {l : Lexeme} {ls ms : List Lexeme}

/-- What is spent in two parts leads over an input between them. -/
theorem Spends.split (h : i.Spends (ls ++ ms) j) : ∃ k, i.Spends ls k ∧ k.Spends ms j := by
  refine ⟨⟨ms ++ j.lexemes, readThrough i.readTo ls⟩, ⟨?_, rfl⟩, ⟨rfl, ?_⟩⟩
  · rw [h.lexemes, List.append_assoc]
  · rw [h.readTo, readThrough, readThrough, readThrough, List.foldl_append]

theorem Spends.first (h : i.Spends (l :: ls) j) : ∃ k, i.Spends [l] k ∧ k.Spends ls j := by
  have hsplit : i.Spends ([l] ++ ls) j := h
  exact hsplit.split

/-- Where nothing is spent, the input is the same. -/
theorem Spends.eq (h : i.Spends [] j) : i = j := by
  obtain ⟨hlexemes, hreadTo⟩ := h
  cases i
  cases j
  simp_all [readThrough]

variable {m : LineMap}

theorem Spends.spendsId {name : String} {span : Span} (h : i.Spends [⟨.identifier name, span⟩] j) :
    i.SpendsId m ⟨name, m.locate span⟩ j := ⟨h, rfl⟩

theorem Spends.spendsNumber {n : NumberLiteral} {span : Span} (h : i.Spends [⟨.number n.raw, span⟩] j)
    (hvalue : Binary64.read? n.raw.toList = some n.value) :
    i.SpendsNumber m ⟨n.raw, n.value, m.locate span⟩ j := ⟨h, rfl, hvalue⟩

end Input

variable {m : LineMap} {i j : Input}

/-- An accessor is read where no other dot could be taken for one. -/
theorem SpellsAccessor.spends {offset : Nat} {accessor : Option Identifier} {ls : List Lexeme}
    (h : SpellsAccessor offset accessor ls) (hspends : i.Spends ls j) (hdot : j.peek? ≠ Option.some .dot) :
    ∃ accessor', accessor'.map Identifier.unlocated = accessor.map Identifier.unlocated ∧
      Input.SpendsAccessor m offset i accessor' j := by
  cases h with
  | none =>
    obtain rfl := hspends.eq
    refine ⟨Option.none, rfl, .none ?_⟩
    intro span hspan
    rw [Input.peek?, hspan] at hdot
    exact absurd rfl hdot
  | @some id dot span hstart htouch =>
    obtain ⟨k, hd, hid⟩ := hspends.first
    exact ⟨Option.some ⟨id.name, m.locate span⟩, rfl, .some hd hstart hid.spendsId htouch⟩

theorem SpellsKey.spends {key : VariantKey} {ls : List Lexeme} (h : SpellsKey key ls) (hspends : i.Spends ls j) :
    ∃ key' : VariantKey, key'.unlocated = key.unlocated ∧ Input.SpendsKey m i key' j := by
  cases h with
  | @identifier id span => exact ⟨.identifier ⟨id.name, m.locate span⟩, rfl, .identifier hspends.spendsId⟩
  | @number n span hvalue =>
    exact ⟨.number ⟨n.raw, n.value, m.locate span⟩, rfl, .number (hspends.spendsNumber hvalue)⟩

/-- The bracket of a variant is read from the tokens that spell it, with or without the star. -/
theorem SpellsBracket.spends {isDefault : Bool} {ls : List Lexeme} (h : SpellsBracket isDefault ls)
    (hspends : i.Spends ls j) : ∃ start, Input.SpendsBracket i isDefault start j := by
  cases h with
  | plain => exact ⟨_, .plain hspends⟩
  | starred =>
    obtain ⟨k, hstar, hbracket⟩ := hspends.first
    exact ⟨_, .starred hstar hbracket⟩

/-- Neither a parenthesis nor a dot comes next: nothing that would go on with an expression. -/
def Input.EndsExpression (j : Input) : Prop := j.peek? ≠ some .openParen ∧ j.peek? ≠ some .dot

/-- Behind an expression stands a token that goes on with none: no parenthesis and no dot, which could be taken for a
part of it. -/
theorem Input.Spends.endsExpression {k : Input} {l : Lexeme} {ls : List Lexeme} (h : j.Spends (l :: ls) k)
    (hparen : l.token ≠ .openParen) (hdot : l.token ≠ .dot) : j.EndsExpression := by
  constructor
  · rw [h.peek?]
    exact fun heq => hparen (Option.some.inj heq)
  · rw [h.peek?]
    exact fun heq => hdot (Option.some.inj heq)

/-- Where a text is an escaped string, it is one everywhere, with the same meaning. -/
theorem unescape_eq_ok {o : Nat} (o' : Nat) {cs value : List Char} (h : Text.unescape o cs = .ok value) :
    Text.unescape o' cs = .ok value := Text.unescape_eq_ok_iff.2 (Text.unescape_eq_ok_iff.1 h)

theorem isFunctionName_of_functionName {name : String} (h : FunctionName name) : isFunctionName name = true := by
  obtain ⟨c, cs, hname, hc, hcs⟩ := h
  unfold isFunctionName
  rw [hname]
  simp only [Bool.and_eq_true, List.all_eq_true]
  refine ⟨by simpa [Char.isUpper, Char.le_def] using hc, ?_⟩
  intro d hd
  simp only [Bool.or_eq_true, beq_iff_eq, Char.isUpper, Char.isDigit, Bool.and_eq_true, decide_eq_true_eq]
  rcases hcs d hd with hupper | hdigit | hunderscore | hdash
  · exact .inl (.inl (.inl hupper))
  · exact .inl (.inl (.inr hdigit))
  · exact .inl (.inr hunderscore)
  · exact .inr hdash

/-- Whatever is no attribute of a term can be placed in a text. -/
theorem checkPlaced_of_not_isTermAttribute {e : Expression} (h : e.isTermAttribute = false) :
    checkPlaced e = .ok () := by
  rw [checkPlaced_eq, h]
  rfl

/-- An expression that is spelled on its own is no select expression. -/
theorem Spells.not_select {e : Expression} {ls : List Lexeme} (h : Spells (.inline e) ls) {location : Location}
    (hwell : Placeable.WellFormed ⟨e, location⟩) : e.WellFormed ∧ e.isTermAttribute = false := by
  cases h <;> exact hwell

/-- Arguments are spelled with a parenthesis first. -/
theorem Spells.head_arguments {a : CallArguments} {ls : List Lexeme} (h : Spells (.arguments a) ls) :
    ∃ opening ms, ls = ⟨.openParen, opening⟩ :: ms := by
  cases h with
  | arguments => exact ⟨_, _, rfl⟩

/-! Where the tokens of a phrase are spent, the grammar derives the phrase, but for locations. The tokens are
cut where the parts of the phrase meet; the part behind a cut says that nothing there goes on with the part in
front. -/

namespace Spells

mutual

/-- Tokens that spell an expression derive one that differs in its locations only. There is one such lemma for each kind
of tree, and they go down the spelling together. -/
theorem derives_inline {e : Expression} {ls : List Lexeme} {i j : Input} (h : Spells (.inline e) ls)
    (hwell : e.WellFormed) (hspends : i.Spends ls j) (hend : j.EndsExpression) :
    ∃ e' : Expression, e'.unlocated = e.unlocated ∧ Derives m i (.inline e') j := by
  match e, h with
  | .string value raw location, .string =>
    refine ⟨.string (String.ofList value.toList) raw _, ?_, .string hspends (unescape_eq_ok _ hwell)⟩
    rw [String.ofList_toList]
    rfl
  | .number n, .number hvalue =>
    refine ⟨.number ⟨n.raw, n.value, _⟩, ?_, .number (hspends.spendsNumber hvalue)⟩
    rfl
  | .variableRef id location, .variableRef htouch =>
    obtain ⟨k, hdollar, hid⟩ := hspends.first
    refine ⟨.variableRef ⟨id.name, _⟩ _, ?_, .variableRef hdollar hid.spendsId htouch⟩
    rfl
  | .termRef id accessor none location, .term htouch hacc =>
    obtain ⟨k₁, hminus, hrest⟩ := hspends.first
    obtain ⟨k₂, hid, hrest⟩ := hrest.first
    obtain ⟨accessor', haccessor, hacc⟩ := hacc.spends hrest hend.2
    refine ⟨.termRef ⟨id.name, _⟩ accessor' none _, ?_,
      .term hminus hid.spendsId htouch hacc hend.1⟩
    exact congrArg (Expression.termRef id.unlocated · none default) haccessor
  | .termRef id accessor (some a) location, .termCall htouch hacc ha =>
    obtain ⟨k₁, hminus, hrest⟩ := hspends.first
    obtain ⟨k₂, hid, hrest⟩ := hrest.first
    obtain ⟨k₃, hrest, harguments⟩ := hrest.split
    obtain ⟨a', ha', hderives⟩ := derives_arguments ha hwell harguments
    have hdot : k₃.peek? ≠ some .dot := by
      obtain ⟨opening, ns, rfl⟩ := ha.head_arguments
      rw [harguments.peek?]
      simp
    obtain ⟨accessor', haccessor, hacc⟩ := hacc.spends hrest hdot
    refine ⟨.termRef ⟨id.name, _⟩ accessor' (some a') _, ?_,
      .termCall hminus hid.spendsId htouch hacc hderives⟩
    exact congrArg₂ (fun accessor a => Expression.termRef id.unlocated accessor (some a) default) haccessor ha'
  | .messageRef id accessor location, .message hacc =>
    obtain ⟨k, hid, hrest⟩ := hspends.first
    obtain ⟨accessor', haccessor, hread⟩ := hacc.spends (m := m) hrest hend.2
    have hparen : k.peek? ≠ some .openParen := by
      cases hacc with
      | none =>
        rw [Input.peek?, hrest.lexemes]
        exact hend.1
      | some =>
        rw [hrest.peek?]
        simp
    refine ⟨.messageRef ⟨id.name, _⟩ accessor' _, ?_, .message hid.spendsId hparen hread⟩
    exact congrArg (Expression.messageRef id.unlocated · default) haccessor
  | .functionRef id a location, .function ha =>
    obtain ⟨k, hid, hrest⟩ := hspends.first
    obtain ⟨a', ha', hderives⟩ := derives_arguments ha hwell.2 hrest
    refine ⟨.functionRef ⟨id.name, _⟩ a' _, ?_,
      .function hid.spendsId (isFunctionName_of_functionName hwell.1) hderives⟩
    exact congrArg (Expression.functionRef id.unlocated · default) ha'
  | .placeable p, .nested hp =>
    obtain ⟨p', hp', hderives⟩ := derives_placeable hp hwell hspends
    exact ⟨.placeable p', congrArg Expression.placeable hp', .nested hderives⟩

theorem derives_placeable {p : Placeable} {ls : List Lexeme} {i j : Input} (h : Spells (.placeable p) ls)
    (hwell : p.WellFormed) (hspends : i.Spends ls j) :
    ∃ p' : Placeable, p'.unlocated = p.unlocated ∧ Derives m i (.placeable p') j := by
  match p, h with
  | ⟨.select e vs inner, location⟩, .select he hvs =>
    obtain ⟨hselector, hvalid, hdefault, hvariants⟩ := hwell
    obtain ⟨k₁, hopening, hrest⟩ := hspends.first
    obtain ⟨k₂, hinner, hrest⟩ := hrest.split
    obtain ⟨k₃, harrow, hrest⟩ := hrest.first
    obtain ⟨k₄, hinner', hclosing⟩ := hrest.split
    obtain ⟨e', he', hderives⟩ := derives_inline he hselector hinner (harrow.endsExpression (by simp) (by simp))
    have hend : k₄.peek? ≠ some .star ∧ k₄.peek? ≠ some .openBracket := by
      rw [hclosing.peek?]
      exact ⟨by simp, by simp⟩
    obtain ⟨vs', hvs', hderives'⟩ := derives_variants hvs hvariants hinner' hend
    have hvalid' : e'.isSelector = true := by
      rw [← e'.isSelector_unlocated, he', Expression.isSelector_unlocated, hvalid]
    have hdefault' : (vs'.filter (·.isDefault)).length = 1 := by
      rw [← filter_isDefault_unlocated, hvs', filter_isDefault_unlocated]
      exact hdefault
    refine ⟨⟨.select e' vs' _, _⟩, ?_, .select hopening hderives harrow hvalid' hderives' hdefault' hclosing⟩
    exact congrArg₂ (fun e vs => Placeable.mk (.select e vs default) default) he' hvs'
  | ⟨e, location⟩, .placeable he =>
    obtain ⟨hinner, hplaced⟩ := he.not_select hwell
    obtain ⟨k₁, hopening, hrest⟩ := hspends.first
    obtain ⟨k₂, hrest, hclosing⟩ := hrest.split
    obtain ⟨e', he', hderives⟩ := derives_inline he hinner hrest (hclosing.endsExpression (by simp) (by simp))
    have hplaced' : e'.isTermAttribute = false := by
      rw [← e'.isTermAttribute_unlocated, he', Expression.isTermAttribute_unlocated, hplaced]
    refine ⟨⟨e', _⟩, ?_, .placeable hopening hderives (checkPlaced_of_not_isTermAttribute hplaced') hclosing⟩
    exact congrArg (Placeable.mk · default) he'

/-- Tokens that spell the arguments of a call derive them; a comma behind the last one may be there or not. -/
theorem derives_arguments {a : CallArguments} {ls : List Lexeme} {i j : Input} (h : Spells (.arguments a) ls)
    (hwell : a.WellFormed) (hspends : i.Spends ls j) :
    ∃ a' : CallArguments, a'.unlocated = a.unlocated ∧ Derives m i (.arguments a') j := by
  match a, h with
  | ⟨es, as, location⟩, .arguments hes has =>
    obtain ⟨hpositional, hnamed, hnodup⟩ := hwell
    obtain ⟨k₁, hopening, hrest⟩ := hspends.first
    obtain ⟨k₂, hrest, hrest'⟩ := hrest.split
    obtain ⟨es', hes', hderives⟩ := derives_positional hes hpositional hrest
    obtain ⟨as', has', hderives'⟩ := derives_named has hnamed hnodup (fun _ _ => List.not_mem_nil) hrest'
    refine ⟨⟨es', as', _⟩, ?_, .arguments hopening hderives hderives'⟩
    exact congrArg₂ (fun es as => CallArguments.mk es as default) hes' has'

/-- Positional arguments in front of their marker are derived, and what stands behind the marker is left to the named
ones. -/
theorem derives_positional {es : List Expression} {ls : List Lexeme} {i j : Input}
    (h : Spells (.positional es) ls) (hwell : PositionalWellFormed es) (hspends : i.Spends ls j) :
    ∃ es', unlocatedPositional es' = unlocatedPositional es ∧ Derives m i (.positional es') j := by
  match es, h with
  | [], .positionalEnd => exact ⟨[], rfl, .positionalEnd hspends⟩
  | [e], .positionalLast he =>
    obtain ⟨k, hrest, hmarker⟩ := hspends.split
    obtain ⟨e', he', hderives⟩ := derives_inline he hwell.1 hrest (hmarker.endsExpression (by simp) (by simp))
    exact ⟨[e'], congrArg ([·]) he', .positionalLast hderives hmarker⟩
  | e :: es, .positionalCons he hes =>
    obtain ⟨k₁, hrest, hrest'⟩ := hspends.split
    obtain ⟨k₂, hcomma, hmore⟩ := hrest'.first
    obtain ⟨e', he', hderives⟩ := derives_inline he hwell.1 hrest (hcomma.endsExpression (by simp) (by simp))
    obtain ⟨es', hes', hderives'⟩ := derives_positional hes hwell.2 hmore
    exact ⟨e' :: es', congrArg₂ List.cons he' hes', .positionalCons hderives hcomma hderives'⟩

/-- The names of the arguments are new ones and differ from one another. -/
theorem derives_named {seen : List String} {as : List NamedArgument} {closing : Span} {ls : List Lexeme}
    {i j : Input} (h : Spells (.named seen as closing) ls) (hwell : NamedWellFormed as)
    (hnodup : (as.map (·.name.name)).Nodup) (hseen : ∀ a ∈ as, a.name.name ∉ seen) (hspends : i.Spends ls j) :
    ∃ as', unlocatedNamed as' = unlocatedNamed as ∧ Derives m i (.named seen as' closing) j := by
  match as, h with
  | [], .namedEnd => exact ⟨[], rfl, .namedEnd hspends⟩
  | [⟨name, e, location⟩], .namedLast he =>
    obtain ⟨k₁, hid, hrest⟩ := hspends.first
    obtain ⟨k₂, hcolon, hrest⟩ := hrest.first
    obtain ⟨k₃, hrest, hclosing⟩ := hrest.split
    obtain ⟨e', he', hderives⟩ := derives_inline he hwell.1 hrest (hclosing.endsExpression (by simp) (by simp))
    have hnew : name.name ∉ seen := hseen _ List.mem_cons_self
    refine ⟨[⟨⟨name.name, _⟩, e', _⟩], ?_,
      .namedLast hid.spendsId hcolon hderives hnew hclosing⟩
    exact congrArg (fun e => [NamedArgument.mk name.unlocated e default]) he'
  | ⟨name, e, location⟩ :: as, .namedCons he has =>
    obtain ⟨k₁, hid, hrest⟩ := hspends.first
    obtain ⟨k₂, hcolon, hrest⟩ := hrest.first
    obtain ⟨k₃, hrest, hrest'⟩ := hrest.split
    obtain ⟨k₄, hcomma, hmore⟩ := hrest'.first
    obtain ⟨e', he', hderives⟩ := derives_inline he hwell.1 hrest (hcomma.endsExpression (by simp) (by simp))
    -- the names that follow differ from this one too
    rw [List.map_cons, List.nodup_cons] at hnodup
    have hnew : ∀ a ∈ as, a.name.name ∉ name.name :: seen := by
      intro a ha hmem
      rcases List.mem_cons.1 hmem with heq | hmem
      · exact hnodup.1 (List.mem_map.2 ⟨a, ha, heq⟩)
      · exact hseen a (List.mem_cons_of_mem _ ha) hmem
    obtain ⟨as', has', hderives'⟩ := derives_named has hwell.2 hnodup.2 hnew hmore
    refine ⟨⟨⟨name.name, _⟩, e', _⟩ :: as', ?_,
      .namedCons hid.spendsId hcolon hderives (hseen _ List.mem_cons_self) hcomma hderives'⟩
    exact congrArg₂ (fun e as => NamedArgument.mk name.unlocated e default :: as) he' has'

theorem derives_variants {vs : List Variant} {ls : List Lexeme} {i j : Input} (h : Spells (.variants vs) ls)
    (hwell : VariantsWellFormed vs) (hspends : i.Spends ls j)
    (hend : j.peek? ≠ some .star ∧ j.peek? ≠ some .openBracket) :
    ∃ vs', unlocatedVariants vs' = unlocatedVariants vs ∧ Derives m i (.variants vs') j := by
  match vs, h with
  | [], .variantsEnd =>
    obtain rfl := hspends.eq
    exact ⟨[], rfl, .variantsEnd hend.1 hend.2⟩
  | v :: vs, .variantsCons hv hvs =>
    obtain ⟨k, hrest, hmore⟩ := hspends.split
    obtain ⟨v', hv', hderives⟩ := derives_variant hv hwell.1 hrest
    obtain ⟨vs', hvs', hderives'⟩ := derives_variants hvs hwell.2 hmore hend
    exact ⟨v' :: vs', congrArg₂ List.cons hv' hvs', .variantsCons hderives hderives'⟩

theorem derives_variant {v : Variant} {ls : List Lexeme} {i j : Input} (h : Spells (.variant v) ls)
    (hwell : v.WellFormed) (hspends : i.Spends ls j) :
    ∃ v' : Variant, v'.unlocated = v.unlocated ∧ Derives m i (.variant v') j := by
  match v, h with
  | ⟨key, value, isDefault, location⟩, .variant hbracket hkey hvalue =>
    obtain ⟨k₁, hfront, hrest⟩ := hspends.split
    obtain ⟨k₂, hmiddle, hrest⟩ := hrest.split
    obtain ⟨k₃, hclosing, hrest⟩ := hrest.first
    obtain ⟨start, hbracket⟩ := hbracket.spends hfront
    obtain ⟨key', hkey', hkey⟩ := hkey.spends (m := m) hmiddle
    obtain ⟨value', hvalue', hderives⟩ := derives_pattern hvalue hwell hrest
    refine ⟨⟨key', value', isDefault, _⟩, ?_, .variant hbracket hkey hclosing hderives⟩
    exact congrArg₂ (fun key value => Variant.mk key value isDefault default) hkey' hvalue'

theorem derives_pattern {p : Pattern} {ls : List Lexeme} {i j : Input} (h : Spells (.pattern (some p)) ls)
    (hwell : p.WellFormed) (hspends : i.Spends ls j) :
    ∃ p' : Pattern, p'.unlocated = p.unlocated ∧ Derives m i (.pattern (some p')) j := by
  match p, h with
  | ⟨es, location⟩, .pattern hes =>
    obtain ⟨k, hmarker, hrest⟩ := hspends.first
    obtain ⟨hne, helements⟩ := hwell
    obtain ⟨es', hes', hderives⟩ := derives_elements hes helements hrest
    cases es' with
    | nil => exact absurd (unlocatedElements_eq_nil.1 hes'.symm) hne
    | cons e' es' =>
      exact ⟨⟨e' :: es', _⟩, congrArg (Pattern.mk · default) hes', .pattern hmarker hderives rfl⟩

/-- The elements of a pattern are derived one after the other, with the end of the pattern behind them. -/
theorem derives_elements {es : List PatternElement} {ls : List Lexeme} {i j : Input}
    (h : Spells (.elements es) ls) (hwell : ElementsWellFormed es) (hspends : i.Spends ls j) :
    ∃ es', unlocatedElements es' = unlocatedElements es ∧ Derives m i (.elements es') j := by
  match es, h with
  | [], .elementsEnd => exact ⟨[], rfl, .elementsEnd hspends⟩
  | .text chunk :: es, .elementsText hes =>
    obtain ⟨k, htext, hrest⟩ := hspends.first
    obtain ⟨es', hes', hderives⟩ := derives_elements hes hwell.2 hrest
    refine ⟨.text ⟨chunk.value, _⟩ :: es', ?_, .elementsText htext hderives⟩
    exact congrArg (PatternElement.text ⟨chunk.value, default⟩ :: ·) hes'
  | .placeable p :: es, .elementsPlaceable hp hes =>
    obtain ⟨k, hrest, hmore⟩ := hspends.split
    obtain ⟨p', hp', hderives⟩ := derives_placeable hp hwell.1 hrest
    obtain ⟨es', hes', hderives'⟩ := derives_elements hes hwell.2 hmore
    refine ⟨.placeable p' :: es', ?_, .elementsPlaceable hderives hderives'⟩
    exact congrArg₂ (fun p es => PatternElement.placeable p :: es) hp' hes'

end

/-- The value of an entry, which a message need not have. -/
theorem derives_value {p : Option Pattern} {ls : List Lexeme} {i j : Input} (h : Spells (.pattern p) ls)
    (hwell : ∀ q, p = some q → q.WellFormed) (hspends : i.Spends ls j) :
    ∃ p' : Option Pattern, p'.map Pattern.unlocated = p.map Pattern.unlocated ∧ Derives m i (.pattern p') j := by
  cases p with
  | none =>
    cases h with
    | noPattern => exact ⟨none, rfl, .noPattern hspends⟩
  | some p =>
    obtain ⟨p', hp', hderives⟩ := h.derives_pattern (hwell p rfl) hspends
    exact ⟨some p', congrArg some hp', hderives⟩

theorem derives_oneAttribute {a : Attribute} {ls : List Lexeme} (h : Spells (.oneAttribute a) ls)
    (hwell : a.value.WellFormed) (hspends : i.Spends ls j) :
    ∃ a' : Attribute, a'.unlocated = a.unlocated ∧ Derives m i (.oneAttribute a') j := by
  cases h with
  | @oneAttribute a dot span equals ls hvalue =>
    obtain ⟨k₁, hdot, hrest⟩ := hspends.first
    obtain ⟨k₂, hid, hrest⟩ := hrest.first
    obtain ⟨k₃, hequals, hrest⟩ := hrest.first
    obtain ⟨value', hvalue', hderives⟩ := hvalue.derives_pattern hwell hrest
    refine ⟨⟨⟨a.id.name, _⟩, value', _⟩, ?_, .oneAttribute hdot hid.spendsId hequals hderives⟩
    exact congrArg (Attribute.mk a.id.unlocated · default) hvalue'

/-- The attributes of an entry are derived one after the other, where no dot stands behind the last of them. -/
theorem derives_attributes {as : List Attribute} {ls : List Lexeme} (h : Spells (.attributes as) ls)
    (hwell : ∀ a ∈ as, a.value.WellFormed) (hspends : i.Spends ls j) (hend : j.peek? ≠ some .dot) :
    ∃ as' : List Attribute, as'.map Attribute.unlocated = as.map Attribute.unlocated ∧
      Derives m i (.attributes as') j := by
  induction as generalizing i ls with
  | nil =>
    cases h with
    | attributesEnd =>
      obtain rfl := hspends.eq
      exact ⟨[], rfl, .attributesEnd hend⟩
  | cons a as ih =>
    cases h with
    | attributesCons ha has =>
      obtain ⟨hvalue, hvalues⟩ := List.forall_mem_cons.1 hwell
      obtain ⟨k, hrest, hmore⟩ := hspends.split
      obtain ⟨a', ha', hderives⟩ := ha.derives_oneAttribute hvalue hrest
      obtain ⟨as', has', hderives'⟩ := ih has hvalues hmore
      exact ⟨a' :: as', congrArg₂ List.cons ha' has', .attributesCons hderives hderives'⟩

end Spells

/-! ## Entries -/

/-- The tokens that spell a message or a term, its comment apart. Spans are left open but for those that have to touch,
so this covers every layout of the entry. -/
inductive Entry.SpelledBy : Entry → List Lexeme → Prop
  | message {msg : Message} {span equals : Span} {ls ms : List Lexeme} : Spells (.pattern msg.value) ls →
      Spells (.attributes msg.attributes) ms →
      SpelledBy (.message msg) (⟨.identifier msg.id.name, span⟩ :: ⟨.equals, equals⟩ :: (ls ++ ms))
  | term {t : Term} {minus span equals : Span} {ls ms : List Lexeme} : Spells (.pattern (some t.value)) ls →
      Spells (.attributes t.attributes) ms →
      SpelledBy (.term t)
        (⟨.minus, minus⟩ :: ⟨.identifier t.id.name, span⟩ :: ⟨.equals, equals⟩ :: (ls ++ ms))

/-- The tokens in front of an entry that spell its comment, one for each line; none where it has none. -/
inductive SpellsDoc : Option Comment → List Lexeme → Prop
  | none : SpellsDoc none []
  | some {c : Comment} {contents : List String} {l close : Lexeme} {ls : List Lexeme} : c.level = .comment →
      (l :: ls).map (·.token) = contents.map (Token.comment .comment) →
      c.content = "\n".intercalate contents → close.token = .closeComment →
      SpellsDoc (some c) (l :: (ls ++ [close]))

/-- **The tokens of an entry are read as the entry**, but for locations, wherever they stand. The comment is not among
them, so the entry is read without it. -/
theorem Entry.SpelledBy.read {f : Fence} {e : Entry} {ls : List Lexeme} (h : e.SpelledBy ls)
    (hwell : e.WellFormed) (r : Nat) :
    ∃ e', entry f ⟨ls, r⟩ = .ok e' ∧ e'.unlocated = e.undocumented.unlocated := by
  have hall : Input.Spends ⟨ls, r⟩ ls ⟨[], readThrough r ls⟩ := ⟨(List.append_nil ls).symm, rfl⟩
  have hend : Input.peek? ⟨[], readThrough r ls⟩ ≠ some .dot := nofun
  cases h with
  | @message msg span equals ls ms hvalue has =>
    obtain ⟨hcontent, hpattern, hpatterns⟩ := hwell
    obtain ⟨k₁, hid, hrest⟩ := hall.first
    obtain ⟨k₂, hequals, hrest⟩ := hrest.first
    obtain ⟨k₃, hrest, hmore⟩ := hrest.split
    obtain ⟨value', hvalue', hderives⟩ := hvalue.derives_value (m := f.lines) hpattern hrest
    obtain ⟨as', has', hderives'⟩ := has.derives_attributes (m := f.lines) hpatterns hmore hend
    have hcontent' : value' = none → as' ≠ [] := by
      rintro rfl rfl
      have hnone : msg.value = none := Option.map_eq_none_iff.1 hvalue'.symm
      have hnil : msg.attributes = [] := List.map_eq_nil_iff.1 has'.symm
      rcases hcontent with hsome | hcons
      · exact hsome hnone
      · exact hcons hnil
    refine ⟨_, (Entry.Derived.message hid.spendsId hequals hderives hderives' rfl hcontent').read, ?_⟩
    exact congrArg₂ (fun value as => Entry.message ⟨msg.id.unlocated, value, as, none, default⟩) hvalue' has'
  | @term t minus span equals ls ms hvalue has =>
    obtain ⟨hpattern, hpatterns⟩ := hwell
    obtain ⟨k₁, hminus, hrest⟩ := hall.first
    obtain ⟨k₂, hid, hrest⟩ := hrest.first
    obtain ⟨k₃, hequals, hrest⟩ := hrest.first
    obtain ⟨k₄, hrest, hmore⟩ := hrest.split
    obtain ⟨value', hvalue', hderives⟩ := hvalue.derives_pattern (m := f.lines) hpattern hrest
    obtain ⟨as', has', hderives'⟩ := has.derives_attributes (m := f.lines) hpatterns hmore hend
    refine ⟨_, (Entry.Derived.term hminus hid.spendsId hequals hderives hderives' rfl).read, ?_⟩
    exact congrArg₂ (fun value as => Entry.term ⟨t.id.unlocated, value, as, none, default⟩) hvalue' has'

/-- The tokens of an entry begin with a name or a dash. -/
theorem Entry.SpelledBy.opensEntry {e : Entry} {l : Lexeme} {ls : List Lexeme} (h : e.SpelledBy (l :: ls)) :
    l.token.opensEntry = true := by
  cases h <;> rfl

theorem token_of_contents {contents : List String} {ls : List Lexeme}
    (h : ls.map (·.token) = contents.map (Token.comment .comment)) :
    ∀ m ∈ ls, ∃ content, m.token = .comment .comment content := by
  intro m hm
  have htoken : m.token ∈ ls.map (·.token) := List.mem_map.2 ⟨m, hm, rfl⟩
  rw [h] at htoken
  obtain ⟨content, -, hcontent⟩ := List.mem_map.1 htoken
  exact ⟨content, hcontent.symm⟩

/-- The comment that its tokens make. -/
theorem joinComment_of_contents {s : Source} {contents : List String} {l : Lexeme} {ls : List Lexeme}
    (h : (l :: ls).map (·.token) = contents.map (Token.comment .comment)) :
    (joinComment s l ls).level = .comment ∧ (joinComment s l ls).content = "\n".intercalate contents := by
  have hparts : (l :: ls).filterMap commentPart? = contents.map (CommentLevel.comment, ·) := by
    generalize l :: ls = ms at h
    induction ms generalizing contents with
    | nil =>
      obtain rfl := List.map_eq_nil_iff.1 h.symm
      rfl
    | cons m ms ih =>
      cases contents with
      | nil => cases h
      | cons content contents =>
        obtain ⟨hm, hms⟩ := List.cons.inj h
        have hpart : commentPart? m = some (.comment, content) := by
          rw [commentPart?, show m.token = .comment .comment content from hm]
        rw [List.filterMap_cons, hpart]
        simp only
        rw [ih hms, List.map_cons]
  refine ⟨level_joinComment (token_of_contents h), ?_⟩
  rw [joinComment]
  simp only
  rw [hparts, List.map_map]
  simp [Function.comp_def]

theorem fromFence_eq_nil {s : Source} {ls : List Lexeme} (h : ∀ m ∈ ls, isFence s m = false) :
    fromFence s ls = [] := by
  have happend : fromFence s (ls ++ []) = fromFence s [] := fromFence_append h
  rw [List.append_nil] at happend
  rw [happend]
  rfl

theorem beforeFence_eq_self {s : Source} {ls : List Lexeme} (h : ∀ m ∈ ls, isFence s m = false) :
    beforeFence s ls = ls := by
  have happend : beforeFence s (ls ++ []) = ls ++ beforeFence s [] := beforeFence_append h
  rw [List.append_nil] at happend
  rw [happend]
  exact List.append_nil ls

/-- An entry that is documented agrees with one that agrees with it but for its comment. -/
theorem Entry.unlocated_document {e e' : Entry} {c c' : Comment} (h : e'.unlocated = e.undocumented.unlocated)
    (hdoc : e.doc? = some c) (hc : c'.unlocated = c.unlocated) : (e'.document c').unlocated = e.unlocated := by
  cases e with
  | message msg =>
    cases e' with
    | message msg' =>
      simp only [unlocated, undocumented, relocate, message.injEq, Message.relocate, Message.mk.injEq, doc?] at h hdoc
      obtain ⟨hid, hvalue, has, -⟩ := h
      rw [Comment.unlocated, Comment.unlocated] at hc
      simp only [document, unlocated, relocate, Message.relocate, hid, hvalue, has, hdoc, Option.map_some, hc]
      rfl
    | _ => cases h
  | term t =>
    cases e' with
    | term t' =>
      simp only [unlocated, undocumented, relocate, term.injEq, Term.relocate, Term.mk.injEq, doc?] at h hdoc
      obtain ⟨hid, hvalue, has, -⟩ := h
      rw [Comment.unlocated, Comment.unlocated] at hc
      simp only [document, unlocated, relocate, Term.relocate, hid, hvalue, has, hdoc, Option.map_some, hc]
      rfl
    | _ => cases h
  | comment _ => cases hdoc
  | junk _ => cases hdoc

theorem Entry.undocumented_of_doc {e : Entry} (h : e.doc? = none) : e.undocumented = e := by
  cases e with
  | message msg => exact congrArg message (by rw [← show msg.comment = none from h])
  | term t => exact congrArg term (by rw [← show t.comment = none from h])
  | comment _ => rfl
  | junk _ => rfl

/-- The body of the tokens of an entry, its comment in front. -/
theorem body_of_spelled {s : Source} {e : Entry} {doc ls : List Lexeme} {l : Lexeme} (hwell : e.WellFormed)
    (hdoc : SpellsDoc e.doc? doc) (hspelled : e.SpelledBy (l :: ls)) (hfence : ∀ m ∈ ls, isFence s m = false) :
    ∃ e', body s (doc ++ l :: ls) = [e'] ∧ e'.unlocated = e.unlocated := by
  obtain ⟨e', hread, hequal⟩ := hspelled.read (f := fenceAt s []) hwell 0
  have hentry : fencedEntry s l ls = .ok e' := by
    rw [fencedEntry, fromFence_eq_nil hfence, beforeFence_eq_self hfence, hread]
  have hopens := hspelled.opensEntry
  generalize hd : e.doc? = d at hdoc
  cases hdoc with
  | none =>
    refine ⟨e', ?_, ?_⟩
    · have hitem : item s l ls = ([e'], []) := by
        obtain ⟨k, span⟩ := l
        cases k with
        | identifier _ | minus => simp only [item, entryOrJunk, hentry, fromFence_eq_nil hfence]
        | _ => cases hopens
      rw [List.nil_append, body, hitem]
      simp only
      rw [body, List.append_nil]
    · rw [hequal, Entry.undocumented_of_doc hd]
  | @some c contents m close ms hlevel htokens hcontent hclose =>
    obtain ⟨hlevel', hcontent'⟩ := joinComment_of_contents (s := s) htokens
    have hitem : item s m (ms ++ close :: l :: ls) = ([e'.document (joinComment s m ms)], []) := by
      rw [item_comment (l :: ls) (token_of_contents htokens) hclose]
      simp only
      rw [if_pos ⟨hlevel', hopens⟩, documentedEntry, hentry, fromFence_eq_nil hfence]
    refine ⟨e'.document (joinComment s m ms), ?_, ?_⟩
    · rw [List.cons_append, List.append_assoc, List.singleton_append, body, hitem]
      simp only
      rw [body, List.append_nil]
    · refine Entry.unlocated_document hequal hd ?_
      rw [Comment.unlocated, Comment.unlocated, Comment.relocate, Comment.relocate, hlevel', hcontent', hlevel, hcontent]
      rfl

/-- One entry whose attributes have different names is rejected under no policy. -/
theorem rejectDuplicates_singleton {s : Source} {e : Entry} (h : (e.attributes.map (·.id.name)).Nodup) :
    rejectDuplicates s [] [e] = [e] := by
  cases e with
  | message m =>
    have hnone := repeatedAttribute?_eq_none.2 ⟨h, fun _ _ => List.not_mem_nil⟩
    simp [rejectDuplicates, duplicate?, show repeatedAttribute? [] m.attributes = none from hnone]
  | term t =>
    have hnone := repeatedAttribute?_eq_none.2 ⟨h, fun _ _ => List.not_mem_nil⟩
    simp [rejectDuplicates, duplicate?, show repeatedAttribute? [] t.attributes = none from hnone]
  | comment _ => rfl
  | junk _ => rfl

/-- **Reading is complete for the grammar.** The tokens of a well-formed message or term, in any of the ways
to spell it and behind those of its comment, are read as this entry alone, but for locations. No token after
the first of the entry may begin an item at a line start; only a policy that rejects duplicates asks for
attributes of different names. -/
theorem parse_complete (o : ParseOptions) (source : String) {e : Entry} {doc ls : List Lexeme} {l : Lexeme}
    (hwell : e.WellFormed) (hdoc : SpellsDoc e.doc? doc) (hspelled : e.SpelledBy (l :: ls))
    (hfence : ∀ m ∈ ls, isFence (.ofString source) m = false)
    (hnames : o.duplicates = .reject → (e.attributes.map (·.id.name)).Nodup) :
    ∃ e', (parseTokens o (.ofString source) (doc ++ l :: ls)).body = [e'] ∧ e'.unlocated = e.unlocated := by
  obtain ⟨e', hbody, hequal⟩ := body_of_spelled hwell hdoc hspelled hfence
  refine ⟨e', ?_, hequal⟩
  rw [parseTokens]
  simp only
  cases hpolicy : o.duplicates with
  | preserve => exact hbody
  | reject =>
    rw [bodyUnder, hbody]
    refine rejectDuplicates_singleton ?_
    rw [← e'.attributeNames_unlocated, hequal, Entry.attributeNames_unlocated]
    exact hnames hpolicy

/-- A call with an accessor, a named argument and a comma behind it, under a comment. -/
def documentedCall : Entry :=
  .message ⟨⟨"m", default⟩,
    some ⟨[.placeable ⟨.functionRef ⟨"F", default⟩
      ⟨[.termRef ⟨"b", default⟩ (some ⟨"c", default⟩) none default],
        [⟨⟨"k", default⟩, .string "x" "x" default, default⟩], default⟩ default, default⟩], default⟩,
    [], some ⟨.comment, "d", default⟩, default⟩

/-- The tokens of `m = { F(-b.c k: "x",) }` behind a line. -/
def documentedCallTokens : List Lexeme :=
  [⟨.equals, ⟨6, 7⟩⟩, ⟨.patternStart, ⟨8, 8⟩⟩, ⟨.openBrace, ⟨8, 9⟩⟩, ⟨.identifier "F", ⟨10, 11⟩⟩,
    ⟨.openParen, ⟨11, 12⟩⟩, ⟨.minus, ⟨12, 13⟩⟩, ⟨.identifier "b", ⟨13, 14⟩⟩, ⟨.dot, ⟨14, 15⟩⟩,
    ⟨.identifier "c", ⟨15, 16⟩⟩, ⟨.endPositional, ⟨17, 17⟩⟩, ⟨.identifier "k", ⟨17, 18⟩⟩, ⟨.colon, ⟨18, 19⟩⟩,
    ⟨.string "x", ⟨20, 23⟩⟩, ⟨.comma, ⟨23, 24⟩⟩, ⟨.closeParen, ⟨24, 25⟩⟩, ⟨.closeBrace, ⟨26, 27⟩⟩,
    ⟨.patternEnd, ⟨27, 27⟩⟩]

/-- A comma behind the last named argument, and none behind the last positional one, are read over. -/
theorem parse_complete_documentedCall :
    documentedCall.WellFormed ∧
      SpellsDoc documentedCall.doc? [⟨.comment .comment "d", ⟨0, 3⟩⟩, ⟨.closeComment, ⟨4, 4⟩⟩] ∧
      documentedCall.SpelledBy (⟨.identifier "m", ⟨4, 5⟩⟩ :: documentedCallTokens) ∧
      (∀ m ∈ documentedCallTokens,
        isFence (.ofString "# d\nm = \x7b F(-b.c k: \"x\",) \x7d") m = false) ∧
      (documentedCall.attributes.map (·.id.name)).Nodup ∧
      ∃ e', (parseTokens ⟨.reject, 100⟩ (.ofString "# d\nm = \x7b F(-b.c k: \"x\",) \x7d")
          ([⟨.comment .comment "d", ⟨0, 3⟩⟩, ⟨.closeComment, ⟨4, 4⟩⟩] ++
            ⟨.identifier "m", ⟨4, 5⟩⟩ :: documentedCallTokens)).body = [e'] ∧
        e'.unlocated = documentedCall.unlocated := by
  have hwell : documentedCall.WellFormed := by
    refine ⟨.inl nofun, ?_, nofun⟩
    rintro q ⟨⟩
    have hstring : Text.unescape 1 ['x'] = .ok ['x'] := by decide +kernel
    exact ⟨nofun, ⟨⟨⟨'F', [], by decide, by decide, nofun⟩, ⟨trivial, trivial⟩, ⟨hstring, trivial⟩, by decide⟩,
      rfl⟩, trivial⟩
  have hdoc : SpellsDoc documentedCall.doc? [⟨.comment .comment "d", ⟨0, 3⟩⟩, ⟨.closeComment, ⟨4, 4⟩⟩] := by
    have hcontents : [Token.comment .comment "d"] = ["d"].map (Token.comment .comment) := rfl
    have hjoin : "d" = "\n".intercalate ["d"] := rfl
    exact @SpellsDoc.some ⟨.comment, "d", default⟩ ["d"] ⟨.comment .comment "d", ⟨0, 3⟩⟩
      ⟨.closeComment, ⟨4, 4⟩⟩ [] rfl hcontents hjoin rfl
  have hspelled : documentedCall.SpelledBy (⟨.identifier "m", ⟨4, 5⟩⟩ :: documentedCallTokens) := by
    have haccessor : SpellsAccessor 14 (some ⟨"c", default⟩)
        [⟨.dot, ⟨14, 15⟩⟩, ⟨.identifier "c", ⟨15, 16⟩⟩] := .some rfl rfl
    have hterm : Spells (.inline (.termRef ⟨"b", default⟩ (some ⟨"c", default⟩) none default))
        [⟨.minus, ⟨12, 13⟩⟩, ⟨.identifier "b", ⟨13, 14⟩⟩, ⟨.dot, ⟨14, 15⟩⟩, ⟨.identifier "c", ⟨15, 16⟩⟩] :=
      .term rfl haccessor
    have hstring : Spells (.inline (.string "x" "x" default)) [⟨.string "x", ⟨20, 23⟩⟩] := .string
    have hnamed : Spells (.named [] [⟨⟨"k", default⟩, .string "x" "x" default, default⟩] ⟨24, 25⟩)
        [⟨.identifier "k", ⟨17, 18⟩⟩, ⟨.colon, ⟨18, 19⟩⟩, ⟨.string "x", ⟨20, 23⟩⟩, ⟨.comma, ⟨23, 24⟩⟩,
          ⟨.closeParen, ⟨24, 25⟩⟩] := .namedCons hstring .namedEnd
    have harguments : Spells (.arguments ⟨_, _, default⟩) (⟨.openParen, ⟨11, 12⟩⟩ :: (_ ++ _)) :=
      .arguments (@Spells.positionalLast _ ⟨17, 17⟩ _ hterm) hnamed
    have hcall : Spells (.inline (.functionRef ⟨"F", default⟩ _ default)) (⟨.identifier "F", ⟨10, 11⟩⟩ :: _) :=
      .function harguments
    have hplaceable : Spells (.placeable ⟨_, default⟩)
        (⟨.openBrace, ⟨8, 9⟩⟩ :: (_ ++ [⟨.closeBrace, ⟨26, 27⟩⟩])) :=
      .placeable hcall
    have hpattern : Spells (.pattern (some ⟨_, default⟩)) (⟨.patternStart, ⟨8, 8⟩⟩ :: _) :=
      .pattern (.elementsPlaceable hplaceable (@Spells.elementsEnd ⟨27, 27⟩))
    exact @Entry.SpelledBy.message ⟨⟨"m", default⟩, _, [], _, default⟩ ⟨4, 5⟩ ⟨6, 7⟩ _ _ hpattern .attributesEnd
  have hfence : ∀ m ∈ documentedCallTokens,
      isFence (.ofString "# d\nm = \x7b F(-b.c k: \"x\",) \x7d") m = false := by decide +kernel
  have hnames : (documentedCall.attributes.map (·.id.name)).Nodup := List.nodup_nil
  exact ⟨hwell, hdoc, hspelled, hfence, hnames,
    parse_complete ⟨.reject, 100⟩ _ hwell hdoc hspelled hfence fun _ => hnames⟩

end Fluent
