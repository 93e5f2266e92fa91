import Fluent.Proofs.Grouping
import Fluent.Proofs.Phrase

/-!
# Entries stand for their tokens

An entry written out in the order of the grammar gives back the tokens that it was read from. Only commas
are missing, since a tree does not say whether one stood in front of what ends a list.

* `Message.tokens`, `Term.tokens`: an entry as tokens.
* `Message.WellFormed`, `Term.WellFormed`: what the grammar asks for beyond the order of tokens.
* `Derives.writes`, `Derives.wellFormed`: what is derived spends its own tokens and is well-formed.
* `parse_sound`: the messages and terms of a resource spell the tokens of entry blocks.
-/

namespace Fluent

/-! ## Trees as tokens -/

def accessorTokens : Option Identifier → List Token
  | none => []
  | some id => [.dot, .identifier id.name]

def VariantKey.token : VariantKey → Token
  | identifier id => .identifier id.name
  | number literal => .number literal.raw

mutual

def Expression.tokens : Expression → List Token
  | .string _ raw _ => [.string raw]
  | .number literal => [.number literal.raw]
  | .variableRef id _ => [.dollar, .identifier id.name]
  | .messageRef id accessor _ => .identifier id.name :: accessorTokens accessor
  | .termRef id accessor arguments _ =>
    .minus :: .identifier id.name :: (accessorTokens accessor
      ++ match arguments with
        | none => []
        | some a => a.tokens)
  | .functionRef id arguments _ => .identifier id.name :: arguments.tokens
  | .select selector variants _ => selector.tokens ++ .arrow :: variantsTokens variants
  | .placeable inner => inner.tokens

def Placeable.tokens : Placeable → List Token
  | ⟨e, _⟩ => .openBrace :: (e.tokens ++ [.closeBrace])

def CallArguments.tokens : CallArguments → List Token
  | ⟨positional, named, _⟩ =>
    .openParen :: (positionalTokens positional ++ .endPositional :: (namedTokens named ++ [.closeParen]))

def positionalTokens : List Expression → List Token
  | [] => []
  | e :: es => e.tokens ++ positionalTokens es

def namedTokens : List NamedArgument → List Token
  | [] => []
  | a :: as => a.tokens ++ namedTokens as

def NamedArgument.tokens : NamedArgument → List Token
  | ⟨name, value, _⟩ => .identifier name.name :: .colon :: value.tokens

def variantsTokens : List Variant → List Token
  | [] => []
  | v :: vs => v.tokens ++ variantsTokens vs

def Variant.tokens : Variant → List Token
  | ⟨key, value, isDefault, _⟩ =>
    (if isDefault then [.star] else []) ++ .openBracket :: key.token :: .closeBracket :: value.tokens

def Pattern.tokens : Pattern → List Token
  | ⟨elements, _⟩ => .patternStart :: (elementsTokens elements ++ [.patternEnd])

def elementsTokens : List PatternElement → List Token
  | [] => []
  | e :: es => e.tokens ++ elementsTokens es

def PatternElement.tokens : PatternElement → List Token
  | .text chunk => [.pureText chunk.value]
  | .placeable inner => inner.tokens

end

/-- A value, or the mark of a missing one. -/
def valueTokens : Option Pattern → List Token
  | none => [.patternSkip]
  | some p => p.tokens

def Attribute.tokens (a : Attribute) : List Token :=
  .dot :: .identifier a.id.name :: .equals :: a.value.tokens

def Message.tokens (m : Message) : List Token :=
  .identifier m.id.name :: .equals :: (valueTokens m.value ++ m.attributes.flatMap Attribute.tokens)

def Term.tokens (t : Term) : List Token :=
  .minus :: .identifier t.id.name :: .equals :: (t.value.tokens ++ t.attributes.flatMap Attribute.tokens)

/-! ## Side conditions -/

/-- A capital letter, and then capitals, digits, underscores and dashes. -/
def FunctionName (name : String) : Prop :=
  ∃ c cs, name.toList = c :: cs ∧ ('A' ≤ c ∧ c ≤ 'Z') ∧
    ∀ d ∈ cs, ('A' ≤ d ∧ d ≤ 'Z') ∨ ('0' ≤ d ∧ d ≤ '9') ∨ d = '_' ∨ d = '-'

/-- Exactly one of some variants is the default. The grammar of tokens leaves this open, and it is checked once all
variants are read. -/
def OneDefault (variants : List Variant) : Prop := (variants.filter (·.isDefault)).length = 1

mutual

/-- An expression that can stand anywhere; a select expression cannot. With the definitions below it says what the
grammar asks of a tree beyond its tokens: names of functions, values of string literals, selectors, one default, no name
twice among named arguments. -/
def Expression.WellFormed : Expression → Prop
  | .string value raw location => Text.unescape (location.span.start + 1) raw.toList = .ok value.toList
  | .number _ | .variableRef .. | .messageRef .. => True
  | .termRef _ _ arguments _ =>
    match arguments with
    | none => True
    | some a => a.WellFormed
  | .functionRef id arguments _ => FunctionName id.name ∧ arguments.WellFormed
  | .select .. => False
  | .placeable inner => inner.WellFormed

def Placeable.WellFormed : Placeable → Prop
  | ⟨.select selector variants _, _⟩ =>
    selector.WellFormed ∧ selector.isSelector = true ∧ OneDefault variants ∧ VariantsWellFormed variants
  | ⟨e, _⟩ => e.WellFormed ∧ e.isTermAttribute = false

def CallArguments.WellFormed : CallArguments → Prop
  | ⟨positional, named, _⟩ =>
    PositionalWellFormed positional ∧ NamedWellFormed named ∧ (named.map (·.name.name)).Nodup

def PositionalWellFormed : List Expression → Prop
  | [] => True
  | e :: es => e.WellFormed ∧ PositionalWellFormed es

def NamedWellFormed : List NamedArgument → Prop
  | [] => True
  | a :: as => a.WellFormed ∧ NamedWellFormed as

def NamedArgument.WellFormed : NamedArgument → Prop
  | ⟨_, value, _⟩ => value.WellFormed

def VariantsWellFormed : List Variant → Prop
  | [] => True
  | v :: vs => v.WellFormed ∧ VariantsWellFormed vs

def Variant.WellFormed : Variant → Prop
  | ⟨_, value, _, _⟩ => value.WellFormed

def Pattern.WellFormed : Pattern → Prop
  | ⟨elements, _⟩ => elements ≠ [] ∧ ElementsWellFormed elements

def ElementsWellFormed : List PatternElement → Prop
  | [] => True
  | e :: es => e.WellFormed ∧ ElementsWellFormed es

def PatternElement.WellFormed : PatternElement → Prop
  | .text _ => True
  | .placeable inner => inner.WellFormed

end

/-- A message has a value or an attribute, and the values of both are well-formed. A term always has a value. -/
def Message.WellFormed (m : Message) : Prop :=
  (m.value ≠ none ∨ m.attributes ≠ []) ∧ (∀ p ∈ m.value, p.WellFormed) ∧
    ∀ a ∈ m.attributes, a.value.WellFormed

def Term.WellFormed (t : Term) : Prop :=
  t.value.WellFormed ∧ ∀ a ∈ t.attributes, a.value.WellFormed

/-! ## What is derived spells its tokens -/

/-- Tokens without the commas among them. -/
def withoutCommas (ls : List Lexeme) : List Token := (ls.map (·.token)).filter (· != .comma)

namespace Input

variable {i j k : Input} {ls : List Lexeme} {ts us : List Token}

/-- Between two inputs stand some tokens, and maybe commas. A comma behind the last argument leaves no trace in the
tree, so commas are left out of account. -/
def Writes (i : Input) (ts : List Token) (j : Input) : Prop :=
  ∃ ls, i.Spends ls j ∧ withoutCommas ls = ts

theorem Writes.refl (i : Input) : i.Writes [] i := ⟨[], .refl i, rfl⟩

theorem Writes.trans (h : i.Writes ts j) (h' : j.Writes us k) : i.Writes (ts ++ us) k := by
  obtain ⟨ls, hls, rfl⟩ := h
  obtain ⟨ms, hms, rfl⟩ := h'
  exact ⟨ls ++ ms, hls.trans hms, by simp [withoutCommas]⟩

theorem Spends.writes (h : i.Spends ls j) : i.Writes (withoutCommas ls) j := ⟨ls, h, rfl⟩

theorem SpendsId.writes {m : LineMap} {id : Identifier} (h : i.SpendsId m id j) :
    i.Writes [.identifier id.name] j := h.1.writes

theorem SpendsNumber.writes {m : LineMap} {n : NumberLiteral} (h : i.SpendsNumber m n j) :
    i.Writes [.number n.raw] j := h.1.writes

theorem SpendsAccessor.writes {m : LineMap} {offset : Nat} {accessor : Option Identifier}
    (h : SpendsAccessor m offset i accessor j) : i.Writes (accessorTokens accessor) j := by
  cases h with
  | none => exact .refl i
  | some hdot _ hid _ => exact hdot.writes.trans hid.writes

theorem SpendsKey.writes {m : LineMap} {key : VariantKey} (h : i.SpendsKey m key j) :
    i.Writes [key.token] j := by
  cases h with
  | identifier hid => exact hid.writes
  | number hn => exact hn.writes

theorem SpendsBracket.writes {isDefault : Bool} {start : Nat} (h : i.SpendsBracket isDefault start j) :
    i.Writes ((if isDefault then [.star] else []) ++ [.openBracket]) j := by
  cases h with
  | plain hbracket => exact hbracket.writes
  | starred hstar hbracket => exact hstar.writes.trans hbracket.writes

end Input

/-- A phrase as tokens, with the token that ends a list. -/
def Phrase.tokens : Phrase → List Token
  | inline e => e.tokens
  | placeable p => p.tokens
  | arguments a => a.tokens
  | positional es => positionalTokens es ++ [.endPositional]
  | named _ as _ => namedTokens as ++ [.closeParen]
  | variants vs => variantsTokens vs
  | variant v => v.tokens
  | pattern p => valueTokens p
  | elements es => elementsTokens es ++ [.patternEnd]
  | oneAttribute a => a.tokens
  | attributes as => as.flatMap Attribute.tokens

variable {m : LineMap} {i j : Input} {p : Phrase}

/-- **What is derived spends the tokens that it is written with**, and commas. -/
theorem Derives.writes (h : Derives m i p j) : i.Writes p.tokens j := by
  -- one case for each rule: what the parts write, one after the other; a comma writes nothing
  induction h with
  | string hs _ => exact hs.writes
  | number hn => exact hn.writes
  | variableRef hdollar hid _ => exact hdollar.writes.trans hid.writes
  | term hminus hid _ hacc _ =>
    have := (hminus.writes.trans hid.writes).trans hacc.writes
    simpa [Phrase.tokens, Expression.tokens, withoutCommas] using this
  | termCall hminus hid _ hacc _ ih =>
    have := ((hminus.writes.trans hid.writes).trans hacc.writes).trans ih
    simpa [Phrase.tokens, Expression.tokens, withoutCommas] using this
  | message hid _ hacc => exact hid.writes.trans hacc.writes
  | function hid _ _ ih => exact hid.writes.trans ih
  | nested _ ih => exact ih
  | select hopening _ harrow _ _ _ hclosing ihe ihvs =>
    have := (((hopening.writes.trans ihe).trans harrow.writes).trans ihvs).trans hclosing.writes
    simpa [Phrase.tokens, Expression.tokens, Placeable.tokens, withoutCommas] using this
  | placeable hopening _ _ hclosing ihe =>
    have := (hopening.writes.trans ihe).trans hclosing.writes
    simpa [Phrase.tokens, Placeable.tokens, withoutCommas] using this
  | arguments hopening _ _ ihes ihas =>
    have := (hopening.writes.trans ihes).trans ihas
    simpa [Phrase.tokens, CallArguments.tokens, withoutCommas] using this
  | positionalEnd hmarker => exact hmarker.writes
  | positionalLast _ hmarker ihe =>
    have := ihe.trans hmarker.writes
    simpa [Phrase.tokens, positionalTokens, withoutCommas] using this
  | positionalCons _ hcomma _ ihe ihes =>
    have := (ihe.trans hcomma.writes).trans ihes
    simpa [Phrase.tokens, positionalTokens, withoutCommas] using this
  | namedEnd hclosing => exact hclosing.writes
  | namedLast hid hcolon _ _ hclosing ihe =>
    have := ((hid.writes.trans hcolon.writes).trans ihe).trans hclosing.writes
    simpa [Phrase.tokens, namedTokens, NamedArgument.tokens, withoutCommas] using this
  | namedCons hid hcolon _ _ hcomma _ ihe ihas =>
    have := (((hid.writes.trans hcolon.writes).trans ihe).trans hcomma.writes).trans ihas
    simpa [Phrase.tokens, namedTokens, NamedArgument.tokens, withoutCommas] using this
  | variantsEnd _ _ => exact .refl _
  | variantsCons _ _ ihv ihvs => exact ihv.trans ihvs
  | variant hbracket hkey hclosing _ ih =>
    have := ((hbracket.writes.trans hkey.writes).trans hclosing.writes).trans ih
    simpa [Phrase.tokens, Variant.tokens, valueTokens, withoutCommas] using this
  | noPattern hmarker => exact hmarker.writes
  | pattern hmarker _ _ ih => exact hmarker.writes.trans ih
  | elementsEnd hmarker => exact hmarker.writes
  | elementsText htext _ ih => exact htext.writes.trans ih
  | elementsPlaceable _ _ ihp ihes =>
    have := ihp.trans ihes
    simpa [Phrase.tokens, elementsTokens, PatternElement.tokens] using this
  | oneAttribute hdot hid hequals _ ih =>
    have := ((hdot.writes.trans hid.writes).trans hequals.writes).trans ih
    simpa [Phrase.tokens, Attribute.tokens, valueTokens, withoutCommas] using this
  | attributesEnd _ => exact .refl _
  | attributesCons _ _ iha ihas => exact iha.trans ihas

/-! ## What is derived is well-formed -/

/-- What the grammar asks of a phrase beyond its tokens. For named arguments this includes that no name among them was
read before. -/
def Phrase.WellFormed : Phrase → Prop
  | inline e => e.WellFormed
  | placeable p => p.WellFormed
  | arguments a => a.WellFormed
  | positional es => PositionalWellFormed es
  | named seen as _ =>
    NamedWellFormed as ∧ (as.map (·.name.name)).Nodup ∧ ∀ a ∈ as, a.name.name ∉ seen
  | variants vs => VariantsWellFormed vs
  | variant v => v.WellFormed
  | pattern p => ∀ q ∈ p, q.WellFormed
  | elements es => ElementsWellFormed es
  | oneAttribute a => a.value.WellFormed
  | attributes as => ∀ a ∈ as, a.value.WellFormed

theorem functionName_of_isFunctionName {name : String} (h : isFunctionName name = true) :
    FunctionName name := by
  unfold isFunctionName at h
  split at h
  · simp at h
  · rename_i c cs hname
    rw [Bool.and_eq_true, List.all_eq_true] at h
    refine ⟨c, cs, hname, ?_, ?_⟩
    · simpa [Char.isUpper, Char.le_def] using h.1
    · intro d hd
      have := h.2 d hd
      simp only [Bool.or_eq_true, beq_iff_eq, Char.isUpper, Char.isDigit, Bool.and_eq_true, decide_eq_true_eq]
        at this
      rcases this with ((hupper | hdigit) | hunderscore) | hdash
      · exact .inl hupper
      · exact .inr (.inl hdigit)
      · exact .inr (.inr (.inl hunderscore))
      · exact .inr (.inr (.inr hdash))

/-- Outside a select expression, what can be placed in a text is well-formed as it stands. -/
theorem Placeable.wellFormed_of_placed {e : Expression} {location : Location} (he : e.WellFormed)
    (hplaced : checkPlaced e = .ok ()) : Placeable.WellFormed ⟨e, location⟩ := by
  have hattribute : e.isTermAttribute = false := by
    by_contra hattribute
    rw [checkPlaced_eq, if_pos (by simpa using hattribute)] at hplaced
    cases hplaced
  cases e with
  | select => exact he.elim
  | _ => exact ⟨he, hattribute⟩

/-- **What is derived is well-formed.** -/
theorem Derives.wellFormed (h : Derives m i p j) : p.WellFormed := by
  induction h with
  | string _ hvalue =>
    show Text.unescape _ _ = _
    rw [String.toList_ofList]
    exact hvalue
  | number _ => trivial
  | variableRef _ _ _ => trivial
  | term _ _ _ _ _ => trivial
  | termCall _ _ _ _ _ ih => exact ih
  | message _ _ _ => trivial
  | function _ hname _ ih => exact ⟨functionName_of_isFunctionName hname, ih⟩
  | nested _ ih => exact ih
  | select _ _ _ hselector _ hdefault _ ihe ihvs => exact ⟨ihe, hselector, hdefault, ihvs⟩
  | placeable _ _ hplaced _ ihe => exact Placeable.wellFormed_of_placed ihe hplaced
  | arguments _ _ _ ihes ihas => exact ⟨ihes, ihas.1, ihas.2.1⟩
  | positionalEnd _ => trivial
  | positionalLast _ _ ihe => exact ⟨ihe, trivial⟩
  | positionalCons _ _ _ ihe ihes => exact ⟨ihe, ihes⟩
  | namedEnd _ => exact ⟨trivial, List.nodup_nil, by simp⟩
  | namedLast _ _ _ hseen _ ihe => exact ⟨⟨ihe, trivial⟩, by simp, by simpa using hseen⟩
  | namedCons _ _ _ hseen _ _ ihe ihas =>
    -- the names after this one have been checked against it too
    obtain ⟨hvalues, hnodup, hnew⟩ := ihas
    refine ⟨⟨ihe, hvalues⟩, ?_, ?_⟩
    · rw [List.map_cons, List.nodup_cons]
      refine ⟨?_, hnodup⟩
      intro hmem
      obtain ⟨a, ha, hname⟩ := List.mem_map.1 hmem
      exact hnew a ha (hname ▸ List.mem_cons_self)
    · intro a ha
      rcases List.mem_cons.1 ha with rfl | ha
      · exact hseen
      · exact fun hmem => hnew a ha (List.mem_cons_of_mem _ hmem)
  | variantsEnd _ _ => trivial
  | variantsCons _ _ ihv ihvs => exact ⟨ihv, ihvs⟩
  | variant _ _ _ _ ih => exact ih _ rfl
  | noPattern _ => exact fun q hq => by simp at hq
  | pattern _ _ hlocation ih =>
    -- without elements there is nothing to take a bounding box of
    rintro q ⟨⟩
    refine ⟨?_, ih⟩
    rintro rfl
    cases hlocation
  | elementsEnd _ => trivial
  | elementsText _ _ ih => exact ⟨trivial, ih⟩
  | elementsPlaceable _ _ ihp ihes => exact ⟨ihp, ihes⟩
  | oneAttribute _ _ _ _ ih => exact ih _ rfl
  | attributesEnd _ => exact fun a ha => by simp at ha
  | attributesCons _ _ iha ihas => exact List.forall_mem_cons.2 ⟨iha, ihas⟩

/-! ## Entries -/

def Entry.tokens : Entry → List Token
  | message m => m.tokens
  | term t => t.tokens
  | _ => []

def Entry.WellFormed : Entry → Prop
  | message m => m.WellFormed
  | term t => t.WellFormed
  | _ => False

/-- **An entry that is read spells all its tokens** and is well-formed; it extends from its first token to
the end of the last one that stands for source text. -/
theorem Entry.Derived.spells {e : Entry} (h : e.Derived m i) :
    withoutCommas i.lexemes = e.tokens ∧ e.WellFormed ∧
      ∃ l ls, i.lexemes = l :: ls ∧
        e.location = m.locate ⟨l.span.start, readThrough i.readTo i.lexemes⟩ := by
  cases h with
  | message hid hequals hvalue has hend hcontent =>
    obtain ⟨ls, hspends, htokens⟩ := ((hid.writes.trans hequals.writes).trans hvalue.writes).trans has.writes
    -- nothing is left behind the attributes, so what was spent is all there was
    have hall : i.lexemes = ls := by rw [hspends.lexemes, hend, List.append_nil]
    rw [hall]
    refine ⟨htokens, ⟨?_, hvalue.wellFormed, has.wellFormed⟩, _, _, hall.symm.trans hid.1.lexemes, ?_⟩
    · by_contra hnone
      push Not at hnone
      exact hcontent hnone.1 hnone.2
    · rw [← hspends.readTo]
      rfl
  | term hminus hid hequals hvalue has hend =>
    obtain ⟨ls, hspends, htokens⟩ :=
      (((hminus.writes.trans hid.writes).trans hequals.writes).trans hvalue.writes).trans has.writes
    have hall : i.lexemes = ls := by rw [hspends.lexemes, hend, List.append_nil]
    rw [hall]
    refine ⟨htokens, ⟨hvalue.wellFormed _ rfl, has.wellFormed⟩, _, _, hall.symm.trans hminus.lexemes, ?_⟩
    rw [← hspends.readTo]
    rfl

theorem Entry.tokens_document (c : Comment) (e : Entry) : (e.document c).tokens = e.tokens := by
  cases e <;> rfl

theorem Entry.wellFormed_document (c : Comment) {e : Entry} (h : e.WellFormed) :
    (e.document c).WellFormed := by
  cases e <;> exact h

theorem Entry.location_document (c : Comment) (e : Entry) : (e.document c).location = e.location := by
  cases e <;> rfl

/-- An entry block that begins at an offset and whose tokens, commas apart, are the given ones. -/
def Block.Spells (b : Block) (start : Nat) (ts : List Token) : Prop :=
  ∃ isTerm name l ls ending, b = .entry isTerm name start (l :: ls) ending ∧ l.span.start = start ∧
    withoutCommas (l :: ls) = ts

theorem blockEntry_spells {s : Source} {l : Lexeme} {ls : List Lexeme} {bs : List Block} {e : Entry}
    (h : blockEntry s l ls bs = .ok e) :
    withoutCommas (l :: ls) = e.tokens ∧ e.WellFormed ∧ e.location.span.start = l.span.start := by
  obtain ⟨htokens, hwell, l', ls', hl, hlocation⟩ := (derived_entry h).spells
  obtain ⟨rfl, -⟩ := List.cons.inj hl
  exact ⟨htokens, hwell, by rw [hlocation]; rfl⟩

/-- An entry block that reads as an entry, a comment in front of it apart: either the entry is as it is read, or a
comment was added to it. -/
def Block.Makes (s : Source) (b : Block) (e : Entry) : Prop :=
  ∃ isTerm name start l ls ending bs e', b = .entry isTerm name start (l :: ls) ending ∧
    blockEntry s l ls bs = .ok e' ∧ (e = e' ∨ ∃ c, e = e'.document c)

/-- Every message and every term comes from a block. -/
theorem Grouped.makes {s : Source} {bs : List Block} {es : List Entry} (h : Grouped s bs es) {e : Entry}
    (he : e ∈ es) (hid : e.id? ≠ none) : ∃ b ∈ bs, b.Makes s e := by
  induction h with
  | nil => simp at he
  | blank _ ih => exact List.exists_mem_cons_of_exists (ih he)
  | stray _ _ ih =>
    rcases List.mem_cons.1 he with rfl | he
    · exact absurd rfl hid
    · obtain ⟨b, hb, hmakes⟩ := ih he
      exact ⟨b, List.mem_cons_of_mem _ (List.mem_append_right _ hb), hmakes⟩
  | comment _ _ ih =>
    rcases List.mem_cons.1 he with rfl | he
    · exact absurd rfl hid
    · exact List.exists_mem_cons_of_exists (ih he)
  | documented _ hok _ ih =>
    rcases List.mem_cons.1 he with rfl | he
    · refine ⟨_, List.mem_cons_of_mem _ List.mem_cons_self, ?_⟩
      exact ⟨_, _, _, _, _, _, _, _, rfl, hok, .inr ⟨_, rfl⟩⟩
    · exact List.exists_mem_cons_of_exists (List.exists_mem_cons_of_exists (ih he))
  | entry hok _ ih =>
    rcases List.mem_cons.1 he with rfl | he
    · exact ⟨_, List.mem_cons_self, _, _, _, _, _, _, _, _, rfl, hok, .inl rfl⟩
    · exact List.exists_mem_cons_of_exists (ih he)
  | broken _ _ ih =>
    rcases List.mem_cons.1 he with rfl | he
    · exact absurd rfl hid
    · exact List.exists_mem_cons_of_exists (ih he)

theorem Laid.fits_of_mem {source : String} {c e : Cursor} {b : Block} {bs : List Block}
    (h : Laid source c bs e) (hb : b ∈ bs) : ∃ offset, b.Fits (.ofString source) offset := by
  induction h with
  | nil => simp at hb
  | cons _ hfits _ _ ih =>
    rcases List.mem_cons.1 hb with rfl | hb
    · exact ⟨_, hfits⟩
    · exact ih hb

/-- **A message or a term of the body** spells one of the blocks. It is well-formed, and its tokens, commas apart, are
those of the block that begins where it does. -/
theorem spells_body (limit : Nat) {source : String} {e : Entry}
    (he : e ∈ body (.ofString source) (tokenize limit source.toList)) (hid : e.id? ≠ none) :
    e.WellFormed ∧ ∃ b ∈ blocks limit source.toList, b.Spells e.location.span.start e.tokens := by
  obtain ⟨d, hlaid⟩ := laid_blocks limit source
  obtain ⟨b, hb, isTerm, name, start, l, ls, ending, bs, e', rfl, hok, hdoc⟩ :=
    (grouped_body limit source).makes he hid
  obtain ⟨offset, rfl, l', ls', hl, -, hstart, -⟩ := hlaid.fits_of_mem hb
  obtain ⟨rfl, rfl⟩ := List.cons.inj hl
  obtain ⟨htokens, hwell, hlocation⟩ := blockEntry_spells hok
  rw [hstart] at hlocation
  rcases hdoc with rfl | ⟨c, rfl⟩
  · exact ⟨hwell, _, hb, isTerm, name, l, ls, ending, by rw [hlocation], by rw [hlocation, hstart], htokens⟩
  · rw [Entry.location_document, Entry.tokens_document]
    refine ⟨Entry.wellFormed_document c hwell, _, hb, isTerm, name, l, ls, ending, ?_, ?_, htokens⟩
    · rw [hlocation]
    · rw [hlocation, hstart]

/-- Rejecting duplicates adds no message and no term. -/
theorem mem_of_mem_rejectDuplicates {s : Source} {seen : List String} {es : List Entry} {e : Entry}
    (h : e ∈ rejectDuplicates s seen es) (hid : e.id? ≠ none) : e ∈ es := by
  -- what stands in for a duplicate is its comment and junk
  have hrejected : ∀ e' comment name span, e ∉ rejected s e' comment name span := by
    intro e' comment name span hmem
    rcases List.mem_append.1 hmem with hmem | hmem
    · obtain ⟨c, -, rfl⟩ : ∃ c, comment = some c ∧ Entry.comment c = e := by simpa using hmem
      exact hid rfl
    · obtain rfl := List.mem_singleton.1 hmem
      exact hid rfl
  fun_induction rejectDuplicates s seen es with
  | case1 => exact h
  | case2 seen m es key ih | case3 seen t es key ih =>
    rcases List.mem_append.1 h with h | h
    · split at h
      · exact List.mem_singleton.1 h ▸ List.mem_cons_self
      · exact absurd h (hrejected _ _ _ _)
    · exact List.mem_cons_of_mem _ (ih h)
  | case4 seen e' es _ _ ih =>
    rcases List.mem_cons.1 h with rfl | h
    · exact List.mem_cons_self
    · exact List.mem_cons_of_mem _ (ih h)

/-- The messages and terms of a resource stand in its body before duplicates are rejected. -/
theorem mem_body_of_mem_parse {o : ParseOptions} {source : String} {e : Entry} (he : e ∈ (parse o source).body)
    (hid : e.id? ≠ none) : e ∈ body (.ofString source) (tokenize o.maxNesting source.toList) := by
  obtain ⟨policy, limit⟩ := o
  cases policy with
  | preserve => exact he
  | reject => exact mem_of_mem_rejectDuplicates he hid

/-- Picking out a kind of entry loses none of them. -/
theorem mem_filterMap_of_iff {α β : Type} {pick : α → Option β} {make : β → α} (h : ∀ a b, pick a = some b ↔ a = make b)
    {as : List α} {b : β} : b ∈ as.filterMap pick ↔ make b ∈ as := by
  simp only [List.mem_filterMap, h, exists_eq_right]

theorem Resource.mem_messages {r : Resource} {m : Message} : m ∈ r.messages ↔ .message m ∈ r.body :=
  mem_filterMap_of_iff fun e _ => by cases e <;> simp [Entry.message?]

theorem Resource.mem_terms {r : Resource} {t : Term} : t ∈ r.terms ↔ .term t ∈ r.body :=
  mem_filterMap_of_iff fun e _ => by cases e <;> simp [Entry.term?]

theorem Resource.mem_comments {r : Resource} {c : Comment} : c ∈ r.comments ↔ .comment c ∈ r.body :=
  mem_filterMap_of_iff fun e _ => by cases e <;> simp [Entry.comment?]

theorem Resource.mem_junk {r : Resource} {j : Junk} : j ∈ r.junk ↔ .junk j ∈ r.body :=
  mem_filterMap_of_iff fun e _ => by cases e <;> simp [Entry.junk?]

/-- **Reading is sound for the grammar.** Every message and every term of a resource is well-formed, and
written out it gives the tokens of an entry block that begins where it does, commas apart. -/
theorem parse_sound (o : ParseOptions) (source : String) :
    (∀ m ∈ (parse o source).messages, m.WellFormed ∧
      ∃ b ∈ blocks o.maxNesting source.toList, b.Spells m.location.span.start m.tokens) ∧
    ∀ t ∈ (parse o source).terms, t.WellFormed ∧
      ∃ b ∈ blocks o.maxNesting source.toList, b.Spells t.location.span.start t.tokens := by
  constructor
  · intro m hm
    have he := Resource.mem_messages.1 hm
    exact spells_body o.maxNesting (mem_body_of_mem_parse he nofun) nofun
  · intro t ht
    have he := Resource.mem_terms.1 ht
    exact spells_body o.maxNesting (mem_body_of_mem_parse he nofun) nofun

end Fluent
