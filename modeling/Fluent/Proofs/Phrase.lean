import Fluent.Grammar.Entry
import Mathlib.Data.List.Basic

/-!
# Phrases

What the functions of the grammar read, as one relation between the tokens before and after. A phrase is a
tree or a list of trees, and `Derives` has a rule for each way to read one.

* `Input.Spends i ls j`: reading `ls` leads from `i` to `j`.
* `Derives m i p j`: between `i` and `j` the grammar finds `p`.
* `derives_inline`, `derives_pattern?`, `derives_attributes`, ...: what each function returns is derived.
* `Entry.Derived`, `derived_entry`: the same for a whole entry.
-/

namespace Fluent

/-! ## Reading tokens -/

/-- The end of the last token that stands for source text, `r` if there is none. -/
def readThrough (r : Nat) (ls : List Lexeme) : Nat :=
  ls.foldl (fun r l => if l.token.isMarker then r else l.span.stop) r

/-- Reading some tokens leads from one input to another: they are the next ones, and what was read last ends where the
last of them does that has text. -/
structure Input.Spends (i : Input) (ls : List Lexeme) (j : Input) : Prop where
  lexemes : i.lexemes = ls ++ j.lexemes
  readTo : j.readTo = readThrough i.readTo ls

namespace Input

variable {i j k : Input} {ls ms : List Lexeme} {l : Lexeme}

theorem Spends.refl (i : Input) : i.Spends [] i := ⟨rfl, rfl⟩

theorem Spends.trans (h : i.Spends ls j) (h' : j.Spends ms k) : i.Spends (ls ++ ms) k := by
  refine ⟨?_, ?_⟩
  · rw [h.lexemes, h'.lexemes, List.append_assoc]
  · rw [h'.readTo, h.readTo, readThrough, readThrough, readThrough, List.foldl_append]

theorem spends_next? {j : Rest i} (h : i.next? = some (l, j)) : i.Spends [l] j.1 := by
  unfold next? at h
  split at h
  · simp at h
  · rename_i m ms hm
    obtain ⟨rfl, rfl⟩ := Prod.mk.inj (Option.some.inj h)
    exact ⟨hm, rfl⟩

/-- The offset of an input is where the first of its tokens starts. -/
theorem Spends.offset_eq {f : Fence} (h : i.Spends (l :: ls) j) : f.offset i = l.span.start := by
  rw [Fence.offset, h.lexemes]
  rfl

theorem exists_next? (h : i.lexemes.head? = some l) : ∃ j, i.next? = some (l, j) := by
  unfold next?
  split
  · rename_i hnil
    simp [hnil] at h
  · rename_i m ms hm
    rw [hm] at h
    obtain rfl : m = l := Option.some.inj h
    exact ⟨_, rfl⟩

theorem exists_next?_of_peek? {t : Token} (h : i.peek? = some t) : ∃ span j, i.next? = some (⟨t, span⟩, j) := by
  obtain ⟨⟨t, span⟩, hl, rfl⟩ := Option.map_eq_some_iff.1 h
  obtain ⟨j, hj⟩ := exists_next? hl
  exact ⟨span, j, hj⟩

theorem peek?_of_next? {j : Rest i} (h : i.next? = some (l, j)) : i.peek? = some l.token := by
  rw [peek?, (spends_next? h).lexemes]
  rfl

/-- A token that may be missing is read where it stands. -/
inductive Takes (t : Token) (i : Input) : Bool → Input → Prop
  | read {span : Span} {j : Rest i} : i.next? = some (⟨t, span⟩, j) → Takes t i true j.1
  | missing : i.peek? ≠ some t → Takes t i false i

theorem takes_star {b : Bool} {j : Input} {hj : j.left ≤ i.left}
    (h : ((match i.next? with
      | some (⟨.star, _⟩, ⟨j, hj⟩) => (true, ⟨j, Nat.le_of_lt hj⟩)
      | _ => (false, ⟨i, Nat.le_refl _⟩)) : Bool × { j : Input // j.left ≤ i.left }) = (b, ⟨j, hj⟩)) :
    i.Takes .star b j := by
  split at h
  · rename_i hnext
    cases h
    exact .read hnext
  · rename_i hother
    cases h
    refine .missing fun hpeek => ?_
    obtain ⟨span, ⟨j, hj⟩, hnext⟩ := exists_next?_of_peek? hpeek
    exact hother span j hj hnext

theorem takes_minus {b : Bool} {j : Input}
    (h : (match i.next? with
      | some (⟨.minus, _⟩, ⟨j, _⟩) => (true, j)
      | _ => (false, i)) = (b, j)) : i.Takes .minus b j := by
  split at h
  · rename_i hnext
    cases h
    exact .read hnext
  · rename_i hother
    cases h
    refine .missing fun hpeek => ?_
    obtain ⟨span, ⟨j, hj⟩, hnext⟩ := exists_next?_of_peek? hpeek
    exact hother span j hj hnext

/-- The next token is an identifier. -/
def SpendsId (m : LineMap) (i : Input) (id : Identifier) (j : Input) : Prop :=
  i.Spends [⟨.identifier id.name, id.location.span⟩] j ∧ id.location = m.locate id.location.span

/-- The next token is a number that has a value. -/
def SpendsNumber (m : LineMap) (i : Input) (n : NumberLiteral) (j : Input) : Prop :=
  i.Spends [⟨.number n.raw, n.location.span⟩] j ∧ n.location = m.locate n.location.span ∧
    Binary64.read? n.raw.toList = some n.value

/-- A dot at an offset and the identifier that touches it, or no such dot. -/
inductive SpendsAccessor (m : LineMap) (offset : Nat) : Input → Option Identifier → Input → Prop
  | none {i : Input} : (∀ span, i.lexemes.head? = some ⟨.dot, span⟩ → span.start ≠ offset) →
      SpendsAccessor m offset i none i
  | some {i j k : Input} {dot : Span} {id : Identifier} : i.Spends [⟨.dot, dot⟩] j → dot.start = offset →
      j.SpendsId m id k → id.location.span.start = dot.stop → SpendsAccessor m offset i (some id) k

/-- The key of a variant. -/
inductive SpendsKey (m : LineMap) : Input → VariantKey → Input → Prop
  | identifier {i j : Input} {id : Identifier} : i.SpendsId m id j → SpendsKey m i (.identifier id) j
  | number {i j : Input} {n : NumberLiteral} : i.SpendsNumber m n j → SpendsKey m i (.number n) j

/-- The bracket that opens a variant, and where the variant starts; a star makes it the default. -/
inductive SpendsBracket : Input → Bool → Nat → Input → Prop
  | plain {i j : Input} {bracket : Span} : i.Spends [⟨.openBracket, bracket⟩] j →
      SpendsBracket i false bracket.start j
  | starred {i j k : Input} {star bracket : Span} : i.Spends [⟨.star, star⟩] j →
      j.Spends [⟨.openBracket, bracket⟩] k → SpendsBracket i true star.start k

end Input

/-! ## The grammar -/

/-- What a function of the grammar finds. -/
inductive Phrase where
  /-- An expression other than a select expression. -/
  | inline (e : Expression)
  | placeable (p : Placeable)
  | arguments (a : CallArguments)
  | positional (es : List Expression)
  /-- Named arguments after those of some names, and the parenthesis that ends them. -/
  | named (seen : List String) (as : List NamedArgument) (closing : Span)
  | variants (vs : List Variant)
  | variant (v : Variant)
  | pattern (p : Option Pattern)
  | elements (es : List PatternElement)
  | oneAttribute (a : Attribute)
  | attributes (as : List Attribute)

/-- The grammar of values and attributes: what stands between two inputs. There is a rule for each way in which one of
the functions of the grammar succeeds, with the tokens that it reads and the locations that it makes of them. -/
inductive Derives (m : LineMap) : Input → Phrase → Input → Prop
  | string {i j : Input} {raw : String} {value : List Char} {span : Span} :
      i.Spends [⟨.string raw, span⟩] j → Text.unescape (span.start + 1) raw.toList = .ok value →
      Derives m i (.inline (.string (String.ofList value) raw (m.locate span))) j
  | number {i j : Input} {n : NumberLiteral} : i.SpendsNumber m n j → Derives m i (.inline (.number n)) j
  | variableRef {i j k : Input} {dollar : Span} {id : Identifier} : i.Spends [⟨.dollar, dollar⟩] j →
      j.SpendsId m id k → id.location.span.start = dollar.start + 1 →
      Derives m i (.inline (.variableRef id (m.locate ⟨dollar.start, id.location.span.stop⟩))) k
  | term {i i₁ i₂ j : Input} {minus : Span} {id : Identifier} {accessor : Option Identifier} :
      i.Spends [⟨.minus, minus⟩] i₁ → i₁.SpendsId m id i₂ → id.location.span.start = minus.start + 1 →
      Input.SpendsAccessor m id.location.span.stop i₂ accessor j → j.peek? ≠ some .openParen →
      Derives m i (.inline (.termRef id accessor none (m.locate ⟨minus.start, j.readTo⟩))) j
  | termCall {i i₁ i₂ i₃ j : Input} {minus : Span} {id : Identifier} {accessor : Option Identifier}
      {a : CallArguments} :
      i.Spends [⟨.minus, minus⟩] i₁ → i₁.SpendsId m id i₂ → id.location.span.start = minus.start + 1 →
      Input.SpendsAccessor m id.location.span.stop i₂ accessor i₃ → Derives m i₃ (.arguments a) j →
      Derives m i (.inline (.termRef id accessor (some a) (m.locate ⟨minus.start, j.readTo⟩))) j
  | message {i i₁ j : Input} {id : Identifier} {accessor : Option Identifier} :
      i.SpendsId m id i₁ → i₁.peek? ≠ some .openParen →
      Input.SpendsAccessor m id.location.span.stop i₁ accessor j →
      Derives m i (.inline (.messageRef id accessor (m.locate ⟨id.location.span.start, j.readTo⟩))) j
  | function {i i₁ j : Input} {id : Identifier} {a : CallArguments} :
      i.SpendsId m id i₁ → isFunctionName id.name = true → Derives m i₁ (.arguments a) j →
      Derives m i (.inline (.functionRef id a (m.locate ⟨id.location.span.start, a.location.span.stop⟩))) j
  | nested {i j : Input} {p : Placeable} : Derives m i (.placeable p) j →
      Derives m i (.inline (.placeable p)) j
  | select {i i₁ i₂ i₃ i₄ j : Input} {opening arrow closing : Span} {e : Expression} {vs : List Variant} :
      i.Spends [⟨.openBrace, opening⟩] i₁ → Derives m i₁ (.inline e) i₂ → i₂.Spends [⟨.arrow, arrow⟩] i₃ →
      e.isSelector = true → Derives m i₃ (.variants vs) i₄ → (vs.filter (·.isDefault)).length = 1 →
      i₄.Spends [⟨.closeBrace, closing⟩] j →
      Derives m i (.placeable ⟨.select e vs (m.locate ⟨e.location.span.start, i₄.readTo⟩),
        m.locate ⟨opening.start, closing.stop⟩⟩) j
  | placeable {i i₁ i₂ j : Input} {opening closing : Span} {e : Expression} :
      i.Spends [⟨.openBrace, opening⟩] i₁ → Derives m i₁ (.inline e) i₂ → checkPlaced e = .ok () →
      i₂.Spends [⟨.closeBrace, closing⟩] j →
      Derives m i (.placeable ⟨e, m.locate ⟨opening.start, closing.stop⟩⟩) j
  | arguments {i i₁ i₂ j : Input} {opening closing : Span} {es : List Expression} {as : List NamedArgument} :
      i.Spends [⟨.openParen, opening⟩] i₁ → Derives m i₁ (.positional es) i₂ →
      Derives m i₂ (.named [] as closing) j →
      Derives m i (.arguments ⟨es, as, m.locate ⟨opening.start, closing.stop⟩⟩) j
  | positionalEnd {i j : Input} {marker : Span} : i.Spends [⟨.endPositional, marker⟩] j →
      Derives m i (.positional []) j
  | positionalLast {i i₁ j : Input} {marker : Span} {e : Expression} : Derives m i (.inline e) i₁ →
      i₁.Spends [⟨.endPositional, marker⟩] j → Derives m i (.positional [e]) j
  | positionalCons {i i₁ i₂ j : Input} {comma : Span} {e : Expression} {es : List Expression} :
      Derives m i (.inline e) i₁ → i₁.Spends [⟨.comma, comma⟩] i₂ → Derives m i₂ (.positional es) j →
      Derives m i (.positional (e :: es)) j
  | namedEnd {i j : Input} {seen : List String} {closing : Span} : i.Spends [⟨.closeParen, closing⟩] j →
      Derives m i (.named seen [] closing) j
  | namedLast {i i₁ i₂ i₃ j : Input} {seen : List String} {colon closing : Span} {name : Identifier}
      {e : Expression} :
      i.SpendsId m name i₁ → i₁.Spends [⟨.colon, colon⟩] i₂ → Derives m i₂ (.inline e) i₃ →
      name.name ∉ seen → i₃.Spends [⟨.closeParen, closing⟩] j →
      Derives m i
        (.named seen [⟨name, e, m.locate ⟨name.location.span.start, e.location.span.stop⟩⟩] closing) j
  | namedCons {i i₁ i₂ i₃ i₄ j : Input} {seen : List String} {colon comma closing : Span} {name : Identifier}
      {e : Expression} {as : List NamedArgument} :
      i.SpendsId m name i₁ → i₁.Spends [⟨.colon, colon⟩] i₂ → Derives m i₂ (.inline e) i₃ →
      name.name ∉ seen → i₃.Spends [⟨.comma, comma⟩] i₄ →
      Derives m i₄ (.named (name.name :: seen) as closing) j →
      Derives m i
        (.named seen (⟨name, e, m.locate ⟨name.location.span.start, e.location.span.stop⟩⟩ :: as) closing) j
  | variantsEnd {i : Input} : i.peek? ≠ some .star → i.peek? ≠ some .openBracket →
      Derives m i (.variants []) i
  | variantsCons {i j k : Input} {v : Variant} {vs : List Variant} : Derives m i (.variant v) j →
      Derives m j (.variants vs) k → Derives m i (.variants (v :: vs)) k
  | variant {i i₁ i₂ i₃ j : Input} {isDefault : Bool} {start : Nat} {closing : Span} {key : VariantKey}
      {value : Pattern} :
      i.SpendsBracket isDefault start i₁ → i₁.SpendsKey m key i₂ → i₂.Spends [⟨.closeBracket, closing⟩] i₃ →
      Derives m i₃ (.pattern (some value)) j →
      Derives m i (.variant ⟨key, value, isDefault, m.locate ⟨start, j.readTo⟩⟩) j
  | noPattern {i j : Input} {marker : Span} : i.Spends [⟨.patternSkip, marker⟩] j →
      Derives m i (.pattern none) j
  | pattern {i i₁ j : Input} {marker : Span} {es : List PatternElement} {location : Location} :
      i.Spends [⟨.patternStart, marker⟩] i₁ → Derives m i₁ (.elements es) j →
      Location.boundingBox? (es.map (·.location)) = some location →
      Derives m i (.pattern (some ⟨es, location⟩)) j
  | elementsEnd {i j : Input} {marker : Span} : i.Spends [⟨.patternEnd, marker⟩] j →
      Derives m i (.elements []) j
  | elementsText {i i₁ j : Input} {text : String} {span : Span} {es : List PatternElement} :
      i.Spends [⟨.pureText text, span⟩] i₁ → Derives m i₁ (.elements es) j →
      Derives m i (.elements (.text ⟨text, m.locate span⟩ :: es)) j
  | elementsPlaceable {i i₁ j : Input} {p : Placeable} {es : List PatternElement} :
      Derives m i (.placeable p) i₁ → Derives m i₁ (.elements es) j →
      Derives m i (.elements (.placeable p :: es)) j
  | oneAttribute {i i₁ i₂ i₃ j : Input} {dot equals : Span} {id : Identifier} {value : Pattern} :
      i.Spends [⟨.dot, dot⟩] i₁ → i₁.SpendsId m id i₂ → i₂.Spends [⟨.equals, equals⟩] i₃ →
      Derives m i₃ (.pattern (some value)) j →
      Derives m i (.oneAttribute ⟨id, value, m.locate ⟨dot.start, j.readTo⟩⟩) j
  | attributesEnd {i : Input} : i.peek? ≠ some .dot → Derives m i (.attributes []) i
  | attributesCons {i j k : Input} {a : Attribute} {as : List Attribute} : Derives m i (.oneAttribute a) j →
      Derives m j (.attributes as) k → Derives m i (.attributes (a :: as)) k

/-! ## What the functions of the grammar return -/

/-- A step that gives a result, and what the rest makes of it. -/
theorem bind_eq_ok {α β : Type} {x : Except Fault α} {k : α → Except Fault β} {b : β}
    (h : (x >>= k) = .ok b) : ∃ a, x = .ok a ∧ k a = .ok b := by
  cases x with
  | error e => simp [bind, Except.bind] at h
  | ok a => exact ⟨a, rfl, h⟩

namespace Fence

variable {f : Fence} {i : Input} {e : Expected}

theorem spends_expect {t : Token} {span : Span} {j : Rest i} (h : f.expect t e i = .ok (span, j)) :
    i.Spends [⟨t, span⟩] j.1 := by
  unfold expect at h
  split at h
  · rename_i l j' hnext
    split at h
    · rename_i ht
      obtain ⟨rfl, rfl⟩ := Prod.mk.inj (Except.ok.inj h)
      exact ht ▸ Input.spends_next? hnext
    · simp at h
  · simp at h

theorem spends_identifier {id : Identifier} {j : Rest i} (h : f.identifier e i = .ok (id, j)) :
    i.SpendsId f.lines id j.1 := by
  unfold identifier at h
  split at h
  · rename_i name span j' hnext
    obtain ⟨rfl, rfl⟩ := Prod.mk.inj (Except.ok.inj h)
    exact ⟨Input.spends_next? hnext, rfl⟩
  · simp at h

theorem spends_identifierAt {offset : Nat} {id : Identifier} {j : Rest i}
    (h : f.identifierAt offset e i = .ok (id, j)) :
    i.SpendsId f.lines id j.1 ∧ id.location.span.start = offset := by
  unfold identifierAt at h
  split at h
  · rename_i hoffset
    have hid := spends_identifier h
    rw [hid.1.offset_eq] at hoffset
    exact ⟨hid, hoffset⟩
  · simp at h

theorem spends_number {n : NumberLiteral} {j : Rest i} (h : f.number i e = .ok (n, j)) :
    i.SpendsNumber f.lines n j.1 := by
  unfold number at h
  split at h
  · rename_i raw span j' hnext
    split at h
    · rename_i value hvalue
      obtain ⟨rfl, rfl⟩ := Prod.mk.inj (Except.ok.inj h)
      exact ⟨Input.spends_next? hnext, rfl, hvalue⟩
    · simp at h
  · simp at h

theorem spends_accessor {offset : Nat} {accessor : Option Identifier} {j : { j : Input // j.left ≤ i.left }}
    (h : f.accessor offset i = .ok (accessor, j)) :
    Input.SpendsAccessor f.lines offset i accessor j.1 := by
  unfold Fence.accessor at h
  split at h
  · rename_i dot i₁ h₁ hnext
    have hdot := Input.spends_next? hnext
    split at h
    · rename_i hstart
      obtain ⟨⟨id, i₂, h₂⟩, hid, h⟩ := bind_eq_ok h
      obtain ⟨rfl, rfl⟩ := Prod.mk.inj (Except.ok.inj h)
      obtain ⟨hid, htouch⟩ := spends_identifierAt hid
      exact .some hdot hstart hid htouch
    · rename_i hstart
      obtain ⟨rfl, rfl⟩ := Prod.mk.inj (Except.ok.inj h)
      -- there is a dot, but it does not touch the name
      apply Input.SpendsAccessor.none
      intro span hspan
      rw [hdot.lexemes] at hspan
      obtain ⟨-, rfl⟩ := Lexeme.mk.inj (Option.some.inj hspan)
      exact hstart
  · rename_i hnext
    obtain ⟨rfl, rfl⟩ := Prod.mk.inj (Except.ok.inj h)
    apply Input.SpendsAccessor.none
    intro span hspan
    obtain ⟨⟨k, hk⟩, hk'⟩ := Input.exists_next? hspan
    exact (hnext span k hk hk').elim

end Fence

theorem spends_variantKey {f : Fence} {i : Input} {key : VariantKey} {j : Rest i}
    (h : variantKey f i = .ok (key, j)) : i.SpendsKey f.lines key j.1 := by
  unfold variantKey at h
  split at h
  · cases hid : f.identifier .variantKey i with
    | error e => simp [hid, Except.map] at h
    | ok r =>
      rw [hid] at h
      obtain ⟨rfl, rfl⟩ := Prod.mk.inj (Except.ok.inj h)
      exact .identifier (Fence.spends_identifier hid)
  · cases hn : f.number i .variantKey with
    | error e => simp [hn, Except.map] at h
    | ok r =>
      rw [hn] at h
      obtain ⟨rfl, rfl⟩ := Prod.mk.inj (Except.ok.inj h)
      exact .number (Fence.spends_number hn)
  · simp at h

theorem checkVariants_eq_ok {f : Fence} {i : Input} {vs : List Variant} (h : checkVariants f i vs = .ok ()) :
    (vs.filter (·.isDefault)).length = 1 := by
  unfold checkVariants at h
  split at h
  · simp at h
  · split at h
    · simp at h
    · rename_i hone
      rw [hone]
      rfl
    · simp at h

theorem checkSelector_eq_ok {e : Expression} (h : checkSelector e = .ok ()) : e.isSelector = true := by
  unfold checkSelector at h
  split at h
  · assumption
  · simp at h

/-- The reference to an attribute of a term. -/
def Expression.isTermAttribute : Expression → Bool
  | termRef _ (some _) _ _ => true
  | _ => false

/-- The attribute of a term is the one expression that has no place in a text. -/
theorem checkPlaced_eq (e : Expression) :
    checkPlaced e = if e.isTermAttribute then
      .error (.unexpected e.location.span.start .termAsValue .termAttribute) else .ok () := by
  cases e with
  | termRef _ accessor _ _ => cases accessor <;> rfl
  | _ => rfl

mutual

theorem derives_placeable {f : Fence} {i : Input} {p : Placeable} {j : Rest i}
    (h : placeable f i = .ok (p, j)) : Derives f.lines i (.placeable p) j.1 := by
  rw [placeable] at h
  obtain ⟨⟨opening, i₁, h₁⟩, hopening, h⟩ := bind_eq_ok h
  obtain ⟨⟨e, i₂, h₂⟩, he, h⟩ := bind_eq_ok h
  simp only at h
  -- an arrow makes a select expression of what was read so far
  split at h
  · rename_i arrow i₃ h₃ harrow
    obtain ⟨⟨⟩, hselector, h⟩ := bind_eq_ok h
    obtain ⟨⟨vs, i₄, h₄⟩, hvariants, h⟩ := bind_eq_ok h
    obtain ⟨⟨⟩, hdefault, h⟩ := bind_eq_ok h
    obtain ⟨⟨closing, i₅, h₅⟩, hclosing, h⟩ := bind_eq_ok h
    obtain ⟨rfl, rfl⟩ := Prod.mk.inj (Except.ok.inj h)
    exact .select (Fence.spends_expect hopening) (derives_inline he) (Input.spends_next? harrow)
      (checkSelector_eq_ok hselector) (derives_variants hvariants) (checkVariants_eq_ok hdefault)
      (Fence.spends_expect hclosing)
  · obtain ⟨⟨⟩, hplaced, h⟩ := bind_eq_ok h
    obtain ⟨⟨closing, i₃, h₃⟩, hclosing, h⟩ := bind_eq_ok h
    obtain ⟨rfl, rfl⟩ := Prod.mk.inj (Except.ok.inj h)
    exact .placeable (Fence.spends_expect hopening) (derives_inline he) hplaced (Fence.spends_expect hclosing)
termination_by 3 * i.left
decreasing_by all_goals omega

theorem derives_inline {f : Fence} {i : Input} {e : Expression} {j : Rest i}
    (h : inline f i = .ok (e, j)) : Derives f.lines i (.inline e) j.1 := by
  rw [inline] at h
  split at h
  · obtain ⟨⟨p, rest⟩, hp, h⟩ := bind_eq_ok h
    obtain ⟨rfl, rfl⟩ := Prod.mk.inj (Except.ok.inj h)
    exact .nested (derives_placeable hp)
  · -- a string
    rename_i raw span rest hnext
    split at h
    · rename_i value hvalue
      obtain ⟨rfl, rfl⟩ := Prod.mk.inj (Except.ok.inj h)
      exact .string (Input.spends_next? hnext) hvalue
    · simp at h
  · simp at h
  · obtain ⟨⟨n, rest⟩, hn, h⟩ := bind_eq_ok h
    obtain ⟨rfl, rfl⟩ := Prod.mk.inj (Except.ok.inj h)
    exact .number (Fence.spends_number hn)
  · -- a reference to a variable
    rename_i dollar i₁ h₁ hnext
    obtain ⟨⟨id, i₂, h₂⟩, hid, h⟩ := bind_eq_ok h
    obtain ⟨rfl, rfl⟩ := Prod.mk.inj (Except.ok.inj h)
    obtain ⟨hid, htouch⟩ := Fence.spends_identifierAt hid
    exact .variableRef (Input.spends_next? hnext) hid htouch
  · -- a reference to a term, with arguments or without
    rename_i minus i₁ h₁ hnext
    obtain ⟨⟨id, i₂, h₂⟩, hid, h⟩ := bind_eq_ok h
    obtain ⟨⟨accessor, i₃, h₃⟩, haccessor, h⟩ := bind_eq_ok h
    obtain ⟨hid, htouch⟩ := Fence.spends_identifierAt hid
    simp only at h
    split at h
    · obtain ⟨⟨a, i₄, h₄⟩, ha, h⟩ := bind_eq_ok h
      obtain ⟨rfl, rfl⟩ := Prod.mk.inj (Except.ok.inj h)
      exact .termCall (Input.spends_next? hnext) hid htouch (Fence.spends_accessor haccessor)
        (derives_callArguments ha)
    · rename_i hparen
      obtain ⟨rfl, rfl⟩ := Prod.mk.inj (Except.ok.inj h)
      exact .term (Input.spends_next? hnext) hid htouch (Fence.spends_accessor haccessor) hparen
  · -- a name: a parenthesis after it makes a function of it, and it is a message otherwise
    rename_i name span i₁ h₁ hnext
    have hid : i.SpendsId f.lines ⟨name, f.lines.locate span⟩ i₁ := ⟨Input.spends_next? hnext, rfl⟩
    simp only at h
    split at h
    · split at h
      · cases h
      · rename_i hname
        obtain ⟨⟨a, i₂, h₂⟩, ha, h⟩ := bind_eq_ok h
        obtain ⟨rfl, rfl⟩ := Prod.mk.inj (Except.ok.inj h)
        exact .function hid (by simpa using hname) (derives_callArguments ha)
    · rename_i hparen
      obtain ⟨⟨accessor, i₂, h₂⟩, haccessor, h⟩ := bind_eq_ok h
      obtain ⟨rfl, rfl⟩ := Prod.mk.inj (Except.ok.inj h)
      exact .message hid hparen (Fence.spends_accessor haccessor)
  · simp at h
termination_by 3 * i.left + 1
decreasing_by all_goals omega

theorem derives_callArguments {f : Fence} {i : Input} {a : CallArguments} {j : Rest i}
    (h : callArguments f i = .ok (a, j)) : Derives f.lines i (.arguments a) j.1 := by
  rw [callArguments] at h
  obtain ⟨⟨opening, i₁, h₁⟩, hopening, h⟩ := bind_eq_ok h
  obtain ⟨⟨es, i₂, h₂⟩, hes, h⟩ := bind_eq_ok h
  obtain ⟨⟨as, closing, i₃, h₃⟩, has, h⟩ := bind_eq_ok h
  obtain ⟨rfl, rfl⟩ := Prod.mk.inj (Except.ok.inj h)
  exact .arguments (Fence.spends_expect hopening) (derives_positionalArguments hes) (derives_namedArguments has)
termination_by 3 * i.left
decreasing_by all_goals omega

theorem derives_positionalArguments {f : Fence} {i : Input} {es : List Expression} {j : Rest i}
    (h : positionalArguments f i = .ok (es, j)) : Derives f.lines i (.positional es) j.1 := by
  rw [positionalArguments] at h
  split at h
  · rename_i marker rest hnext
    obtain ⟨rfl, rfl⟩ := Prod.mk.inj (Except.ok.inj h)
    exact .positionalEnd (Input.spends_next? hnext)
  · obtain ⟨⟨e, i₁, h₁⟩, he, h⟩ := bind_eq_ok h
    simp only at h
    split at h
    · rename_i comma i₂ h₂ hcomma
      obtain ⟨⟨es, i₃, h₃⟩, hes, h⟩ := bind_eq_ok h
      obtain ⟨rfl, rfl⟩ := Prod.mk.inj (Except.ok.inj h)
      exact .positionalCons (derives_inline he) (Input.spends_next? hcomma) (derives_positionalArguments hes)
    · rename_i marker i₂ h₂ hmarker
      obtain ⟨rfl, rfl⟩ := Prod.mk.inj (Except.ok.inj h)
      exact .positionalLast (derives_inline he) (Input.spends_next? hmarker)
    · cases h
termination_by 3 * i.left + 2
decreasing_by all_goals omega

theorem derives_namedArguments {f : Fence} {seen : List String} {i : Input} {as : List NamedArgument}
    {closing : Span} {j : Rest i} (h : namedArguments f seen i = .ok (as, closing, j)) :
    Derives f.lines i (.named seen as closing) j.1 := by
  rw [namedArguments] at h
  split at h
  · rename_i span rest hnext
    obtain ⟨rfl, hrest⟩ := Prod.mk.inj (Except.ok.inj h)
    obtain ⟨rfl, rfl⟩ := Prod.mk.inj hrest
    exact .namedEnd (Input.spends_next? hnext)
  · rename_i name span i₁ h₁ hnext
    have hid : i.SpendsId f.lines ⟨name, f.lines.locate span⟩ i₁ := ⟨Input.spends_next? hnext, rfl⟩
    split at h
    · rename_i colon i₂ h₂ hcolon
      obtain ⟨⟨e, i₃, h₃⟩, he, h⟩ := bind_eq_ok h
      simp only at h
      split at h
      · cases h
      · rename_i hseen
        -- the name is checked after its value, and so it is new in front of what follows
        have hseen : name ∉ seen := by simpa using hseen
        split at h
        · rename_i comma i₄ h₄ hcomma
          obtain ⟨⟨as, closing, i₅, h₅⟩, has, h⟩ := bind_eq_ok h
          obtain ⟨rfl, hrest⟩ := Prod.mk.inj (Except.ok.inj h)
          obtain ⟨rfl, rfl⟩ := Prod.mk.inj hrest
          exact .namedCons hid (Input.spends_next? hcolon) (derives_inline he) hseen
            (Input.spends_next? hcomma) (derives_namedArguments has)
        · rename_i closing i₄ h₄ hclosing
          obtain ⟨rfl, hrest⟩ := Prod.mk.inj (Except.ok.inj h)
          obtain ⟨rfl, rfl⟩ := Prod.mk.inj hrest
          exact .namedLast hid (Input.spends_next? hcolon) (derives_inline he) hseen
            (Input.spends_next? hclosing)
        · cases h
    · simp at h
  · simp at h
  · simp at h
termination_by 3 * i.left
decreasing_by all_goals omega

theorem derives_variants {f : Fence} {i : Input} {vs : List Variant} {j : { j : Input // j.left ≤ i.left }}
    (h : variants f i = .ok (vs, j)) : Derives f.lines i (.variants vs) j.1 := by
  rw [variants] at h
  split at h
  · obtain ⟨⟨v, i₁, h₁⟩, hv, h⟩ := bind_eq_ok h
    obtain ⟨⟨vs, i₂, h₂⟩, hvs, h⟩ := bind_eq_ok h
    obtain ⟨rfl, rfl⟩ := Prod.mk.inj (Except.ok.inj h)
    exact .variantsCons (derives_variant hv) (derives_variants hvs)
  · rename_i hpeek
    obtain ⟨rfl, rfl⟩ := Prod.mk.inj (Except.ok.inj h)
    exact .variantsEnd (fun hstar => hpeek (.inl hstar)) fun hbracket => hpeek (.inr hbracket)
termination_by 3 * i.left + 1
decreasing_by all_goals omega

theorem derives_variant {f : Fence} {i : Input} {v : Variant} {j : Rest i}
    (h : variant f i = .ok (v, j)) : Derives f.lines i (.variant v) j.1 := by
  rw [variant] at h
  split at h
  rename_i isDefault i₁ h₁ hstar
  obtain ⟨⟨bracket, i₂, h₂⟩, hbracket, h⟩ := bind_eq_ok h
  obtain ⟨⟨key, i₃, h₃⟩, hkey, h⟩ := bind_eq_ok h
  obtain ⟨⟨closing, i₄, h₄⟩, hclosing, h⟩ := bind_eq_ok h
  obtain ⟨⟨value?, i₅, h₅⟩, hvalue, h⟩ := bind_eq_ok h
  -- the variant starts with its star, if it has one
  have hopens : i.SpendsBracket isDefault (f.offset i) i₂ := by
    have hbracket := Fence.spends_expect hbracket
    cases Input.takes_star hstar with
    | read hnext =>
      have hstar := Input.spends_next? hnext
      rw [hstar.offset_eq]
      exact .starred hstar hbracket
    | missing =>
      rw [hbracket.offset_eq]
      exact .plain hbracket
  simp only at h
  split at h
  · cases h
  · obtain ⟨rfl, rfl⟩ := Prod.mk.inj (Except.ok.inj h)
    exact .variant hopens (spends_variantKey hkey) (Fence.spends_expect hclosing) (derives_pattern? hvalue)
termination_by 3 * i.left
decreasing_by all_goals omega

theorem derives_pattern? {f : Fence} {i : Input} {p : Option Pattern} {j : Rest i}
    (h : pattern? f i = .ok (p, j)) : Derives f.lines i (.pattern p) j.1 := by
  rw [pattern?] at h
  split at h
  · rename_i marker rest hnext
    obtain ⟨rfl, rfl⟩ := Prod.mk.inj (Except.ok.inj h)
    exact .noPattern (Input.spends_next? hnext)
  · rename_i marker i₁ h₁ hnext
    obtain ⟨⟨es, i₂, h₂⟩, hes, h⟩ := bind_eq_ok h
    simp only at h
    split at h
    · cases h
    · rename_i location hlocation
      obtain ⟨rfl, rfl⟩ := Prod.mk.inj (Except.ok.inj h)
      exact .pattern (Input.spends_next? hnext) (derives_patternElements hes) hlocation
  · simp at h
termination_by 3 * i.left
decreasing_by all_goals omega

theorem derives_patternElements {f : Fence} {i : Input} {es : List PatternElement} {j : Rest i}
    (h : patternElements f i = .ok (es, j)) : Derives f.lines i (.elements es) j.1 := by
  rw [patternElements] at h
  split at h
  · rename_i text span i₁ h₁ hnext
    obtain ⟨⟨es, i₂, h₂⟩, hes, h⟩ := bind_eq_ok h
    obtain ⟨rfl, rfl⟩ := Prod.mk.inj (Except.ok.inj h)
    exact .elementsText (Input.spends_next? hnext) (derives_patternElements hes)
  · obtain ⟨⟨p, i₁, h₁⟩, hp, h⟩ := bind_eq_ok h
    obtain ⟨⟨es, i₂, h₂⟩, hes, h⟩ := bind_eq_ok h
    obtain ⟨rfl, rfl⟩ := Prod.mk.inj (Except.ok.inj h)
    exact .elementsPlaceable (derives_placeable hp) (derives_patternElements hes)
  · rename_i marker rest hnext
    obtain ⟨rfl, rfl⟩ := Prod.mk.inj (Except.ok.inj h)
    exact .elementsEnd (Input.spends_next? hnext)
  · simp at h
termination_by 3 * i.left + 1
decreasing_by all_goals omega

end

theorem derives_oneAttribute {f : Fence} {i : Input} {a : Attribute} {j : Rest i}
    (h : oneAttribute f i = .ok (a, j)) : Derives f.lines i (.oneAttribute a) j.1 := by
  unfold oneAttribute at h
  obtain ⟨⟨dot, i₁, h₁⟩, hdot, h⟩ := bind_eq_ok h
  obtain ⟨⟨id, i₂, h₂⟩, hid, h⟩ := bind_eq_ok h
  obtain ⟨⟨equals, i₃, h₃⟩, hequals, h⟩ := bind_eq_ok h
  obtain ⟨⟨value?, i₄, h₄⟩, hvalue, h⟩ := bind_eq_ok h
  simp only at h
  split at h
  · cases h
  · obtain ⟨rfl, rfl⟩ := Prod.mk.inj (Except.ok.inj h)
    exact .oneAttribute (Fence.spends_expect hdot) (Fence.spends_identifier hid) (Fence.spends_expect hequals)
      (derives_pattern? hvalue)

theorem derives_attributes {f : Fence} {i j : Input} {as : List Attribute}
    (h : attributes f i = .ok (as, j)) : Derives f.lines i (.attributes as) j := by
  rw [attributes] at h
  split at h
  · obtain ⟨⟨a, i₁, h₁⟩, ha, h⟩ := bind_eq_ok h
    obtain ⟨⟨as, i₂⟩, has, h⟩ := bind_eq_ok h
    obtain ⟨rfl, rfl⟩ := Prod.mk.inj (Except.ok.inj h)
    exact .attributesCons (derives_oneAttribute ha) (derives_attributes has)
  · rename_i hpeek
    obtain ⟨rfl, rfl⟩ := Prod.mk.inj (Except.ok.inj h)
    exact .attributesEnd hpeek
termination_by i.left
decreasing_by omega

/-! ## Entries -/

/-- The grammar of entries: the tokens of an input, all of them, make an entry. A message has a value or an attribute,
and a term always has a value. -/
inductive Entry.Derived (m : LineMap) : Input → Entry → Prop
  | message {i i₁ i₂ i₃ j : Input} {equals : Span} {id : Identifier} {value : Option Pattern}
      {as : List Attribute} :
      i.SpendsId m id i₁ → i₁.Spends [⟨.equals, equals⟩] i₂ → Derives m i₂ (.pattern value) i₃ →
      Derives m i₃ (.attributes as) j → j.lexemes = [] → (value = none → as ≠ []) →
      Derived m i (.message ⟨id, value, as, none, m.locate ⟨id.location.span.start, j.readTo⟩⟩)
  | term {i i₁ i₂ i₃ i₄ j : Input} {minus equals : Span} {id : Identifier} {value : Pattern}
      {as : List Attribute} :
      i.Spends [⟨.minus, minus⟩] i₁ → i₁.SpendsId m id i₂ → i₂.Spends [⟨.equals, equals⟩] i₃ →
      Derives m i₃ (.pattern (some value)) i₄ → Derives m i₄ (.attributes as) j → j.lexemes = [] →
      Derived m i (.term ⟨id, value, as, none, m.locate ⟨minus.start, j.readTo⟩⟩)

/-- What is read is derived: where the functions succeed, the relation holds of the entry, so properties of what is read
are proved by induction on its rules. -/
theorem derived_entry {f : Fence} {i : Input} {e : Entry} (h : entry f i = .ok e) :
    e.Derived f.lines i := by
  unfold entry at h
  split at h
  rename_i isTerm i₁ hminus
  obtain ⟨⟨id, i₂, h₂⟩, hid, h⟩ := bind_eq_ok h
  obtain ⟨⟨equals, i₃, h₃⟩, hequals, h⟩ := bind_eq_ok h
  obtain ⟨⟨value?, i₄, h₄⟩, hvalue, h⟩ := bind_eq_ok h
  obtain ⟨⟨as, i₅⟩, has, h⟩ := bind_eq_ok h
  have hid := Fence.spends_identifier hid
  have hequals := Fence.spends_expect hequals
  have hvalue := derives_pattern? hvalue
  have has := derives_attributes has
  simp only at h
  split at h
  · cases h
  rename_i hend
  have hend : i₅.lexemes = [] := by simpa using hend
  -- a dash in front makes a term, which needs a value; a message needs a value or an attribute
  cases Input.takes_minus hminus with
  | read hnext =>
    have hminus := Input.spends_next? hnext
    cases value? with
    | none => cases h
    | some value =>
      obtain rfl := Except.ok.inj h
      rw [Fence.locate, hminus.offset_eq]
      exact .term hminus hid hequals hvalue has hend
  | missing =>
    cases value? with
    | none =>
      simp only at h
      split at h
      · cases h
      · rename_i hne
        obtain rfl := Except.ok.inj h
        rw [Fence.locate, hid.1.offset_eq]
        exact .message hid hequals hvalue has hend fun _ => by simpa using hne
    | some value =>
      obtain rfl := Except.ok.inj h
      rw [Fence.locate, hid.1.offset_eq]
      exact .message hid hequals hvalue has hend (by simp)

end Fluent
