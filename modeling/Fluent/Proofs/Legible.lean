import Fluent.Proofs.Ends
import Fluent.Proofs.Nesting

/-!
# Expressions that can be written again

An expression is legible if its names, numbers and strings have the letters of such tokens, at any depth. Whatever the
grammar finds among scanned tokens is legible, as long as it holds no select expression.

* `Expression.selectFree`, `Expression.Legible`: no select expression at any depth; letters that can be read again.
* `Derives.legible`: what is derived from scanned tokens is legible.
* `Derives.wellSpaced`: texts without line breaks do not touch each other, and the last one ends with content.
* `depths_le_of_part`: a part of a resource is within the nesting limit on its own.
-/

namespace Fluent

/-! ## Select expressions -/

mutual

/-- An expression that holds no select expression at any depth. -/
def Expression.selectFree : Expression → Bool
  | .select .. => false
  | .string .. | .number _ | .variableRef .. | .messageRef .. | .termRef _ _ none _ => true
  | .termRef _ _ (some a) _ => a.selectFree
  | .functionRef _ a _ => a.selectFree
  | .placeable p => p.selectFree

def Placeable.selectFree : Placeable → Bool
  | ⟨e, _⟩ => e.selectFree

def CallArguments.selectFree : CallArguments → Bool
  | ⟨positional, named, _⟩ => positionalSelectFree positional && namedSelectFree named

def positionalSelectFree : List Expression → Bool
  | [] => true
  | e :: es => e.selectFree && positionalSelectFree es

def namedSelectFree : List NamedArgument → Bool
  | [] => true
  | a :: as => a.selectFree && namedSelectFree as

def NamedArgument.selectFree : NamedArgument → Bool
  | ⟨_, value, _⟩ => value.selectFree

end

def PatternElement.selectFree : PatternElement → Bool
  | .text _ => true
  | .placeable p => p.selectFree

/-- A pattern whose placeables hold no select expression at any depth. -/
def Pattern.selectFree (p : Pattern) : Bool := p.elements.all PatternElement.selectFree

/-! ## Letters -/

/-- The names of an accessor, if there is one. -/
def LegibleAccessor (accessor : Option Identifier) : Prop := ∀ id ∈ accessor, IsName id.name.toList

mutual

/-- An expression without select expressions, whose names, numbers and strings have the letters of such tokens. -/
def Expression.Legible : Expression → Prop
  | .string _ raw _ => IsStringBody raw.toList
  | .number n => IsNumber n.raw.toList ∧ Binary64.read? n.raw.toList = some n.value
  | .variableRef id _ => IsName id.name.toList
  | .messageRef id accessor _ => IsName id.name.toList ∧ LegibleAccessor accessor
  | .termRef id accessor none _ => IsName id.name.toList ∧ LegibleAccessor accessor
  | .termRef id accessor (some a) _ => IsName id.name.toList ∧ LegibleAccessor accessor ∧ a.Legible
  | .functionRef id a _ => IsName id.name.toList ∧ a.Legible
  | .select .. => False
  | .placeable p => p.Legible

def Placeable.Legible : Placeable → Prop
  | ⟨e, _⟩ => e.Legible

def CallArguments.Legible : CallArguments → Prop
  | ⟨positional, named, _⟩ => LegiblePositional positional ∧ LegibleNamed named

def LegiblePositional : List Expression → Prop
  | [] => True
  | e :: es => e.Legible ∧ LegiblePositional es

def LegibleNamed : List NamedArgument → Prop
  | [] => True
  | a :: as => a.Legible ∧ LegibleNamed as

def NamedArgument.Legible : NamedArgument → Prop
  | ⟨name, value, _⟩ => IsName name.name.toList ∧ value.Legible

end

/-- Text is not empty and has no braces. -/
def PatternElement.Legible : PatternElement → Prop
  | .text chunk => chunk.value.toList ≠ [] ∧ IsText chunk.value.toList
  | .placeable p => p.Legible

/-- Phrases that hold no select expression are legible. -/
def Phrase.Legible : Phrase → Prop
  | inline e => e.selectFree = true → e.Legible
  | placeable p => p.selectFree = true → p.Legible
  | arguments a => a.selectFree = true → a.Legible
  | positional es => positionalSelectFree es = true → LegiblePositional es
  | named _ as _ => namedSelectFree as = true → LegibleNamed as
  | elements es => ∀ e ∈ es, e.selectFree = true → e.Legible
  | pattern p => ∀ q ∈ p, ∀ e ∈ q.elements, e.selectFree = true → e.Legible
  | variants _ | variant _ | oneAttribute _ | attributes _ => True

section

variable {m : LineMap} {i j : Input} {p : Phrase}

theorem Input.SpendsId.isName {id : Identifier} (h : i.SpendsId m id j) (hl : ∀ l ∈ i.lexemes, l.token.Lexical) :
    IsName id.name.toList := by
  have hmem : (⟨.identifier id.name, id.location.span⟩ : Lexeme) ∈ i.lexemes := by
    rw [h.1.lexemes]
    exact List.mem_cons_self
  exact hl _ hmem

theorem Input.SpendsAccessor.legible {offset : Nat} {accessor : Option Identifier}
    (h : Input.SpendsAccessor m offset i accessor j) (hl : ∀ l ∈ i.lexemes, l.token.Lexical) :
    LegibleAccessor accessor := by
  cases h with
  | none =>
    intro id hid
    cases hid
  | some hdot _ hid _ =>
    intro id' hid'
    obtain rfl := Option.some.inj hid'
    exact hid.isName fun l hmem => hl l (hdot.suffix.subset hmem)

/-- **What is derived from scanned tokens is legible.** -/
theorem Derives.legible (h : Derives m i p j) (hl : ∀ l ∈ i.lexemes, l.token.Lexical) : p.Legible := by
  have hbehind : ∀ {i j : Input}, j.lexemes <:+ i.lexemes → (∀ l ∈ i.lexemes, l.token.Lexical) →
      ∀ l ∈ j.lexemes, l.token.Lexical := fun hsuffix hl l hmem => hl l (hsuffix.subset hmem)
  induction h with
  | @string i _ raw _ span hstring _ =>
    intro _
    have hmem : (⟨.string raw, span⟩ : Lexeme) ∈ i.lexemes := by
      rw [hstring.lexemes]
      exact List.mem_cons_self
    exact hl _ hmem
  | @number i _ n hnumber =>
    intro _
    have hmem : (⟨.number n.raw, n.location.span⟩ : Lexeme) ∈ i.lexemes := by
      rw [hnumber.1.lexemes]
      exact List.mem_cons_self
    exact ⟨hl _ hmem, hnumber.2.2⟩
  | variableRef hdollar hid _ => exact fun _ => hid.isName (hbehind hdollar.suffix hl)
  | term hminus hid _ haccessor _ =>
    have hname := hbehind hminus.suffix hl
    exact fun _ => ⟨hid.isName hname, haccessor.legible (hbehind hid.1.suffix hname)⟩
  | termCall hminus hid _ haccessor _ ih =>
    have hname := hbehind hminus.suffix hl
    have hafter := hbehind hid.1.suffix hname
    exact fun hfree => ⟨hid.isName hname, haccessor.legible hafter,
      ih (hbehind haccessor.writes.suffix hafter) hfree⟩
  | message hid _ haccessor => exact fun _ => ⟨hid.isName hl, haccessor.legible (hbehind hid.1.suffix hl)⟩
  | function hid _ _ ih => exact fun hfree => ⟨hid.isName hl, ih (hbehind hid.1.suffix hl) hfree⟩
  | nested _ ih => exact ih hl
  -- only what has no select within is asked about
  | select => exact fun hfree => by cases hfree
  | placeable hopen _ _ _ ih => exact ih (hbehind hopen.suffix hl)
  | arguments hopen hes _ ihes ihas =>
    intro hfree
    obtain ⟨hfrees, hfreeas⟩ := Bool.and_eq_true_iff.1 hfree
    have hfirst := hbehind hopen.suffix hl
    exact ⟨ihes hfirst hfrees, ihas (hbehind hes.writes.suffix hfirst) hfreeas⟩
  | positionalEnd | namedEnd => exact fun _ => trivial
  | positionalLast _ _ ih => exact fun hfree => ⟨ih hl (Bool.and_eq_true_iff.1 hfree).1, trivial⟩
  | positionalCons he hcomma _ ihe ihes =>
    intro hfree
    obtain ⟨hfreee, hfrees⟩ := Bool.and_eq_true_iff.1 hfree
    exact ⟨ihe hl hfreee, ihes (hbehind (hcomma.suffix.trans he.writes.suffix) hl) hfrees⟩
  | namedLast hid hcolon _ _ _ ih =>
    intro hfree
    exact ⟨⟨hid.isName hl, ih (hbehind (hcolon.suffix.trans hid.1.suffix) hl) (Bool.and_eq_true_iff.1 hfree).1⟩,
      trivial⟩
  | namedCons hid hcolon he _ hcomma _ ihe ihas =>
    intro hfree
    obtain ⟨hfreee, hfreeas⟩ := Bool.and_eq_true_iff.1 hfree
    have hvalue := hbehind (hcolon.suffix.trans hid.1.suffix) hl
    exact ⟨⟨hid.isName hl, ihe hvalue hfreee⟩, ihas (hbehind (hcomma.suffix.trans he.writes.suffix) hvalue) hfreeas⟩
  | variantsEnd | variantsCons | variant | oneAttribute | attributesEnd | attributesCons => trivial
  | noPattern => exact fun q hq => by cases hq
  | pattern hmarker _ _ ih =>
    rintro q ⟨⟩
    exact ih (hbehind hmarker.suffix hl)
  | elementsEnd => exact fun e he => by cases he
  | @elementsText i _ _ text span es htext _ ih =>
    have hmem : (⟨.pureText text, span⟩ : Lexeme) ∈ i.lexemes := by
      rw [htext.lexemes]
      exact List.mem_cons_self
    exact List.forall_mem_cons.2 ⟨fun _ => hl _ hmem, ih (hbehind htext.suffix hl)⟩
  | elementsPlaceable hp _ ihp ihes =>
    exact List.forall_mem_cons.2 ⟨fun hfree => ihp hl hfree, ihes (hbehind hp.writes.suffix hl)⟩

/-! ## Texts -/

/-- Of the texts among some elements no two stand side by side, and the last one ends with content. -/
structure WellSpaced (es : List PatternElement) : Prop where
  apart : es.IsChain fun a b => a.chunk? = none ∨ b.chunk? = none
  solid : ∀ chunk, es.getLast? = some (.text chunk) → Solid chunk.value.toList

/-- Texts without line breaks do not stand side by side. -/
theorem Derives.apart_elements {source : List Char} {es : List PatternElement} (h : Derives m i (.elements es) j)
    (hneat : Neat source i.lexemes) (hbreaks : ∀ chunk, .text chunk ∈ es → '\n' ∉ chunk.value.toList) :
    es.IsChain fun a b => a.chunk? = none ∨ b.chunk? = none := by
  induction es generalizing i with
  | nil => exact .nil
  | cons e es ih =>
    have hrest : ∀ {i₁ : Input}, Derives m i₁ (.elements es) j → i₁.lexemes <:+ i.lexemes →
        es.IsChain fun a b => a.chunk? = none ∨ b.chunk? = none := fun hes hsuffix =>
      ih hes (hneat.suffix hsuffix) fun chunk hchunk => hbreaks chunk (List.mem_cons_of_mem _ hchunk)
    rw [List.isChain_cons]
    cases h with
    | @elementsText _ i₁ _ text span _ htext hes =>
      refine ⟨?_, hrest hes htext.suffix⟩
      intro b hb
      cases hes with
      | elementsEnd => cases hb
      | @elementsText _ _ _ text' span' es' htext' _ =>
        obtain rfl := Option.some.inj hb
        have htexts := hneat.texts
        rw [htext.lexemes, htext'.lexemes] at htexts
        obtain ⟨cs, hcs⟩ := (List.isChain_cons_cons.1 htexts).1 rfl rfl
        have hbreak : '\n' ∈ text'.toList := by
          rw [Token.pureText.inj hcs, String.toList_ofList]
          exact List.mem_cons_self
        have hmem : PatternElement.text ⟨text', m.locate span'⟩ ∈
            (.text ⟨text, m.locate span⟩ :: .text ⟨text', m.locate span'⟩ :: es') :=
          List.mem_cons_of_mem _ List.mem_cons_self
        exact absurd hbreak (hbreaks _ hmem)
      | elementsPlaceable =>
        obtain rfl := Option.some.inj hb
        exact .inr rfl
    | elementsPlaceable hp hes => exact ⟨fun _ _ => .inl rfl, hrest hes hp.writes.suffix⟩

/-- **Elements without line breaks** are well spaced. -/
theorem Derives.wellSpaced {source : List Char} {es : List PatternElement} (h : Derives m i (.elements es) j)
    (hneat : Neat source i.lexemes) (hbreaks : ∀ chunk, .text chunk ∈ es → '\n' ∉ chunk.value.toList) :
    WellSpaced es := by
  refine ⟨h.apart_elements hneat hbreaks, ?_⟩
  intro chunk hlast
  obtain ⟨l, hl, -, hends⟩ := h.ends_elements hneat hlast
  refine (hends chunk.value hl).resolve_right ?_
  -- what is stranded begins with a line break
  rintro ⟨breaks, spaces, blanks, rest, htoken, -⟩
  rw [hl] at htoken
  have hbreak : '\n' ∈ chunk.value.toList := by
    rw [Token.pureText.inj htoken, String.toList_ofList]
    exact List.mem_append_left _ (List.mem_replicate.2 ⟨Nat.succ_ne_zero _, rfl⟩)
  exact hbreaks chunk (List.mem_of_getLast? hlast) hbreak

/-! ## Depths -/

/-- With more around it everything in a phrase is deeper by as much. -/
theorem Derives.depths_add (h : Derives m i p j) (around k : Nat) :
    p.depths (around + k) = (p.depths around).map (· + k) := by
  have hnext (around : Nat) : around + k + 1 = around + 1 + k := Nat.add_right_comm around k 1
  -- everything is counted from what is around it, and a placeable or a call adds one to that on both sides
  induction h generalizing around with
  | string | number | variableRef | term | message | positionalEnd | namedEnd | variantsEnd | noPattern
  | elementsEnd | attributesEnd => rfl
  | termCall _ _ _ _ _ ih => exact ih around
  | function _ _ _ ih => exact ih around
  | nested _ ih => exact ih around
  | select _ _ _ _ _ _ _ ihe ihvs =>
    have he := ihe (around + 1)
    have hvs := ihvs (around + 1)
    simp only [Phrase.depths] at he hvs
    simp only [Phrase.depths, Placeable.depths, Expression.depths, hnext, he, hvs, List.map_cons, List.map_append]
  | placeable _ _ _ _ ih =>
    have he := ih (around + 1)
    simp only [Phrase.depths] at he
    simp only [Phrase.depths, Placeable.depths, hnext, he, List.map_cons]
  | arguments _ _ _ ihes ihas =>
    have hes := ihes (around + 1)
    have has := ihas (around + 1)
    simp only [Phrase.depths] at hes has
    simp only [Phrase.depths, CallArguments.depths, hnext, hes, has, List.map_cons, List.map_append]
  | positionalLast _ _ ih =>
    have he := ih around
    simp only [Phrase.depths] at he
    simp only [Phrase.depths, positionalDepths, he, List.map_append, List.map_nil]
  | positionalCons _ _ _ ihe ihes =>
    have he := ihe around
    have hes := ihes around
    simp only [Phrase.depths] at he hes
    simp only [Phrase.depths, positionalDepths, he, hes, List.map_append]
  | namedLast _ _ _ _ _ ih =>
    have he := ih around
    simp only [Phrase.depths] at he
    simp only [Phrase.depths, namedDepths, NamedArgument.depths, he, List.map_append, List.map_nil]
  | namedCons _ _ _ _ _ _ ihe ihas =>
    have he := ihe around
    have has := ihas around
    simp only [Phrase.depths] at he has
    simp only [Phrase.depths, namedDepths, NamedArgument.depths, he, has, List.map_append]
  | variantsCons _ _ ihv ihvs =>
    have hv := ihv around
    have hvs := ihvs around
    simp only [Phrase.depths] at hv hvs
    simp only [Phrase.depths, variantsDepths, hv, hvs, List.map_append]
  | variant _ _ _ _ ih => exact ih around
  | pattern _ _ _ ih => exact ih around
  | elementsText _ _ ih => exact ih around
  | elementsPlaceable _ _ ihp ihes =>
    have hp := ihp around
    have hes := ihes around
    simp only [Phrase.depths] at hp hes
    simp only [Phrase.depths, elementsDepths, PatternElement.depths, hp, hes, List.map_append]
  | oneAttribute _ _ _ _ ih => exact ih around
  | attributesCons _ _ iha ihas =>
    have ha := iha around
    have has := ihas around
    simp only [Phrase.depths] at ha has
    simp only [Phrase.depths, List.flatMap_cons, ha, has, List.map_append]

/-- A part of a phrase is as deep as it is on its own with something around it. -/
theorem Derives.depths_part {q : Part} (h : Derives m i p j) (hq : q ∈ p.parts) (around : Nat) :
    ∃ b, q.phrase.depths b ⊆ p.depths around := by
  induction h generalizing around with
  | string | number | variableRef | term | message | positionalEnd | namedEnd | variantsEnd | noPattern
  | elementsEnd | attributesEnd => cases hq
  | termCall _ _ _ _ _ ih => exact ih hq around
  | function _ _ _ ih => exact ih hq around
  | nested _ ih => exact ih hq around
  | select _ _ _ _ _ _ _ ihe ihvs =>
    rcases List.mem_cons.1 hq with rfl | hq
    · exact ⟨around, fun _ hd => hd⟩
    rcases List.mem_append.1 hq with hq | hq
    · obtain ⟨b, hb⟩ := ihe hq (around + 1)
      exact ⟨b, fun d hd => List.mem_cons_of_mem _ (List.mem_append_left _ (hb hd))⟩
    · obtain ⟨b, hb⟩ := ihvs hq (around + 1)
      exact ⟨b, fun d hd => List.mem_cons_of_mem _ (List.mem_append_right _ (hb hd))⟩
  | placeable _ _ _ _ ih =>
    rcases List.mem_cons.1 hq with rfl | hq
    · exact ⟨around, fun _ hd => hd⟩
    · obtain ⟨b, hb⟩ := ih hq (around + 1)
      exact ⟨b, fun d hd => List.mem_cons_of_mem _ (hb hd)⟩
  | arguments _ _ _ ihes ihas =>
    rcases List.mem_append.1 hq with hq | hq
    · obtain ⟨b, hb⟩ := ihes hq (around + 1)
      exact ⟨b, fun d hd => List.mem_cons_of_mem _ (List.mem_append_left _ (hb hd))⟩
    · obtain ⟨b, hb⟩ := ihas hq (around + 1)
      exact ⟨b, fun d hd => List.mem_cons_of_mem _ (List.mem_append_right _ (hb hd))⟩
  | positionalLast _ _ ih | namedLast _ _ _ _ _ ih =>
    rcases List.mem_append.1 hq with hq | hq
    · obtain ⟨b, hb⟩ := ih hq around
      exact ⟨b, fun d hd => List.mem_append_left _ (hb hd)⟩
    · cases hq
  | positionalCons _ _ _ ihe ihes | namedCons _ _ _ _ _ _ ihe ihes | variantsCons _ _ ihe ihes
  | elementsPlaceable _ _ ihe ihes =>
    rcases List.mem_append.1 hq with hq | hq
    · obtain ⟨b, hb⟩ := ihe hq around
      exact ⟨b, fun d hd => List.mem_append_left _ (hb hd)⟩
    · obtain ⟨b, hb⟩ := ihes hq around
      exact ⟨b, fun d hd => List.mem_append_right _ (hb hd)⟩
  | variant _ _ _ _ ih => exact ih hq around
  | pattern _ _ _ ih =>
    rcases List.mem_cons.1 hq with rfl | hq
    · exact ⟨around, fun _ hd => hd⟩
    · exact ih hq around
  | elementsText _ _ ih => exact ih hq around
  | oneAttribute _ _ _ _ ih => exact ih hq around
  | attributesCons _ _ iha ihas =>
    simp only [Phrase.parts, List.flatMap_cons, List.mem_append] at hq
    rcases hq with hq | hq
    · obtain ⟨b, hb⟩ := iha hq around
      refine ⟨b, fun d hd => ?_⟩
      rw [Phrase.depths, List.flatMap_cons]
      exact List.mem_append_left _ (hb hd)
    · obtain ⟨b, hb⟩ := ihas hq around
      refine ⟨b, fun d hd => ?_⟩
      rw [Phrase.depths, List.flatMap_cons]
      exact List.mem_append_right _ (hb hd)

/-- A part of an entry is as deep as it is on its own with something around it. -/
theorem Entry.Derived.depths_part {q : Part} {e : Entry} (h : e.Derived m i) (hq : q ∈ e.parts) :
    ∃ b, q.phrase.depths b ⊆ e.depths := by
  cases h with
  | @message _ _ _ _ _ _ value _ _ _ hvalue has _ _ =>
    rcases List.mem_append.1 hq with hq | hq
    · obtain ⟨b, hb⟩ := hvalue.depths_part hq 0
      refine ⟨b, fun d hd => List.mem_append_left _ ?_⟩
      cases value with
      | none => cases hq
      | some value => exact hb hd
    · obtain ⟨b, hb⟩ := has.depths_part hq 0
      exact ⟨b, fun d hd => List.mem_append_right _ (hb hd)⟩
  | term _ _ _ hvalue has _ =>
    rcases List.mem_append.1 hq with hq | hq
    · obtain ⟨b, hb⟩ := hvalue.depths_part hq 0
      exact ⟨b, fun d hd => List.mem_append_left _ (hb hd)⟩
    · obtain ⟨b, hb⟩ := has.depths_part hq 0
      exact ⟨b, fun d hd => List.mem_append_right _ (hb hd)⟩

end

theorem Entry.depths_document (c : Comment) (e : Entry) : (e.document c).depths = e.depths := by
  cases e <;> rfl

/-- **A part of a resource** is within the nesting limit on its own. -/
theorem depths_le_of_part {o : ParseOptions} {source : String} {e : Entry} {q : Part}
    (he : e ∈ (parse o source).body) (hq : q ∈ e.parts) {d : Nat} (hd : d ∈ q.phrase.depths 0) :
    d ≤ o.maxNesting := by
  obtain ⟨c, isTerm, a, e', -, ha, hderived, hdoc⟩ := exists_run_of_entry he (Entry.id?_of_mem_parts hq)
  obtain ⟨hparts, hdepths⟩ : e.parts = e'.parts ∧ e.depths = e'.depths := by
    rcases hdoc with rfl | ⟨comment, rfl⟩
    · exact ⟨rfl, rfl⟩
    · exact ⟨Entry.parts_document comment e', Entry.depths_document comment e'⟩
  obtain ⟨w, hsound⟩ := State.sound_ofHeader ha
  obtain ⟨ds, hwalks, hle⟩ := State.walks_run o.maxNesting hsound
  obtain ⟨b, hb⟩ := hderived.depths_part (hparts ▸ hq)
  obtain ⟨_, _, -, hq'⟩ := hderived.part (hparts ▸ hq)
  have hdeep : d + b ∈ e'.depths := by
    apply hb
    have hadd := hq'.depths_add 0 b
    rw [Nat.zero_add] at hadd
    rw [hadd]
    exact List.mem_map_of_mem hd
  rw [hderived.depths_eq, Input.signs, State.depths_run_ofHeader hwalks] at hdeep
  exact Nat.le_trans (Nat.le_add_right d b) (hle _ hdeep)

end Fluent
