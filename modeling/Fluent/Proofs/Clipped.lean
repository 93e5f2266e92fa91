import Fluent.Proofs.Determined
import Fluent.Proofs.Trimmed
import Fluent.Proofs.Written

/-!
# Entries with their markers elsewhere

The grammar reads a marker wherever it stands. So an entry stays the same when the markers behind its text are
placed at the end of the text. And of the tokens of an entry none is unfinished, and the last is the marker that
ends a value.

* `Derives.clip`, `Entry.Derived.clip`: what is derived is derived from clipped tokens.
* `Entry.isUnfinished_eq_false`: an entry has no token that stands for a part of a line without a place in it.
* `Entry.Derived.isMarker_getLast?`: the last token of an entry is a marker.
-/

namespace Fluent

variable {m : LineMap} {n : Nat}

/-! ## Clipped tokens -/

/-- The input with its markers no further on than `n`. -/
def Input.clip (n : Nat) (i : Input) : Input := ⟨i.lexemes.map (Lexeme.clip n), i.readTo⟩

theorem readThrough_clip (r : Nat) (ls : List Lexeme) : readThrough r (ls.map (Lexeme.clip n)) = readThrough r ls := by
  unfold readThrough
  rw [List.foldl_map]
  congr 1
  funext r l
  cases hl : l.token.isMarker with
  | true => simp [hl]
  | false => rw [Lexeme.clip_of_not_isMarker hl, hl]

namespace Input

variable {i j : Input} {ls : List Lexeme}

theorem peek?_clip (i : Input) : (i.clip n).peek? = i.peek? := by
  simp only [peek?, clip, List.head?_map, Option.map_map]
  exact congrArg (fun f => i.lexemes.head?.map f) (funext fun l => l.token_clip)

/-- Clipped tokens are read alike: only markers are clipped, and these have no part in how far was read. -/
theorem Spends.clip (h : i.Spends ls j) : (i.clip n).Spends (ls.map (Lexeme.clip n)) (j.clip n) := by
  refine ⟨?_, ?_⟩
  · simp only [Input.clip, h.lexemes, List.map_append]
  · rw [readThrough_clip]
    exact h.readTo

theorem SpendsId.clip {id : Identifier} (h : i.SpendsId m id j) : (i.clip n).SpendsId m id (j.clip n) :=
  ⟨h.1.clip, h.2⟩

theorem SpendsNumber.clip {literal : NumberLiteral} (h : i.SpendsNumber m literal j) :
    (i.clip n).SpendsNumber m literal (j.clip n) :=
  ⟨h.1.clip, h.2⟩

theorem SpendsAccessor.clip {offset : Nat} {accessor : Option Identifier}
    (h : SpendsAccessor m offset i accessor j) : SpendsAccessor m offset (i.clip n) accessor (j.clip n) := by
  cases h with
  | none hdot =>
    refine .none ?_
    intro span hspan
    cases hhead : i.lexemes.head? with
    | none => simp [Input.clip, hhead] at hspan
    | some l =>
      simp only [Input.clip, List.head?_map, hhead, Option.map_some, Option.some.injEq] at hspan
      -- a dot is no marker, so it stands where it stood
      have htoken : l.token = .dot := by rw [← l.token_clip (n := n), hspan]
      rw [Lexeme.clip_of_not_isMarker (by rw [htoken]; rfl)] at hspan
      exact hdot span (hspan ▸ hhead)
  | some hdot hstart hid htouch => exact .some hdot.clip hstart hid.clip htouch

theorem SpendsKey.clip {key : VariantKey} (h : i.SpendsKey m key j) : (i.clip n).SpendsKey m key (j.clip n) := by
  cases h with
  | identifier hid => exact .identifier hid.clip
  | number hnumber => exact .number hnumber.clip

theorem SpendsBracket.clip {isDefault : Bool} {start : Nat} (h : i.SpendsBracket isDefault start j) :
    (i.clip n).SpendsBracket isDefault start (j.clip n) := by
  cases h with
  | plain hbracket => exact .plain hbracket.clip
  | starred hstar hbracket => exact .starred hstar.clip hbracket.clip

end Input

variable {i j : Input} {p : Phrase}

/-- **What is derived is derived from clipped tokens**, at the same locations. -/
theorem Derives.clip (n : Nat) (h : Derives m i p j) : Derives m (i.clip n) p (j.clip n) := by
  induction h with
  | string hstring hvalue => exact .string hstring.clip hvalue
  | number hnumber => exact .number hnumber.clip
  | variableRef hdollar hid htouch => exact .variableRef hdollar.clip hid.clip htouch
  | term hminus hid htouch haccessor hparen =>
    exact .term hminus.clip hid.clip htouch haccessor.clip (by rwa [Input.peek?_clip])
  | termCall hminus hid htouch haccessor _ ih => exact .termCall hminus.clip hid.clip htouch haccessor.clip ih
  | message hid hparen haccessor => exact .message hid.clip (by rwa [Input.peek?_clip]) haccessor.clip
  | function hid hname _ ih => exact .function hid.clip hname ih
  | nested _ ih => exact .nested ih
  | select hopen _ harrow hselector _ hdefault hclose ihe ihvs =>
    have hselect := Derives.select hopen.clip ihe harrow.clip hselector ihvs hdefault hclose.clip
    exact hselect
  | placeable hopen _ hplaced hclose ih => exact .placeable hopen.clip ih hplaced hclose.clip
  | arguments hopen _ _ ihes ihas => exact .arguments hopen.clip ihes ihas
  | positionalEnd hmarker => exact .positionalEnd hmarker.clip
  | positionalLast _ hmarker ih => exact .positionalLast ih hmarker.clip
  | positionalCons _ hcomma _ ihe ihes => exact .positionalCons ihe hcomma.clip ihes
  | namedEnd hclose => exact .namedEnd hclose.clip
  | namedLast hname hcolon _ hfresh hclose ih => exact .namedLast hname.clip hcolon.clip ih hfresh hclose.clip
  | namedCons hname hcolon _ hfresh hcomma _ ihe ihas =>
    exact .namedCons hname.clip hcolon.clip ihe hfresh hcomma.clip ihas
  | variantsEnd hstar hbracket =>
    exact .variantsEnd (by rwa [Input.peek?_clip]) (by rwa [Input.peek?_clip])
  | variantsCons _ _ ihv ihvs => exact .variantsCons ihv ihvs
  | variant hbracket hkey hclose _ ih => exact .variant hbracket.clip hkey.clip hclose.clip ih
  | noPattern hmarker => exact .noPattern hmarker.clip
  | pattern hmarker _ hbox ih => exact .pattern hmarker.clip ih hbox
  | elementsEnd hmarker => exact .elementsEnd hmarker.clip
  | elementsText htext _ ih => exact .elementsText htext.clip ih
  | elementsPlaceable _ _ ihp ihes => exact .elementsPlaceable ihp ihes
  | oneAttribute hdot hid hequals _ ih => exact .oneAttribute hdot.clip hid.clip hequals.clip ih
  | attributesEnd hdot => exact .attributesEnd (by rwa [Input.peek?_clip])
  | attributesCons _ _ iha ihas => exact .attributesCons iha ihas

/-- **An entry is derived from clipped tokens**, at the same locations. -/
theorem Entry.Derived.clip (n : Nat) {e : Entry} (h : e.Derived m i) : e.Derived m (i.clip n) := by
  have hnil : ∀ {j : Input}, j.lexemes = [] → (j.clip n).lexemes = [] := by
    intro j hj
    simp [Input.clip, hj]
  cases h with
  | message hid hequals hvalue has hend hcontent =>
    have hmessage := Derived.message hid.clip hequals.clip (hvalue.clip n) (has.clip n) (hnil hend) hcontent
    exact hmessage
  | term hminus hid hequals hvalue has hend =>
    have hterm := Derived.term hminus.clip hid.clip hequals.clip (hvalue.clip n) (has.clip n) (hnil hend)
    exact hterm

/-! ## The tokens of an entry -/

/-- No token of these stands for a part of a line without a place in an entry. -/
def AllFinished (ts : List Token) : Prop := ∀ t ∈ ts, t.isUnfinished = false

theorem AllFinished.nil : AllFinished [] := fun _ h => absurd h List.not_mem_nil

theorem AllFinished.cons {t : Token} {ts : List Token} (ht : t.isUnfinished = false) (h : AllFinished ts) :
    AllFinished (t :: ts) := List.forall_mem_cons.2 ⟨ht, h⟩

theorem AllFinished.append {ts us : List Token} (ht : AllFinished ts) (hu : AllFinished us) :
    AllFinished (ts ++ us) := List.forall_mem_append.2 ⟨ht, hu⟩

theorem allFinished_accessor (accessor : Option Identifier) : AllFinished (accessorTokens accessor) := by
  cases accessor with
  | none => exact .nil
  | some id => exact .cons rfl (.cons rfl .nil)

mutual

/-- No tree is written with a token that stands for a part of a line without a place in an entry. This goes for each
kind of tree below. -/
theorem Expression.allFinished : ∀ e : Expression, AllFinished e.tokens
  | .string .. => .cons rfl .nil
  | .number _ => .cons rfl .nil
  | .variableRef .. => .cons rfl (.cons rfl .nil)
  | .messageRef _ accessor _ => .cons rfl (allFinished_accessor accessor)
  | .termRef _ accessor none _ => .cons rfl (.cons rfl ((allFinished_accessor accessor).append .nil))
  | .termRef _ accessor (some a) _ => .cons rfl (.cons rfl ((allFinished_accessor accessor).append a.allFinished))
  | .functionRef _ a _ => .cons rfl a.allFinished
  | .select e vs _ => e.allFinished.append (.cons rfl (allFinished_variants vs))
  | .placeable p => p.allFinished

theorem Placeable.allFinished : ∀ p : Placeable, AllFinished p.tokens
  | ⟨e, _⟩ => .cons rfl (e.allFinished.append (.cons rfl .nil))

theorem CallArguments.allFinished : ∀ a : CallArguments, AllFinished a.tokens
  | ⟨es, as, _⟩ =>
    .cons rfl ((allFinished_positional es).append (.cons rfl ((allFinished_named as).append (.cons rfl .nil))))

theorem allFinished_positional : ∀ es : List Expression, AllFinished (positionalTokens es)
  | [] => .nil
  | e :: es => e.allFinished.append (allFinished_positional es)

theorem allFinished_named : ∀ as : List NamedArgument, AllFinished (namedTokens as)
  | [] => .nil
  | a :: as => a.allFinished.append (allFinished_named as)

theorem NamedArgument.allFinished : ∀ a : NamedArgument, AllFinished a.tokens
  | ⟨_, e, _⟩ => .cons rfl (.cons rfl e.allFinished)

theorem allFinished_variants : ∀ vs : List Variant, AllFinished (variantsTokens vs)
  | [] => .nil
  | v :: vs => v.allFinished.append (allFinished_variants vs)

theorem Variant.allFinished : ∀ v : Variant, AllFinished v.tokens
  | ⟨.identifier _, p, false, _⟩ => .cons rfl (.cons rfl (.cons rfl p.allFinished))
  | ⟨.number _, p, false, _⟩ => .cons rfl (.cons rfl (.cons rfl p.allFinished))
  | ⟨.identifier _, p, true, _⟩ => .cons rfl (.cons rfl (.cons rfl (.cons rfl p.allFinished)))
  | ⟨.number _, p, true, _⟩ => .cons rfl (.cons rfl (.cons rfl (.cons rfl p.allFinished)))

theorem Pattern.allFinished : ∀ p : Pattern, AllFinished p.tokens
  | ⟨es, _⟩ => .cons rfl ((allFinished_elements es).append (.cons rfl .nil))

theorem allFinished_elements : ∀ es : List PatternElement, AllFinished (elementsTokens es)
  | [] => .nil
  | e :: es => e.allFinished.append (allFinished_elements es)

theorem PatternElement.allFinished : ∀ e : PatternElement, AllFinished e.tokens
  | .text _ => .cons rfl .nil
  | .placeable p => p.allFinished

end

theorem allFinished_attributes (as : List Attribute) : AllFinished (as.flatMap Attribute.tokens) := by
  induction as with
  | nil => exact .nil
  | cons a as ih => exact AllFinished.append (.cons rfl (.cons rfl (.cons rfl a.value.allFinished))) ih

/-- No token of an entry stands for a part of a line without a place in it. -/
theorem Entry.allFinished (e : Entry) : AllFinished e.tokens := by
  cases e with
  | message msg =>
    have hvalue : AllFinished (valueTokens msg.value) := by
      cases msg.value with
      | none => exact .cons rfl .nil
      | some p => exact p.allFinished
    exact .cons rfl (.cons rfl (hvalue.append (allFinished_attributes msg.attributes)))
  | term t => exact .cons rfl (.cons rfl (.cons rfl (t.value.allFinished.append (allFinished_attributes t.attributes))))
  | comment | junk => exact .nil

/-- A pattern ends with its marker. -/
theorem Pattern.getLast?_tokens (p : Pattern) : p.tokens.getLast? = some .patternEnd := by
  obtain ⟨es, location⟩ := p
  simp [Pattern.tokens, List.getLast?_cons]

/-- Attributes end as values do. -/
theorem isMarker_getLast?_attributes {ts : List Token} (hts : ∀ t ∈ ts.getLast?, t.isMarker = true)
    (as : List Attribute) : ∀ t ∈ (ts ++ as.flatMap Attribute.tokens).getLast?, t.isMarker = true := by
  induction as generalizing ts with
  | nil => simpa using hts
  | cons a as ih =>
    rw [List.flatMap_cons, ← List.append_assoc]
    apply ih
    intro t ht
    simp [Attribute.tokens, List.getLast?_cons, List.getLast?_append, a.value.getLast?_tokens] at ht
    rw [← ht]
    rfl

/-- The last token of an entry is the marker of a value. -/
theorem Entry.isMarker_getLast? (e : Entry) : ∀ t ∈ e.tokens.getLast?, t.isMarker = true := by
  cases e with
  | message msg =>
    have hvalue : ∀ t ∈ (Token.identifier msg.id.name :: .equals :: valueTokens msg.value).getLast?,
        t.isMarker = true := by
      cases msg.value with
      | none => simp [valueTokens, Token.isMarker]
      | some p => simp [valueTokens, List.getLast?_cons, p.getLast?_tokens, Token.isMarker]
    exact isMarker_getLast?_attributes hvalue msg.attributes
  | term t =>
    have hvalue : ∀ k ∈ (Token.minus :: .identifier t.id.name :: .equals :: t.value.tokens).getLast?,
        k.isMarker = true := by
      simp [List.getLast?_cons, t.value.getLast?_tokens, Token.isMarker]
    exact isMarker_getLast?_attributes hvalue t.attributes
  | comment | junk => simp [Entry.tokens]

/-- No token that is read as part of an entry is unfinished. -/
theorem Entry.Derived.finished {e : Entry} (h : e.Derived m i) {l : Lexeme} (hl : l ∈ i.lexemes) :
    l.token.isUnfinished = false := by
  by_cases hcomma : l.token = .comma
  · rw [hcomma]
    rfl
  · apply e.allFinished
    rw [← h.spells.1]
    exact List.mem_filter.2 ⟨List.mem_map_of_mem hl, by simpa using hcomma⟩

/-- No entry ends with a name. -/
theorem Entry.Derived.getLast?_ne_identifier {e : Entry} (h : e.Derived m i) {name : String} {span : Span} :
    i.lexemes.getLast? ≠ some ⟨.identifier name, span⟩ := by
  intro hlast
  have htokens : (withoutCommas i.lexemes).getLast? = some (.identifier name) := by
    rw [List.getLast?_eq_some_iff] at hlast
    obtain ⟨ls, hls⟩ := hlast
    simp [withoutCommas, hls]
  rw [h.spells.1] at htokens
  have := e.isMarker_getLast? _ htokens
  simp [Token.isMarker] at this

end Fluent
