import Fluent.Proofs.Phrase

/-!
# What is derived is read

A derivation leaves the grammar no choice: wherever a function of the grammar looks ahead, the rule it
follows says what is there. So the functions find exactly what is derived, with nothing refused.

* `inline_eq_ok`, `pattern?_eq_ok`, `attributes_eq_ok`, ...: each function finds what is derived for it, and
  leaves the input that the derivation leaves. Together with `derives_inline` and its kin this makes the
  grammar and its functions two descriptions of one thing.
* `Entry.Derived.read`: a derived entry is the one that `entry` returns.
-/

namespace Fluent

/-! ## Reading tokens -/

namespace Input

variable {i j : Input} {l : Lexeme} {ls : List Lexeme}

/-- The next token is the one that is spent. -/
theorem Spends.next? (h : i.Spends [l] j) : ∃ hj, i.next? = some (l, ⟨j, hj⟩) := by
  have hhead : i.lexemes.head? = some l := by rw [h.lexemes]; rfl
  obtain ⟨⟨k, hk⟩, hnext⟩ := exists_next? hhead
  have hspends := spends_next? hnext
  -- what is left is settled by what was there
  have hlexemes : k.lexemes = j.lexemes :=
    List.append_cancel_left (hspends.lexemes.symm.trans h.lexemes)
  have hreadTo : k.readTo = j.readTo := hspends.readTo.trans h.readTo.symm
  obtain rfl : k = j := by
    cases k
    cases j
    simp_all
  exact ⟨hk, hnext⟩

theorem Spends.peek? (h : i.Spends (l :: ls) j) : i.peek? = some l.token := by
  rw [Input.peek?, h.lexemes]
  rfl

end Input

/-- What comes after a step that gave a result goes on with that result. -/
theorem ok_bind {α β : Type} (a : α) (k : α → Except Fault β) : (Except.ok a >>= k) = k a := rfl

namespace Fence

variable {f : Fence} {i j : Input} {e : Expected}

/-- A token that is next is read by what asks for it. The lemmas below say so of what else is made of single tokens. -/
theorem expect_eq_ok {t : Token} {span : Span} (h : i.Spends [⟨t, span⟩] j) :
    ∃ hj, f.expect t e i = .ok (span, ⟨j, hj⟩) := by
  obtain ⟨hj, hnext⟩ := h.next?
  refine ⟨hj, ?_⟩
  unfold expect
  rw [hnext]
  exact if_pos rfl

theorem identifier_eq_ok {id : Identifier} (h : i.SpendsId f.lines id j) :
    ∃ hj, f.identifier e i = .ok (id, ⟨j, hj⟩) := by
  obtain ⟨hspends, hlocation⟩ := h
  obtain ⟨hj, hnext⟩ := hspends.next?
  refine ⟨hj, ?_⟩
  unfold identifier
  rw [hnext]
  simp only
  rw [← hlocation]

theorem identifierAt_eq_ok {id : Identifier} {offset : Nat} (h : i.SpendsId f.lines id j)
    (hoffset : id.location.span.start = offset) : ∃ hj, f.identifierAt offset e i = .ok (id, ⟨j, hj⟩) := by
  obtain ⟨hj, hid⟩ := identifier_eq_ok (e := e) h
  refine ⟨hj, ?_⟩
  unfold identifierAt
  rw [if_pos (h.1.offset_eq.trans hoffset), hid]

theorem number_eq_ok {n : NumberLiteral} (h : i.SpendsNumber f.lines n j) :
    ∃ hj, f.number i e = .ok (n, ⟨j, hj⟩) := by
  obtain ⟨hspends, hlocation, hvalue⟩ := h
  obtain ⟨hj, hnext⟩ := hspends.next?
  refine ⟨hj, ?_⟩
  unfold number
  rw [hnext]
  simp only
  rw [hvalue]
  simp only
  rw [← hlocation]

theorem accessor_eq_ok {accessor : Option Identifier} {offset : Nat}
    (h : Input.SpendsAccessor f.lines offset i accessor j) :
    ∃ hj, f.accessor offset i = .ok (accessor, ⟨j, hj⟩) := by
  cases h with
  | none hdot =>
    refine ⟨Nat.le_refl _, ?_⟩
    unfold Fence.accessor
    split
    · rename_i dot k hk hnext
      have hhead := (Input.spends_next? hnext).lexemes
      have hapart : dot.start ≠ offset := hdot dot (by rw [hhead]; rfl)
      rw [if_neg hapart]
    · rfl
  | some hdot hstart hid htouch =>
    obtain ⟨hj₁, hnext⟩ := hdot.next?
    obtain ⟨hj₂, hread⟩ := identifierAt_eq_ok (e := .accessorName) hid htouch
    refine ⟨by omega, ?_⟩
    unfold Fence.accessor
    rw [hnext]
    simp only
    rw [if_pos hstart, hread]
    rfl

end Fence

theorem variantKey_eq_ok {f : Fence} {i j : Input} {key : VariantKey} (h : i.SpendsKey f.lines key j) :
    ∃ hj, variantKey f i = .ok (key, ⟨j, hj⟩) := by
  cases h with
  | identifier hid =>
    obtain ⟨hj, hread⟩ := Fence.identifier_eq_ok (e := .variantKey) hid
    refine ⟨hj, ?_⟩
    unfold variantKey
    rw [hid.1.peek?, hread]
    rfl
  | number hn =>
    obtain ⟨hj, hread⟩ := Fence.number_eq_ok (e := .variantKey) hn
    refine ⟨hj, ?_⟩
    unfold variantKey
    rw [hn.1.peek?, hread]
    rfl

/-! ## Checks -/

theorem checkVariants_of_oneDefault {f : Fence} {i : Input} {vs : List Variant}
    (h : (vs.filter (·.isDefault)).length = 1) : checkVariants f i vs = .ok () := by
  obtain ⟨v, hv⟩ := List.length_eq_one_iff.1 h
  unfold checkVariants
  split
  · rename_i hnil
    simp_all
  · rw [hv]

theorem checkSelector_of_isSelector {e : Expression} (h : e.isSelector = true) :
    checkSelector e = .ok () := if_pos h

/-! ## The grammar -/

section

variable {m : LineMap} {f : Fence} {i j : Input}

/-- The marker that ends positional arguments begins no expression. -/
theorem inline_ne_ok {marker : Span} {k : Rest i} {r : Expression × Rest i}
    (hnext : i.next? = some (⟨.endPositional, marker⟩, k)) : inline f i ≠ .ok r := by
  rw [inline, hnext]
  nofun

/-- Arguments begin with a parenthesis. -/
theorem peek?_of_arguments {a : CallArguments} (h : Derives m i (.arguments a) j) :
    i.peek? = some .openParen := by
  cases h with
  | arguments hopening _ _ => exact hopening.peek?

/-- A placeable begins with a brace. -/
theorem next?_of_placeable {p : Placeable} (h : Derives m i (.placeable p) j) :
    ∃ span k, i.next? = some (⟨.openBrace, span⟩, k) := by
  have hhead : ∃ span, i.lexemes.head? = some ⟨.openBrace, span⟩ := by
    cases h with
    | select hopening => exact ⟨_, by rw [hopening.lexemes]; rfl⟩
    | placeable hopening => exact ⟨_, by rw [hopening.lexemes]; rfl⟩
  obtain ⟨span, hspan⟩ := hhead
  obtain ⟨k, hnext⟩ := Input.exists_next? hspan
  exact ⟨span, k, hnext⟩

/-- A variant begins with a star or a bracket. -/
theorem peek?_of_variant {v : Variant} (h : Derives m i (.variant v) j) :
    i.peek? = some .star ∨ i.peek? = some .openBracket := by
  cases h with
  | variant hbracket _ _ _ =>
    cases hbracket with
    | plain hbracket => exact .inr hbracket.peek?
    | starred hstar _ => exact .inl hstar.peek?

/-- An attribute begins with a dot. -/
theorem peek?_of_oneAttribute {a : Attribute} (h : Derives m i (.oneAttribute a) j) :
    i.peek? = some .dot := by
  cases h with
  | oneAttribute hdot _ _ _ => exact hdot.peek?

end

/-! Each function of the grammar finds what is derived for its own kind of phrase. A case takes the branch
that its rule names, and what the phrase is made of is found by the functions called there, at inputs with
fewer tokens left. -/

mutual

/-- What is derived of a placeable is read. There is one such lemma for each function of the grammar, and they call each
other as the functions do: the derivations of the parts are smaller. -/
theorem placeable_eq_ok {f : Fence} {i j : Input} {p : Placeable} (h : Derives f.lines i (.placeable p) j) :
    ∃ hj, placeable f i = .ok (p, ⟨j, hj⟩) := by
  cases h with
  | select hopening he harrow hselector hvs hdefault hclosing =>
    obtain ⟨h₁, hopen⟩ := Fence.expect_eq_ok (f := f) (e := .openBrace) hopening
    obtain ⟨h₂, hread⟩ := inline_eq_ok he
    obtain ⟨h₃, hnext⟩ := harrow.next?
    obtain ⟨h₄, hvariants⟩ := variants_eq_ok hvs
    obtain ⟨h₅, hclose⟩ := Fence.expect_eq_ok (f := f) (e := .closeBrace) hclosing
    refine ⟨by omega, ?_⟩
    rw [placeable]
    simp only [hopen, hread, hnext, checkSelector_of_isSelector hselector, hvariants,
      checkVariants_of_oneDefault hdefault, hclose, ok_bind]
    rfl
  | placeable hopening he hplaced hclosing =>
    obtain ⟨h₁, hopen⟩ := Fence.expect_eq_ok (f := f) (e := .openBrace) hopening
    obtain ⟨h₂, hread⟩ := inline_eq_ok he
    obtain ⟨h₃, hnext⟩ := hclosing.next?
    obtain ⟨h₄, hclose⟩ := Fence.expect_eq_ok (f := f) (e := .closeBrace) hclosing
    refine ⟨by omega, ?_⟩
    rw [placeable]
    simp only [hopen, hread, hnext, hplaced, hclose, ok_bind]
    rfl
termination_by 3 * i.left
decreasing_by all_goals omega

theorem inline_eq_ok {f : Fence} {i j : Input} {e : Expression} (h : Derives f.lines i (.inline e) j) :
    ∃ hj, inline f i = .ok (e, ⟨j, hj⟩) := by
  cases h with
  | string hs hvalue =>
    obtain ⟨hj, hnext⟩ := hs.next?
    refine ⟨hj, ?_⟩
    rw [inline]
    simp only [hnext, hvalue]
  | number hn =>
    obtain ⟨hj, hread⟩ := Fence.number_eq_ok (e := .number) hn
    obtain ⟨hj', hnext⟩ := hn.1.next?
    refine ⟨hj, ?_⟩
    rw [inline]
    simp only [hnext, hread, ok_bind]
    rfl
  | variableRef hdollar hid htouch =>
    obtain ⟨h₁, hnext⟩ := hdollar.next?
    obtain ⟨h₂, hread⟩ := Fence.identifierAt_eq_ok (e := .variableName) hid htouch
    refine ⟨by omega, ?_⟩
    rw [inline]
    simp only [hnext, hread, ok_bind]
    rfl
  | term hminus hid htouch hacc hparen =>
    obtain ⟨h₁, hnext⟩ := hminus.next?
    obtain ⟨h₂, hread⟩ := Fence.identifierAt_eq_ok (e := .termName) hid htouch
    obtain ⟨h₃, hread'⟩ := Fence.accessor_eq_ok hacc
    refine ⟨by omega, ?_⟩
    rw [inline]
    simp only [hnext, hread, hread', if_neg hparen, ok_bind]
    rfl
  | termCall hminus hid htouch hacc ha =>
    obtain ⟨h₁, hnext⟩ := hminus.next?
    obtain ⟨h₂, hread⟩ := Fence.identifierAt_eq_ok (e := .termName) hid htouch
    obtain ⟨h₃, hread'⟩ := Fence.accessor_eq_ok hacc
    obtain ⟨h₄, harguments⟩ := callArguments_eq_ok ha
    refine ⟨by omega, ?_⟩
    rw [inline]
    simp only [hnext, hread, hread', if_pos (peek?_of_arguments ha), harguments, ok_bind]
    rfl
  | message hid hparen hacc =>
    obtain ⟨h₁, hnext⟩ := hid.1.next?
    obtain ⟨h₂, hread⟩ := Fence.accessor_eq_ok hacc
    refine ⟨by omega, ?_⟩
    rw [inline]
    simp only [hnext, if_neg hparen, hread, ok_bind, ← hid.2]
    rfl
  | function hid hname ha =>
    obtain ⟨h₁, hnext⟩ := hid.1.next?
    obtain ⟨h₂, harguments⟩ := callArguments_eq_ok ha
    refine ⟨by omega, ?_⟩
    rw [inline]
    simp only [hnext, if_pos (peek?_of_arguments ha), hname, harguments, ok_bind, ← hid.2]
    rfl
  | nested hp =>
    obtain ⟨hj, hread⟩ := placeable_eq_ok hp
    obtain ⟨span, k, hnext⟩ := next?_of_placeable hp
    refine ⟨hj, ?_⟩
    rw [inline]
    simp only [hnext, hread, ok_bind]
    rfl
termination_by 3 * i.left + 1
decreasing_by all_goals omega

theorem callArguments_eq_ok {f : Fence} {i j : Input} {a : CallArguments}
    (h : Derives f.lines i (.arguments a) j) : ∃ hj, callArguments f i = .ok (a, ⟨j, hj⟩) := by
  cases h with
  | arguments hopening hes has =>
    obtain ⟨h₁, hopen⟩ := Fence.expect_eq_ok (f := f) (e := .openParen) hopening
    obtain ⟨h₂, hpositional⟩ := positionalArguments_eq_ok hes
    obtain ⟨h₃, hnamed⟩ := namedArguments_eq_ok has
    refine ⟨by omega, ?_⟩
    rw [callArguments]
    simp only [hopen, hpositional, hnamed, ok_bind]
    rfl
termination_by 3 * i.left
decreasing_by all_goals omega

/-- Positional arguments are read up to their marker. Behind each of them is a comma, or the marker itself. -/
theorem positionalArguments_eq_ok {f : Fence} {i j : Input} {es : List Expression}
    (h : Derives f.lines i (.positional es) j) : ∃ hj, positionalArguments f i = .ok (es, ⟨j, hj⟩) := by
  cases h with
  | positionalEnd hmarker =>
    obtain ⟨hj, hnext⟩ := hmarker.next?
    refine ⟨hj, ?_⟩
    rw [positionalArguments, hnext]
  | positionalLast he hmarker =>
    obtain ⟨h₁, hread⟩ := inline_eq_ok he
    obtain ⟨h₂, hnext⟩ := hmarker.next?
    refine ⟨by omega, ?_⟩
    rw [positionalArguments]
    split
    · rename_i hend
      exact absurd hread (inline_ne_ok hend)
    · simp only [hread, hnext, ok_bind]
      rfl
  | positionalCons he hcomma hes =>
    obtain ⟨h₁, hread⟩ := inline_eq_ok he
    obtain ⟨h₂, hnext⟩ := hcomma.next?
    obtain ⟨h₃, hmore⟩ := positionalArguments_eq_ok hes
    refine ⟨by omega, ?_⟩
    rw [positionalArguments]
    split
    · rename_i hend
      exact absurd hread (inline_ne_ok hend)
    · simp only [hread, hnext, hmore, ok_bind]
      rfl
termination_by 3 * i.left + 2
decreasing_by all_goals omega

/-- Named arguments are read up to the parenthesis. None of them has a name that was seen, since the derivation says
so. -/
theorem namedArguments_eq_ok {f : Fence} {seen : List String} {i j : Input} {as : List NamedArgument}
    {closing : Span} (h : Derives f.lines i (.named seen as closing) j) :
    ∃ hj, namedArguments f seen i = .ok (as, closing, ⟨j, hj⟩) := by
  cases h with
  | namedEnd hclosing =>
    obtain ⟨hj, hnext⟩ := hclosing.next?
    refine ⟨hj, ?_⟩
    rw [namedArguments, hnext]
  | namedLast hid hcolon he hseen hclosing =>
    obtain ⟨h₁, hname⟩ := hid.1.next?
    obtain ⟨h₂, hnext⟩ := hcolon.next?
    obtain ⟨h₃, hread⟩ := inline_eq_ok he
    obtain ⟨h₄, hnext'⟩ := hclosing.next?
    refine ⟨by omega, ?_⟩
    rw [namedArguments]
    simp only [hname, hnext, hread, hnext', ok_bind, ← hid.2]
    rw [if_neg (by simpa using hseen)]
    rfl
  | namedCons hid hcolon he hseen hcomma has =>
    obtain ⟨h₁, hname⟩ := hid.1.next?
    obtain ⟨h₂, hnext⟩ := hcolon.next?
    obtain ⟨h₃, hread⟩ := inline_eq_ok he
    obtain ⟨h₄, hnext'⟩ := hcomma.next?
    obtain ⟨h₅, hmore⟩ := namedArguments_eq_ok has
    refine ⟨by omega, ?_⟩
    rw [namedArguments]
    simp only [hname, hnext, hread, hnext', hmore, ok_bind, ← hid.2]
    rw [if_neg (by simpa using hseen)]
    rfl
termination_by 3 * i.left
decreasing_by all_goals omega

/-- Variants are read as long as a bracket or a star is next, and the derivation says what is next behind the last of
them. -/
theorem variants_eq_ok {f : Fence} {i j : Input} {vs : List Variant}
    (h : Derives f.lines i (.variants vs) j) : ∃ hj, variants f i = .ok (vs, ⟨j, hj⟩) := by
  cases h with
  | variantsEnd hstar hbracket =>
    refine ⟨Nat.le_refl _, ?_⟩
    rw [variants, if_neg (by simp [hstar, hbracket])]
  | variantsCons hv hvs =>
    obtain ⟨h₁, hread⟩ := variant_eq_ok hv
    obtain ⟨h₂, hmore⟩ := variants_eq_ok hvs
    refine ⟨by omega, ?_⟩
    rw [variants, if_pos (peek?_of_variant hv)]
    simp only [hread, hmore, ok_bind]
    rfl
termination_by 3 * i.left + 1
decreasing_by all_goals omega

theorem variant_eq_ok {f : Fence} {i j : Input} {v : Variant} (h : Derives f.lines i (.variant v) j) :
    ∃ hj, variant f i = .ok (v, ⟨j, hj⟩) := by
  cases h with
  | variant hbracket hkey hclosing hvalue =>
    obtain ⟨h₂, hread⟩ := variantKey_eq_ok hkey
    obtain ⟨h₃, hclose⟩ := Fence.expect_eq_ok (f := f) (e := .closeBracket) hclosing
    -- the star in front of the bracket is read where there is one
    cases hbracket with
    | plain hbracket =>
      obtain ⟨h₁, hnext⟩ := hbracket.next?
      obtain ⟨h₁, hopen⟩ := Fence.expect_eq_ok (f := f) (e := .openBracket) hbracket
      obtain ⟨h₄, hpattern⟩ := pattern?_eq_ok hvalue
      refine ⟨by omega, ?_⟩
      rw [variant, hnext]
      simp only [hopen, hread, hclose, hpattern, hbracket.offset_eq, ok_bind]
      rfl
    | starred hstar hbracket =>
      obtain ⟨h₀, hnext⟩ := hstar.next?
      obtain ⟨h₁, hopen⟩ := Fence.expect_eq_ok (f := f) (e := .openBracket) hbracket
      obtain ⟨h₄, hpattern⟩ := pattern?_eq_ok hvalue
      refine ⟨by omega, ?_⟩
      rw [variant, hnext]
      simp only [hopen, hread, hclose, hpattern, hstar.offset_eq, ok_bind]
      rfl
termination_by 3 * i.left
decreasing_by all_goals omega

theorem pattern?_eq_ok {f : Fence} {i j : Input} {p : Option Pattern}
    (h : Derives f.lines i (.pattern p) j) : ∃ hj, pattern? f i = .ok (p, ⟨j, hj⟩) := by
  cases h with
  | noPattern hmarker =>
    obtain ⟨hj, hnext⟩ := hmarker.next?
    refine ⟨hj, ?_⟩
    rw [pattern?, hnext]
  | pattern hmarker hes hlocation =>
    obtain ⟨h₁, hnext⟩ := hmarker.next?
    obtain ⟨h₂, hread⟩ := patternElements_eq_ok hes
    refine ⟨by omega, ?_⟩
    rw [pattern?]
    simp only [hnext, hread, hlocation, ok_bind]
    rfl
termination_by 3 * i.left
decreasing_by all_goals omega

theorem patternElements_eq_ok {f : Fence} {i j : Input} {es : List PatternElement}
    (h : Derives f.lines i (.elements es) j) : ∃ hj, patternElements f i = .ok (es, ⟨j, hj⟩) := by
  cases h with
  | elementsEnd hmarker =>
    obtain ⟨hj, hnext⟩ := hmarker.next?
    refine ⟨hj, ?_⟩
    rw [patternElements, hnext]
  | elementsText htext hes =>
    obtain ⟨h₁, hnext⟩ := htext.next?
    obtain ⟨h₂, hmore⟩ := patternElements_eq_ok hes
    refine ⟨by omega, ?_⟩
    rw [patternElements]
    simp only [hnext, hmore, ok_bind]
    rfl
  | elementsPlaceable hp hes =>
    obtain ⟨h₁, hread⟩ := placeable_eq_ok hp
    obtain ⟨h₂, hmore⟩ := patternElements_eq_ok hes
    obtain ⟨span, k, hnext⟩ := next?_of_placeable hp
    refine ⟨by omega, ?_⟩
    rw [patternElements]
    simp only [hnext, hread, hmore, ok_bind]
    rfl
termination_by 3 * i.left + 1
decreasing_by all_goals omega

end

theorem oneAttribute_eq_ok {f : Fence} {i j : Input} {a : Attribute}
    (h : Derives f.lines i (.oneAttribute a) j) : ∃ hj, oneAttribute f i = .ok (a, ⟨j, hj⟩) := by
  cases h with
  | oneAttribute hdot hid hequals hvalue =>
    obtain ⟨h₁, hread₁⟩ := Fence.expect_eq_ok (f := f) (e := .entryEnd) hdot
    obtain ⟨h₂, hread₂⟩ := Fence.identifier_eq_ok (e := .attributeName) hid
    obtain ⟨h₃, hread₃⟩ := Fence.expect_eq_ok (f := f) (e := .equals) hequals
    obtain ⟨h₄, hpattern⟩ := pattern?_eq_ok hvalue
    refine ⟨by omega, ?_⟩
    unfold oneAttribute
    simp only [hread₁, hread₂, hread₃, hpattern, ok_bind]
    rfl

/-- Attributes are read as long as a dot is next, and the derivation says that none is behind the last of them. -/
theorem attributes_eq_ok {f : Fence} {i j : Input} {as : List Attribute}
    (h : Derives f.lines i (.attributes as) j) : attributes f i = .ok (as, j) := by
  cases h with
  | attributesEnd hdot => rw [attributes, if_neg hdot]
  | attributesCons ha has =>
    obtain ⟨h₁, hread⟩ := oneAttribute_eq_ok ha
    rw [attributes, if_pos (peek?_of_oneAttribute ha)]
    simp only [hread, attributes_eq_ok has, ok_bind]
    rfl
termination_by i.left
decreasing_by all_goals omega

/-! ## Entries -/

/-- **An entry that is derived is read.** The relation has a rule for each way in which a function of the grammar can
succeed, and no two of them apply to the same tokens: so wherever it holds, reading comes to this entry. -/
theorem Entry.Derived.read {f : Fence} {i : Input} {e : Entry} (h : e.Derived f.lines i) :
    entry f i = .ok e := by
  cases h with
  | message hid hequals hvalue has hend hcontent =>
    obtain ⟨hfirst, hnext⟩ := hid.1.next?
    obtain ⟨h₁, hread₁⟩ := Fence.identifier_eq_ok (e := .entryName) hid
    obtain ⟨h₂, hread₂⟩ := Fence.expect_eq_ok (f := f) (e := .equals) hequals
    obtain ⟨h₃, hread₃⟩ := pattern?_eq_ok hvalue
    unfold entry
    rw [hnext]
    simp only [hread₁, hread₂, hread₃, attributes_eq_ok has, hend, hid.1.offset_eq, ok_bind]
    rename_i value as
    cases value with
    | some value => rfl
    | none =>
      cases as with
      | nil => exact absurd rfl (hcontent rfl)
      | cons => rfl
  | term hminus hid hequals hvalue has hend =>
    obtain ⟨hfirst, hnext⟩ := hminus.next?
    obtain ⟨h₁, hread₁⟩ := Fence.identifier_eq_ok (e := .entryName) hid
    obtain ⟨h₂, hread₂⟩ := Fence.expect_eq_ok (f := f) (e := .equals) hequals
    obtain ⟨h₃, hread₃⟩ := pattern?_eq_ok hvalue
    unfold entry
    rw [hnext]
    simp only [hread₁, hread₂, hread₃, attributes_eq_ok has, hend, hminus.offset_eq, ok_bind]
    rfl

end Fluent
