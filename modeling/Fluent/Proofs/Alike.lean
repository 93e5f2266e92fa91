import Fluent.Proofs.Likeness

/-!
# The grammar reads alike

The walk over the grammar, made once for any likeness: each function takes the same branch in both readings, and what
it returns agrees as far as the likeness asks. Only positional arguments are irregular, since behind the parenthesis
or a comma in front of them the readings may have parted.

* `like_inline`, `like_callArguments`, `like_pattern?`, `like_attributes`, ...: the functions of the grammar.
* `like_entry`: a whole entry.
-/

namespace Fluent

variable {K : Likeness} {f f' : Fence} {i i' : Input}

/-- The brace that closes a placeable. -/
theorem like_closed (hf : K.Fits f f') (hi : K.Inputs i i') {e e' : Expression}
    (he : K.Same Expression.relocate e e') {o o' : Nat} (ho : K.offset o o') {p p' : Input → Prop}
    (hp : ∀ j : Input, j.left < i.left → p j) (hp' : ∀ j : Input, j.left < i'.left → p' j) :
    Alike K.fault (K.Reread (K.Located Placeable.relocate Placeable.location))
      (do
        let (closing, ⟨j, hj⟩) ← f.expect .closeBrace .closeBrace i
        return ((⟨e, f.locate o closing.stop⟩, ⟨j, hp j hj⟩) : Placeable × Subtype p))
      (do
        let (closing, ⟨j, hj⟩) ← f'.expect .closeBrace .closeBrace i'
        return ((⟨e', f'.locate o' closing.stop⟩, ⟨j, hp' j hj⟩) : Placeable × Subtype p')) := by
  refine (like_expect rfl hf hi).read ?_
  intro closing closing' j j' hj hj' hclosing hrest
  refine .ok ⟨⟨?_, ho, hclosing.stop⟩, hrest⟩
  show Placeable.mk (e'.relocate K.view') (K.view' _) = ⟨e.relocate K.view, K.view _⟩
  rw [he, hf.locate ho hclosing.stop]

mutual

-- the theorems follow the recursion of the grammar: in every call fewer tokens are left

/-- A placeable is read alike. The functions below call each other, and the induction is on what is left of the tokens,
as it is for the functions. -/
theorem like_placeable (hf : K.Fits f f') {i i' : Input} (hi : K.Inputs i i') :
    Alike K.fault (K.Reread (K.Located Placeable.relocate Placeable.location)) (placeable f i) (placeable f' i') := by
  rw [placeable, placeable]
  refine (like_expect rfl hf hi).read ?_
  intro opening opening' i₁ i₁' h₁ h₁' hopening hi₁
  refine (like_inline hf hi₁).read ?_
  intro e e' i₂ i₂' h₂ h₂' he hi₂
  simp only
  rcases hi₂.next? with ⟨hnone, hnone'⟩ | ⟨t, span, span', i₃, i₃', h₃, h₃', hnext, hnext', -, hi₃⟩
  · rw [hnone, hnone']
    exact (like_checkPlaced he).bind fun _ _ _ => like_closed hf hi₂ he.same hopening.start _ _
  · rw [hnext, hnext']
    cases t with
    | arrow =>
      refine (like_checkSelector he).bind ?_
      intro _ _ _
      refine (like_variants hf (hi₃.inputs rfl)).read ?_
      intro vs vs' i₄ i₄' h₄ h₄' hvs hi₄
      refine (like_checkVariants hf hi₄ hvs).bind ?_
      intro _ _ _
      have hlocation := hf.locate he.spans.start hi₄.readTo
      have hselect : K.Same Expression.relocate
          (.select e vs (f.locate e.location.span.start i₄.readTo))
          (.select e' vs' (f'.locate e'.location.span.start i₄'.readTo)) := by
        show Expression.select (e'.relocate K.view') (relocateVariants K.view' vs') (K.view' _) =
          .select (e.relocate K.view) (relocateVariants K.view vs) (K.view _)
        rw [he.same, hlocation, K.relocateVariants_of_forall₂ hvs]
      exact like_closed hf hi₄ hselect hopening.start _ _
    | _ => exact (like_checkPlaced he).bind fun _ _ _ => like_closed hf hi₂ he.same hopening.start _ _
termination_by 3 * i.left
decreasing_by all_goals omega

/-- An expression is read alike: the branch is chosen by the kinds of the next two tokens, and by whether a name touches
its sign. -/
theorem like_inline (hf : K.Fits f f') {i i' : Input} (hi : K.Inputs i i') :
    Alike K.fault (K.Reread (K.Located Expression.relocate Expression.location)) (inline f i) (inline f' i') := by
  rw [inline, inline]
  rcases hi.next? with ⟨hnone, hnone'⟩ | ⟨t, span, span', i₁, i₁', h₁, h₁', hnext, hnext', hl, hi₁⟩
  · rw [hnone, hnone']
    exact hi.fault hf
  rw [hnext, hnext']
  have hspan : K.Spans span span' := K.spans_of_lexeme hl
  have hlocated : K.view' (f'.lines.locate span') = K.view (f.lines.locate span) := hf.located hl
  cases t with
  | openBrace =>
    refine (like_placeable hf hi).read ?_
    intro p p' j j' _ _ hp hj
    exact .ok ⟨⟨congrArg Expression.placeable hp.same, hp.spans⟩, hj⟩
  | string raw =>
    simp only
    -- whether the escapes can be read does not depend on where the string stands; the fault only moves with it
    rcases unescape_elsewhere (span.start + 1) (span'.start + 1) raw.toList with
      ⟨value, hvalue, hvalue'⟩ | ⟨k, text, hwithin, hb, hb'⟩
    · rw [hvalue, hvalue']
      exact .ok ⟨⟨congrArg (Expression.string (String.ofList value) raw) hlocated, hspan⟩, hi₁.inputs rfl⟩
    · rw [hb, hb']
      exact .error (K.badEscape hl hwithin)
  | unterminatedString raw => exact .error (K.unterminated hl)
  | number raw =>
    refine (like_number hf hi).read ?_
    intro n n' j j' _ _ hn hj
    exact .ok ⟨⟨congrArg Expression.number hn.same, hn.spans⟩, hj⟩
  | dollar =>
    refine (like_identifierAt hf (hi₁.inputs rfl) (K.touchSign hl rfl)).read ?_
    intro id id' i₂ i₂' h₂ h₂' hid hi₂
    have hstop := hid.located.spans.stop
    refine .ok ⟨⟨?_, hspan.start, hstop⟩, hi₂⟩
    show Expression.variableRef (id'.relocate K.view') (K.view' _) = .variableRef (id.relocate K.view) (K.view _)
    rw [hid.located.same, hf.locate hspan.start hstop]
  | minus =>
    refine (like_identifierAt hf (hi₁.inputs rfl) (K.touchSign hl rfl)).read ?_
    intro id id' i₂ i₂' h₂ h₂' hid hi₂
    refine (like_accessor hf hi₂ hid.touch).read ?_
    intro accessor accessor' i₃ i₃' h₃ h₃' haccessor hi₃
    have haccessor : accessor'.map (Identifier.relocate K.view') = accessor.map (Identifier.relocate K.view) :=
      haccessor
    simp only
    rw [hi₃.peek?]
    by_cases hparen : i₃.peek? = some .openParen
    · rw [if_pos hparen, if_pos hparen]
      refine (like_callArguments hf hi₃).read ?_
      intro a a' i₄ i₄' h₄ h₄' ha hi₄
      refine .ok ⟨⟨?_, hspan.start, hi₄.readTo⟩, hi₄⟩
      show Expression.termRef (id'.relocate K.view') (accessor'.map (Identifier.relocate K.view'))
          (some (a'.relocate K.view')) (K.view' _) =
        .termRef (id.relocate K.view) (accessor.map (Identifier.relocate K.view)) (some (a.relocate K.view))
          (K.view _)
      rw [hid.located.same, haccessor, ha.same, hf.locate hspan.start hi₄.readTo]
    · rw [if_neg hparen, if_neg hparen]
      refine .ok ⟨⟨?_, hspan.start, hi₃.readTo⟩, hi₃⟩
      show Expression.termRef (id'.relocate K.view') (accessor'.map (Identifier.relocate K.view')) none (K.view' _) =
        .termRef (id.relocate K.view) (accessor.map (Identifier.relocate K.view)) none (K.view _)
      rw [hid.located.same, haccessor, hf.locate hspan.start hi₃.readTo]
  | identifier name =>
    have hi₁ := hi₁.inputs rfl
    simp only
    rw [hi₁.peek?]
    by_cases hparen : i₁.peek? = some .openParen
    · rw [if_pos hparen, if_pos hparen]
      -- the name of a function is capitalised, which both readings see
      by_cases hname : isFunctionName name = true
      · simp only [hname, Bool.not_true, Bool.false_eq_true, if_false]
        refine (like_callArguments hf hi₁).read ?_
        intro a a' i₂ i₂' h₂ h₂' ha hi₂
        refine .ok ⟨⟨?_, hspan.start, ha.spans.stop⟩, hi₂⟩
        show Expression.functionRef ⟨name, K.view' _⟩ (a'.relocate K.view') (K.view' _) =
          .functionRef ⟨name, K.view _⟩ (a.relocate K.view) (K.view _)
        rw [hlocated, ha.same, hf.locate hspan.start ha.spans.stop]
      · simp only [hname, Bool.not_false, if_true]
        exact like_unexpected hspan.start
    · rw [if_neg hparen, if_neg hparen]
      refine (like_accessor hf hi₁ (K.touchStop hl rfl)).read ?_
      intro accessor accessor' i₂ i₂' h₂ h₂' haccessor hi₂
      have haccessor : accessor'.map (Identifier.relocate K.view') = accessor.map (Identifier.relocate K.view) :=
        haccessor
      refine .ok ⟨⟨?_, hspan.start, hi₂.readTo⟩, hi₂⟩
      show Expression.messageRef ⟨name, K.view' _⟩ (accessor'.map (Identifier.relocate K.view')) (K.view' _) =
        .messageRef ⟨name, K.view _⟩ (accessor.map (Identifier.relocate K.view)) (K.view _)
      rw [hlocated, haccessor, hf.locate hspan.start hi₂.readTo]
  | _ => exact hi.fault hf
termination_by 3 * i.left + 1
decreasing_by all_goals omega

theorem like_callArguments (hf : K.Fits f f') {i i' : Input} (hi : K.Inputs i i') :
    Alike K.fault (K.Reread (K.Located CallArguments.relocate CallArguments.location)) (callArguments f i)
      (callArguments f' i') := by
  rw [callArguments, callArguments]
  refine (like_expect_behind hf hi).bind ?_
  rintro ⟨opening, i₁, h₁⟩ ⟨opening', i₁', h₁'⟩ ⟨hopening, hi₁⟩
  have hi₁ : K.Behind .openParen i₁ i₁' := hi₁
  cases like_positionalArguments hf hi₁ with
  | alike hpositional =>
    refine hpositional.read ?_
    intro es es' i₂ i₂' h₂ h₂' hes hi₂
    refine (like_namedArguments (t := .endPositional) hf [] (.inl hi₂)).bind ?_
    rintro ⟨as, closing, i₃, h₃⟩ ⟨as', closing', i₃', h₃'⟩ ⟨has, hclosing, hi₃⟩
    refine .ok ⟨⟨?_, hopening.start, hclosing.stop⟩, hi₃⟩
    show CallArguments.mk (relocatePositional K.view' es') (relocateNamed K.view' as') (K.view' _) =
      ⟨relocatePositional K.view es, relocateNamed K.view as, K.view _⟩
    rw [hes, has, hf.locate hopening.start hclosing.stop]
  | parted hfault hok hnamed hfaults =>
    -- the one reading fails here, the other at the named arguments
    simp only [hfault, hok, bind, Except.bind, hnamed]
    exact .error hfaults
termination_by 3 * i.left
decreasing_by all_goals omega

/-- Positional arguments are read alike, unless the readings have parted behind the parenthesis or a comma. Then the
first one fails, and the second one has a fault to compare as soon as it comes to the named arguments. -/
theorem like_positionalArguments (hf : K.Fits f f') {t : Token} {i i' : Input} (hi : K.Behind t i i') :
    K.Positional f' (positionalArguments f i) (positionalArguments f' i') := by
  rcases hi with hi | ⟨-, hparted⟩
  swap
  · exact hf.positional hparted
  rw [positionalArguments, positionalArguments]
  split
  · rename_i marker rest hnext
    rcases hi.next? with ⟨hnone, -⟩ | ⟨t, span, span', j, j', hlt, hlt', hnext₁, hnext', -, hj⟩
    · rw [hnext] at hnone
      cases hnone
    · rw [hnext] at hnext₁
      cases hnext₁
      rw [hnext']
      exact .alike (.ok ⟨rfl, hj.inputs rfl⟩)
  rename_i hother
  -- the marker is not there, so it is not there in the other input either
  split
  · rename_i marker rest hnext
    rcases hi.next? with ⟨-, hnone⟩ | ⟨t, span, span', j, j', hlt, hlt', hnext₁, hnext', -, -⟩
    · rw [hnext] at hnone
      cases hnone
    · rw [hnext] at hnext'
      cases hnext'
      exact (hother _ _ hnext₁).elim
  cases hinline : inline f i with
  | error fault =>
    have hread := like_inline hf hi
    rw [hinline] at hread
    obtain ⟨fault', hinline', hfaults⟩ := hread.of_error
    rw [hinline']
    exact .alike (.error hfaults)
  | ok r =>
    have hread := like_inline hf hi
    rw [hinline] at hread
    obtain ⟨⟨e', i₁', h₁'⟩, hinline', he, hi₁⟩ := hread.of_ok
    obtain ⟨e, i₁, h₁⟩ := r
    rw [hinline']
    simp only [bind, Except.bind]
    simp only at he hi₁
    rcases hi₁.next? with ⟨hnone, hnone'⟩ | ⟨t, span, span', i₂, i₂', h₂, h₂', hnext, hnext', -, hi₂⟩
    · rw [hnone, hnone']
      exact .alike (hi₁.fault hf)
    rw [hnext, hnext']
    cases t with
    | comma =>
      simp only
      cases like_positionalArguments hf hi₂ with
      | alike hpositional =>
        refine .alike (hpositional.read ?_)
        intro es es' i₃ i₃' h₃ h₃' hes hi₃
        refine .ok ⟨?_, hi₃⟩
        show e'.relocate K.view' :: relocatePositional K.view' es' =
          e.relocate K.view :: relocatePositional K.view es
        rw [he.same, hes]
      | @parted fault fault' es j hfault hok hnamed hfaults =>
        refine .parted ?_ (?_ : _ = Except.ok (e' :: es, ⟨j.1, by omega⟩)) hnamed hfaults
        · rw [hfault]
        · rw [hok]
          rfl
    | endPositional => exact .alike (.ok ⟨congrArg ([·]) he.same, hi₂.inputs rfl⟩)
    | _ => exact .alike (hi₁.fault hf)
termination_by 3 * i.left + 2
decreasing_by all_goals omega

/-- Named arguments are read alike, also behind a comma where the readings have parted: then both fail. -/
theorem like_namedArguments (hf : K.Fits f f') (seen : List String) {t : Token} {i i' : Input}
    (hi : K.Behind t i i') :
    Alike K.fault (fun r r' => K.Same relocateNamed r.1 r'.1 ∧ K.Reread K.Spans r.2 r'.2)
      (namedArguments f seen i) (namedArguments f' seen i') := by
  -- where the readings have parted, both fail by what the likeness asks for
  rcases hi with hi | ⟨-, hparted⟩
  swap
  · obtain ⟨fault, fault', hfault, hfault', hfaults⟩ := hf.named seen hparted
    rw [hfault, hfault']
    exact .error hfaults
  rw [namedArguments, namedArguments]
  rcases hi.next? with ⟨hnone, hnone'⟩ | ⟨t, span, span', i₁, i₁', h₁, h₁', hnext, hnext', hl, hi₁⟩
  · rw [hnone, hnone']
    exact hi.fault hf
  rw [hnext, hnext']
  cases t with
  | closeParen => exact .ok ⟨rfl, K.spans_of_lexeme hl, hi₁.inputs rfl⟩
  | identifier name =>
    simp only
    rcases (hi₁.inputs rfl).next? with
      ⟨hnone, hnone'⟩ | ⟨t, colon, colon', i₂, i₂', h₂, h₂', hnext₁, hnext₁', -, hi₂⟩
    · rw [hnone, hnone']
      exact hi.fault hf
    rw [hnext₁, hnext₁']
    cases t with
    | colon =>
      refine (like_inline hf (hi₂.inputs rfl)).read ?_
      intro e e' i₃ i₃' h₃ h₃' he hi₃
      simp only
      -- a name used before is a fault on both sides, told where the argument begins
      by_cases hseen : seen.contains name = true
      · simp only [hseen, if_true]
        exact like_unexpected (K.start hl)
      simp only [hseen]
      rcases hi₃.next? with ⟨hnone, hnone'⟩ | ⟨t, closing, closing', i₄, i₄', h₄, h₄', hnext₂, hnext₂', hl₂, hi₄⟩
      · rw [hnone, hnone']
        exact hi₃.fault hf
      rw [hnext₂, hnext₂']
      have hname : K.view' (f'.lines.locate span') = K.view (f.lines.locate span) := hf.located hl
      have hlocation := hf.locate (K.start hl) he.spans.stop
      have hargument (as as' : List NamedArgument) (has : K.Same relocateNamed as as') :
          K.Same relocateNamed
            (⟨⟨name, f.lines.locate span⟩, e, f.locate span.start e.location.span.stop⟩ :: as)
            (⟨⟨name, f'.lines.locate span'⟩, e', f'.locate span'.start e'.location.span.stop⟩ :: as') := by
        show (⟨⟨name, K.view' _⟩, e'.relocate K.view', K.view' _⟩ : NamedArgument) :: relocateNamed K.view' as' =
          ⟨⟨name, K.view _⟩, e.relocate K.view, K.view _⟩ :: relocateNamed K.view as
        rw [hname, he.same, hlocation, has]
      cases t with
      | comma =>
        refine (like_namedArguments hf (name :: seen) hi₄).bind ?_
        rintro ⟨as, closing, i₅, h₅⟩ ⟨as', closing', i₅', h₅'⟩ ⟨has, hrest⟩
        exact .ok ⟨hargument as as' has, hrest.read, hrest.rest⟩
      | closeParen => exact .ok ⟨hargument [] [] rfl, K.spans_of_lexeme hl₂, hi₄.inputs rfl⟩
      | _ => exact hi₃.fault hf
    | _ => exact hi.fault hf
  | _ => exact hi.fault hf
termination_by 3 * i.left
decreasing_by all_goals omega

theorem like_variants (hf : K.Fits f f') {i i' : Input} (hi : K.Inputs i i') :
    Alike K.fault (K.Reread (List.Forall₂ (K.Located Variant.relocate Variant.location))) (variants f i)
      (variants f' i') := by
  rw [variants, variants, hi.peek?]
  by_cases hvariant : i.peek? = some .star ∨ i.peek? = some .openBracket
  · rw [if_pos hvariant, if_pos hvariant]
    refine (like_variant hf hi).read ?_
    intro v v' i₁ i₁' h₁ h₁' hv hi₁
    refine (like_variants hf hi₁).read ?_
    intro vs vs' i₂ i₂' h₂ h₂' hvs hi₂
    exact .ok ⟨.cons hv hvs, hi₂⟩
  · rw [if_neg hvariant, if_neg hvariant]
    exact .ok ⟨.nil, hi⟩
termination_by 3 * i.left + 1
decreasing_by all_goals omega

theorem like_variant (hf : K.Fits f f') {i i' : Input} (hi : K.Inputs i i') :
    Alike K.fault (K.Reread (K.Located Variant.relocate Variant.location)) (variant f i) (variant f' i') := by
  rw [variant, variant]
  split
  rename_i isDefault i₁ h₁ hstar
  split
  rename_i isDefault' i₁' h₁' hstar'
  obtain ⟨rfl, hi₁⟩ := hi.takes rfl (Input.takes_star hstar) (Input.takes_star hstar')
  refine (like_expect rfl hf hi₁).read ?_
  intro _ _ i₂ i₂' h₂ h₂' _ hi₂
  refine (like_variantKey hf hi₂).read ?_
  intro key key' i₃ i₃' h₃ h₃' hkey hi₃
  refine (like_expect rfl hf hi₃).read ?_
  intro _ _ i₄ i₄' h₄ h₄' _ hi₄
  refine (like_pattern? hf hi₄).read ?_
  intro value? value?' i₅ i₅' h₅ h₅' hvalue hi₅
  cases value? with
  | none =>
    obtain rfl : value?' = none := Option.map_eq_none_iff.1 hvalue
    exact like_unexpected (hi₄.offset hf)
  | some value =>
    obtain ⟨value', rfl, hsame⟩ := Option.map_eq_some_iff.1 hvalue
    refine .ok ⟨⟨?_, hi.offset hf, hi₅.readTo⟩, hi₅⟩
    show Variant.mk (key'.relocate K.view') (value'.relocate K.view') isDefault' (K.view' _) =
      ⟨key.relocate K.view, value.relocate K.view, isDefault', K.view _⟩
    rw [hkey, hsame, hf.locate (hi.offset hf) hi₅.readTo]
termination_by 3 * i.left
decreasing_by all_goals omega

theorem like_pattern? (hf : K.Fits f f') {i i' : Input} (hi : K.Inputs i i') :
    Alike K.fault (K.Reread (K.Same fun g => Option.map (Pattern.relocate g))) (pattern? f i) (pattern? f' i') := by
  rw [pattern?, pattern?]
  rcases hi.next? with ⟨hnone, hnone'⟩ | ⟨t, span, span', i₁, i₁', h₁, h₁', hnext, hnext', hl, hi₁⟩
  · rw [hnone, hnone']
    exact hi.fault hf
  rw [hnext, hnext']
  cases t with
  | patternSkip => exact .ok ⟨rfl, hi₁.inputs rfl⟩
  | patternStart =>
    refine (like_patternElements hf (hi₁.inputs rfl)).read ?_
    intro es es' i₂ i₂' h₂ h₂' hes hi₂
    have hbox := K.box hes.locations
    simp only
    -- there is no box around no elements, and only then
    cases hlocation : Location.boundingBox? (es.map (·.location)) with
    | none =>
      rw [hlocation] at hbox
      rw [Option.map_eq_none_iff.1 hbox]
      exact like_unexpected (K.start hl)
    | some location =>
      rw [hlocation] at hbox
      obtain ⟨location', hlocation', hview⟩ := Option.map_eq_some_iff.1 hbox
      rw [hlocation']
      refine .ok ⟨?_, hi₂⟩
      show some (Pattern.mk (relocateElements K.view' es') (K.view' location')) =
        some ⟨relocateElements K.view es, K.view location⟩
      rw [hes, hview]
  | _ => exact hi.fault hf
termination_by 3 * i.left
decreasing_by all_goals omega

/-- The elements of a pattern are read alike, up to its end. -/
theorem like_patternElements (hf : K.Fits f f') {i i' : Input} (hi : K.Inputs i i') :
    Alike K.fault (K.Reread (K.Same relocateElements)) (patternElements f i) (patternElements f' i') := by
  rw [patternElements, patternElements]
  rcases hi.next? with ⟨hnone, hnone'⟩ | ⟨t, span, span', i₁, i₁', h₁, h₁', hnext, hnext', hl, hi₁⟩
  · rw [hnone, hnone']
    exact hi.fault hf
  rw [hnext, hnext']
  cases t with
  | pureText text =>
    refine (like_patternElements hf (hi₁.inputs rfl)).read ?_
    intro es es' i₂ i₂' h₂ h₂' hes hi₂
    have hlocated : K.view' (f'.lines.locate span') = K.view (f.lines.locate span) := hf.located hl
    refine .ok ⟨?_, hi₂⟩
    show PatternElement.text ⟨text, K.view' _⟩ :: relocateElements K.view' es' =
      .text ⟨text, K.view _⟩ :: relocateElements K.view es
    rw [hlocated, hes]
  | openBrace =>
    refine (like_placeable hf hi).read ?_
    intro p p' i₁ i₁' h₁ h₁' hp hi₁
    refine (like_patternElements hf hi₁).read ?_
    intro es es' i₂ i₂' h₂ h₂' hes hi₂
    refine .ok ⟨?_, hi₂⟩
    show PatternElement.placeable (p'.relocate K.view') :: relocateElements K.view' es' =
      .placeable (p.relocate K.view) :: relocateElements K.view es
    rw [hp.same, hes]
  | patternEnd => exact .ok ⟨rfl, hi₁.inputs rfl⟩
  | _ => exact hi.fault hf
termination_by 3 * i.left + 1
decreasing_by all_goals omega

end

theorem like_oneAttribute (hf : K.Fits f f') (hi : K.Inputs i i') :
    Alike K.fault (K.Reread (K.Same Attribute.relocate)) (oneAttribute f i) (oneAttribute f' i') := by
  unfold oneAttribute
  refine (like_expect rfl hf hi).read ?_
  intro dot dot' i₁ i₁' h₁ h₁' hdot hi₁
  refine (like_identifier hf hi₁).read ?_
  intro id id' i₂ i₂' h₂ h₂' hid hi₂
  refine (like_expect rfl hf hi₂).read ?_
  intro _ _ i₃ i₃' h₃ h₃' _ hi₃
  refine (like_pattern? hf hi₃).read ?_
  intro value? value?' i₄ i₄' h₄ h₄' hvalue hi₄
  cases value? with
  | none =>
    obtain rfl : value?' = none := Option.map_eq_none_iff.1 hvalue
    exact like_unexpected (hi₃.offset hf)
  | some value =>
    obtain ⟨value', rfl, hsame⟩ := Option.map_eq_some_iff.1 hvalue
    refine .ok ⟨?_, hi₄⟩
    show Attribute.mk (id'.relocate K.view') (value'.relocate K.view') (K.view' _) =
      ⟨id.relocate K.view, value.relocate K.view, K.view _⟩
    rw [hid.located.same, hsame, hf.locate hdot.start hi₄.readTo]

/-- The attributes of an entry are read alike: a dot tells in both readings that there is one more. -/
theorem like_attributes (hf : K.Fits f f') {i i' : Input} (hi : K.Inputs i i') :
    Alike K.fault (fun r r' => K.Same (fun g => List.map (Attribute.relocate g)) r.1 r'.1 ∧ K.Inputs r.2 r'.2)
      (attributes f i) (attributes f' i') := by
  rw [attributes, attributes, hi.peek?]
  by_cases hdot : i.peek? = some .dot
  · rw [if_pos hdot, if_pos hdot]
    refine (like_oneAttribute hf hi).read ?_
    intro a a' i₁ i₁' h₁ h₁' ha hi₁
    refine (like_attributes hf hi₁).bind ?_
    rintro ⟨as, i₂⟩ ⟨as', i₂'⟩ ⟨has, hi₂⟩
    have has : as'.map (Attribute.relocate K.view') = as.map (Attribute.relocate K.view) := has
    refine .ok ⟨?_, hi₂⟩
    show a'.relocate K.view' :: as'.map (Attribute.relocate K.view') =
      a.relocate K.view :: as.map (Attribute.relocate K.view)
    rw [ha, has]
  · rw [if_neg hdot, if_neg hdot]
    exact .ok ⟨rfl, hi⟩
termination_by i.left

/-- **An entry is read alike** from tokens that stand for each other: both readings give entries that agree but for
what the likeness leaves out, or both give a fault. -/
theorem like_entry (hf : K.Fits f f') (hi : K.Inputs i i') :
    Alike K.fault (K.Same Entry.relocate) (entry f i) (entry f' i') := by
  unfold entry
  split
  rename_i isTerm i₁ hminus
  split
  rename_i isTerm' i₁' hminus'
  obtain ⟨rfl, hi₁⟩ := hi.takes rfl (Input.takes_minus hminus) (Input.takes_minus hminus')
  refine (like_identifier hf hi₁).read ?_
  intro id id' i₂ i₂' h₂ h₂' hid hi₂
  refine (like_expect rfl hf hi₂).read ?_
  intro _ _ i₃ i₃' h₃ h₃' _ hi₃
  refine (like_pattern? hf hi₃).read ?_
  intro value? value?' i₄ i₄' h₄ h₄' hvalue hi₄
  refine (like_attributes hf hi₄).bind ?_
  rintro ⟨as, i₅⟩ ⟨as', i₅'⟩ ⟨has, hi₅⟩
  have hid : id'.relocate K.view' = id.relocate K.view := hid.located.same
  have has : as'.map (Attribute.relocate K.view') = as.map (Attribute.relocate K.view) := has
  simp only
  rw [hi₅.isEmpty]
  by_cases hend : i₅.lexemes.isEmpty = true
  · -- of the attributes only whether there are any counts, where there is no value
    have hempty : as'.isEmpty = as.isEmpty := by
      rw [← List.isEmpty_map, has, List.isEmpty_map]
    have hlocation := hf.locate (hi.offset hf) hi₅.readTo
    simp only [hend, Bool.not_true, Bool.false_eq_true, if_false, hempty]
    cases value? with
    | none =>
      obtain rfl : value?' = none := Option.map_eq_none_iff.1 hvalue
      cases isTerm' with
      | true => exact like_unexpected (hi₃.offset hf)
      | false =>
        by_cases hnone : as.isEmpty = true
        · simp only [hnone, if_true]
          exact like_unexpected (hi₃.offset hf)
        · simp only [hnone]
          refine .ok (congrArg Entry.message ?_)
          simp only [Message.relocate, hid, has, hlocation, Option.map_none]
    | some value =>
      obtain ⟨value', rfl, hsame⟩ := Option.map_eq_some_iff.1 hvalue
      cases isTerm' with
      | true =>
        refine .ok (congrArg Entry.term ?_)
        simp only [Term.relocate, hid, hsame, has, hlocation, Option.map_none]
      | false =>
        refine .ok (congrArg Entry.message ?_)
        simp only [Message.relocate, hid, hsame, has, hlocation, Option.map_none, Option.map_some]
  · simp only [hend, Bool.not_false, if_true]
    exact hi₅.fault hf

end Fluent
