import Fluent.Proofs.Neighbours
import Fluent.Proofs.Parts
import Fluent.Tree.Walk

/-!
# Line breaks in labels

Names, numbers and the insides of strings stay on one line, and so do the first lines of comments and junk. Where a
label shows text of a pattern as text, line breaks are shown as arrows. What is left are labels that write out an
expression: they hold a line break exactly where a select expression in it has a variant whose text does.

* `BreaksIn`: some patterns and placeables hold text with a line break.
* `Expression.newline_mem_display` and the lemmas beside it: where the source form of a tree holds a line break.
* `Node.displayed`: what the label of a node writes out.
* `Expression.tokens_of_visit` and the lemmas beside it: a walk comes to nodes that are written in the tree.
* `newline_mem_label`: where a label of a node of a resource holds a line break.
-/

namespace Fluent

/-- A pattern with a line break in one of its own texts, not only in the texts of the placeables that it holds. -/
def Pattern.Broken (p : Pattern) : Prop := ∃ chunk, .text chunk ∈ p.elements ∧ '\n' ∈ chunk.value.toList

/-- Patterns and placeables, and among them a pattern with a line break in its text: what it takes for a label to have
more than one line. -/
def BreaksIn (qs : List Part) : Prop := ∃ p, .pattern p ∈ qs ∧ p.Broken

theorem not_breaksIn_nil : ¬ BreaksIn [] := by
  rintro ⟨p, hp, -⟩
  cases hp

theorem breaksIn_append {qs rs : List Part} : BreaksIn (qs ++ rs) ↔ BreaksIn qs ∨ BreaksIn rs := by
  simp only [BreaksIn, List.mem_append, or_and_right, exists_or]

theorem breaksIn_placeable {p : Placeable} {qs : List Part} : BreaksIn (.placeable p :: qs) ↔ BreaksIn qs := by
  simp only [BreaksIn, List.mem_cons, reduceCtorEq, false_or]

theorem breaksIn_pattern {p : Pattern} {qs : List Part} :
    BreaksIn (.pattern p :: qs) ↔ p.Broken ∨ BreaksIn qs := by
  simp only [BreaksIn, List.mem_cons, Part.pattern.injEq, or_and_right, exists_or, exists_eq_left]

/-! ## Letters without line breaks -/

theorem IsName.newline_notMem {cs : List Char} (h : IsName cs) : '\n' ∉ cs := by
  obtain ⟨x, xs, rfl, hx, hxs⟩ := h
  intro hmem
  rcases List.mem_cons.1 hmem with heq | hmem
  · exact identifierStart_ne_newline hx heq.symm
  · exact identifierChar_ne_newline (hxs _ hmem) rfl

theorem IsNumber.newline_notMem {cs : List Char} (h : IsNumber cs) : '\n' ∉ cs := by
  obtain ⟨x, xs, -, hdigits, hcs⟩ := h
  obtain ⟨-, -, hnone⟩ := digits_spec (x :: xs)
  rw [hdigits] at hnone
  rcases hcs with rfl | rfl
  · exact hnone
  · intro hmem
    rcases List.mem_cons.1 hmem with heq | hmem
    · cases heq
    · exact hnone hmem

theorem IsStringBody.newline_notMem {cs : List Char} (h : IsStringBody cs) : '\n' ∉ cs := by
  have hnone := (stringBody_spec (cs ++ ['"'])).2
  rwa [h []] at hnone

/-- Tokens with the letters that they can have. -/
def AllLexical (ts : List Token) : Prop := ∀ t ∈ ts, t.Lexical

theorem AllLexical.mono {ts us : List Token} (h : AllLexical us) (hts : ts ⊆ us) : AllLexical ts :=
  fun t ht => h t (hts ht)

theorem AllLexical.append {ts us : List Token} (h : AllLexical (ts ++ us)) : AllLexical ts ∧ AllLexical us :=
  List.forall_mem_append.1 h

theorem AllLexical.cons {t : Token} {ts : List Token} (h : AllLexical (t :: ts)) : t.Lexical ∧ AllLexical ts :=
  List.forall_mem_cons.1 h

theorem newline_notMem_displayAccessor {accessor : Option Identifier} (h : AllLexical (accessorTokens accessor)) :
    '\n' ∉ (displayAccessor accessor).toList := by
  cases accessor with
  | none => exact List.not_mem_nil
  | some id =>
    have hname : IsName id.name.toList := h.cons.2.cons.1
    simp [displayAccessor, String.toList_append, hname.newline_notMem]

theorem VariantKey.newline_notMem_name {key : VariantKey} (h : key.token.Lexical) : '\n' ∉ key.name.toList := by
  cases key with
  | identifier id => exact IsName.newline_notMem h
  | number literal => exact IsNumber.newline_notMem h

/-- A list with commas has a line break where one of its members has. -/
theorem newline_mem_intercalate (ss : List String) :
    '\n' ∈ (", ".intercalate ss).toList ↔ ∃ s ∈ ss, '\n' ∈ s.toList := by
  have hcomma : ", ".toList = [',', ' '] := rfl
  rw [String.toList_intercalate, hcomma]
  induction ss with
  | nil => simp
  | cons s ss ih =>
    by_cases hss : ss = []
    · simp [hss]
    · have hmap : ss.map String.toList ≠ [] := by simpa using hss
      rw [List.map_cons, List.intercalate_cons_of_ne_nil hmap]
      simp [ih]

/-! ## Source forms -/

mutual

/-- What is displayed has a line break exactly if it holds a pattern with one in its text. Names, numbers and string
literals have none, as the letters of their tokens tell; the same goes for each kind of tree below. -/
theorem Expression.newline_mem_display : ∀ e : Expression, AllLexical e.tokens →
    ('\n' ∈ e.display.toList ↔ BreaksIn e.parts)
  | .string _ raw _, h => by
    have hraw : IsStringBody raw.toList := h.cons.1
    simp [Expression.display, Expression.parts, not_breaksIn_nil, hraw.newline_notMem]
  | .number literal, h => by
    have hraw : IsNumber literal.raw.toList := h.cons.1
    simp [Expression.display, Expression.parts, not_breaksIn_nil, hraw.newline_notMem]
  | .variableRef id _, h => by
    have hname : IsName id.name.toList := h.cons.2.cons.1
    simp [Expression.display, Expression.parts, not_breaksIn_nil, hname.newline_notMem]
  | .messageRef id accessor _, h => by
    have hname : IsName id.name.toList := h.cons.1
    have haccessor := newline_notMem_displayAccessor h.cons.2
    simp [Expression.display, Expression.parts, not_breaksIn_nil, hname.newline_notMem, haccessor]
  | .termRef id accessor none _, h => by
    have hname : IsName id.name.toList := h.cons.2.cons.1
    have haccessor := newline_notMem_displayAccessor h.cons.2.cons.2.append.1
    simp [Expression.display, Expression.parts, not_breaksIn_nil, hname.newline_notMem, haccessor]
  | .termRef id accessor (some a) _, h => by
    have hname : IsName id.name.toList := h.cons.2.cons.1
    obtain ⟨haccessor, harguments⟩ := h.cons.2.cons.2.append
    have haccessor := newline_notMem_displayAccessor haccessor
    simp [Expression.display, Expression.parts, hname.newline_notMem, haccessor,
      a.newline_mem_display harguments]
  | .functionRef id a _, h => by
    have hname : IsName id.name.toList := h.cons.1
    simp [Expression.display, Expression.parts, hname.newline_notMem, a.newline_mem_display h.cons.2]
  | .select selector variants _, h => by
    obtain ⟨hselector, hvariants⟩ := h.append
    simp [Expression.display, Expression.parts, breaksIn_append, selector.newline_mem_display hselector,
      newline_mem_displayVariants variants hvariants.cons.2]
  | .placeable inner, h => inner.newline_mem_display h

theorem Placeable.newline_mem_display : ∀ p : Placeable, AllLexical p.tokens →
    ('\n' ∈ p.display.toList ↔ BreaksIn p.parts)
  | ⟨e, _⟩, h => by
    simp [Placeable.display, Placeable.parts, breaksIn_placeable, e.newline_mem_display h.cons.2.append.1]

theorem CallArguments.newline_mem_display : ∀ a : CallArguments, AllLexical a.tokens →
    ('\n' ∈ a.display.toList ↔ BreaksIn a.parts)
  | ⟨positional, named, _⟩, h => by
    obtain ⟨hpositional, hnamed⟩ := h.cons.2.append
    have hnamed := newline_mem_displayArguments named hnamed.cons.2.append.1
    have hpositional := newline_mem_displayExpressions positional hpositional
    simp only [CallArguments.display, CallArguments.parts, String.toList_append, List.mem_append,
      newline_mem_intercalate, or_and_right, exists_or, hpositional, hnamed, breaksIn_append]
    simp

theorem newline_mem_displayExpressions : ∀ es : List Expression, AllLexical (positionalTokens es) →
    ((∃ s ∈ displayExpressions es, '\n' ∈ s.toList) ↔ BreaksIn (positionalParts es))
  | [], _ => by simp [displayExpressions, positionalParts, not_breaksIn_nil]
  | e :: es, h => by
    obtain ⟨he, hes⟩ := h.append
    simp [displayExpressions, positionalParts, breaksIn_append, e.newline_mem_display he,
      newline_mem_displayExpressions es hes]

theorem newline_mem_displayArguments : ∀ as : List NamedArgument, AllLexical (namedTokens as) →
    ((∃ s ∈ displayArguments as, '\n' ∈ s.toList) ↔ BreaksIn (namedParts as))
  | [], _ => by simp [displayArguments, namedParts, not_breaksIn_nil]
  | a :: as, h => by
    obtain ⟨ha, has⟩ := h.append
    simp [displayArguments, namedParts, breaksIn_append, a.newline_mem_display ha,
      newline_mem_displayArguments as has]

theorem NamedArgument.newline_mem_display : ∀ a : NamedArgument, AllLexical a.tokens →
    ('\n' ∈ a.display.toList ↔ BreaksIn a.parts)
  | ⟨name, value, _⟩, h => by
    have hname : IsName name.name.toList := h.cons.1
    simp [NamedArgument.display, NamedArgument.parts, hname.newline_notMem,
      value.newline_mem_display h.cons.2.cons.2]

theorem newline_mem_displayVariants : ∀ vs : List Variant, AllLexical (variantsTokens vs) →
    ('\n' ∈ (displayVariants vs).toList ↔ BreaksIn (variantsParts vs))
  | [], _ => by simp [displayVariants, variantsParts, not_breaksIn_nil]
  | v :: vs, h => by
    obtain ⟨hv, hvs⟩ := h.append
    simp [displayVariants, variantsParts, breaksIn_append, v.newline_mem_display hv,
      newline_mem_displayVariants vs hvs]

theorem Variant.newline_mem_display : ∀ v : Variant, AllLexical v.tokens →
    ('\n' ∈ v.display.toList ↔ BreaksIn v.parts)
  | ⟨key, value, isDefault, _⟩, h => by
    have hkey := key.newline_notMem_name h.append.2.cons.2.cons.1
    have hvalue := value.newline_mem_display h.append.2.cons.2.cons.2.cons.2
    cases isDefault <;> simp [Variant.display, Variant.parts, hkey, hvalue]

theorem Pattern.newline_mem_display : ∀ p : Pattern, AllLexical p.tokens →
    ('\n' ∈ p.display.toList ↔ BreaksIn p.parts)
  | ⟨elements, _⟩, h => by
    rw [Pattern.display, Pattern.parts, breaksIn_pattern]
    exact newline_mem_displayElements elements h.cons.2.append.1

theorem newline_mem_displayElements : ∀ es : List PatternElement, AllLexical (elementsTokens es) →
    ('\n' ∈ (displayElements es).toList ↔
      (∃ chunk, .text chunk ∈ es ∧ '\n' ∈ chunk.value.toList) ∨ BreaksIn (elementsParts es))
  | [], _ => by simp [displayElements, elementsParts, not_breaksIn_nil]
  | .text chunk :: es, h => by
    have hes := newline_mem_displayElements es h.append.2
    simp [displayElements, elementsParts, PatternElement.display, PatternElement.parts, hes, or_and_right, exists_or,
      or_assoc]
  | .placeable p :: es, h => by
    have hp := p.newline_mem_display h.append.1
    have hes := newline_mem_displayElements es h.append.2
    simp only [displayElements, elementsParts, PatternElement.display, PatternElement.parts, String.toList_append,
      List.mem_append, hp, hes, breaksIn_append, List.mem_cons, reduceCtorEq, false_or]
    exact or_left_comm

end

/-! ## Visited nodes -/

/-- The tokens that a node of a tree is written with. -/
def Node.tokens : Node → List Token
  | message m => m.tokens
  | term t => t.tokens
  | .attribute a => a.tokens
  | pattern p => p.tokens
  | text c => [.pureText c.value]
  | placeable p => p.tokens
  | expression e => e.tokens
  | select selector variants l => (Expression.select selector variants l).tokens
  | variant v => v.tokens
  | arguments a => a.tokens
  | named a => a.tokens
  | resource _ | comment _ | junk _ => []

/-- Calls that come to nodes written with some tokens only. So the labels that are drawn hold no letters but those of
the tokens. -/
def Within (es : List WalkEvent) (ts : List Token) : Prop := ∀ n, .visit n ∈ es → n.tokens ⊆ ts

theorem within_nil (ts : List Token) : Within [] ts := by
  intro n hn
  cases hn

theorem Within.mono {es : List WalkEvent} {ts us : List Token} (h : Within es ts) (hts : ts ⊆ us) : Within es us :=
  fun n hn => List.Subset.trans (h n hn) hts

theorem Within.append {es fs : List WalkEvent} {ts : List Token} (h : Within es ts) (h' : Within fs ts) :
    Within (es ++ fs) ts := by
  intro n hn
  rcases List.mem_append.1 hn with hn | hn
  · exact h n hn
  · exact h' n hn

theorem Within.cons {n : Node} {es : List WalkEvent} {ts : List Token} (hn : n.tokens ⊆ ts) (h : Within es ts) :
    Within (.visit n :: es) ts := by
  intro k hk
  rcases List.mem_cons.1 hk with heq | hk
  · exact WalkEvent.visit.inj heq ▸ hn
  · exact h k hk

theorem Within.left {es : List WalkEvent} {ts : List Token} (h : Within es ts) (n : Node) :
    Within (es ++ [.leave n]) ts := by
  refine h.append ?_
  intro k hk
  cases List.mem_singleton.1 hk

theorem within_leaf {n : Node} {ts : List Token} (hn : n.tokens ⊆ ts) : Within [.visit n] ts :=
  .cons hn (within_nil ts)

mutual

/-- A walk over an expression comes to nodes that are written with tokens of the expression. This goes down the tree as
the walk does, one kind of node after the other. -/
theorem Expression.tokens_of_visit : ∀ e : Expression, Within e.walk e.tokens
  | .string _ _ _ | .number _ | .variableRef _ _ | .messageRef _ _ _ | .termRef _ _ none _ =>
    within_leaf (List.Subset.refl _)
  | .termRef _ _ (some a) _ => by
    refine .cons (List.Subset.refl _) (a.tokens_of_visit.mono ?_)
    intro t ht
    exact List.mem_cons_of_mem _ (List.mem_cons_of_mem _ (List.mem_append_right _ ht))
  | .functionRef _ a _ => .cons (List.Subset.refl _) (a.tokens_of_visit.mono (List.subset_cons_self _ _))
  | .select selector variants _ => by
    have hselector := selector.tokens_of_visit.mono (List.subset_append_left _ (.arrow :: variantsTokens variants))
    have hvariants := (tokens_of_visit_variants variants).mono
      (List.Subset.trans (List.subset_cons_self .arrow _) (List.subset_append_right selector.tokens _))
    exact .cons (List.Subset.refl _) (.cons (List.Subset.refl _) ((hselector.append hvariants).left _))
  | .placeable inner => .cons (List.Subset.refl _) inner.tokens_of_visit

theorem Placeable.tokens_of_visit : ∀ p : Placeable, Within p.walk p.tokens
  | ⟨e, _⟩ => by
    refine .cons (List.Subset.refl _) ((e.tokens_of_visit.mono ?_).left _)
    intro t ht
    exact List.mem_cons_of_mem _ (List.mem_append_left _ ht)

theorem CallArguments.tokens_of_visit : ∀ a : CallArguments, Within a.walk a.tokens
  | ⟨positional, named, _⟩ => by
    have hpositional := tokens_of_visit_expressions positional
    have hnamed := tokens_of_visit_arguments named
    refine .cons (List.Subset.refl _) (((hpositional.mono ?_).append (hnamed.mono ?_)).left _)
    · intro t ht
      exact List.mem_cons_of_mem _ (List.mem_append_left _ ht)
    · intro t ht
      exact List.mem_cons_of_mem _ (List.mem_append_right _ (List.mem_cons_of_mem _ (List.mem_append_left _ ht)))

theorem tokens_of_visit_expressions : ∀ es : List Expression, Within (walkExpressions es) (positionalTokens es)
  | [] => within_nil _
  | e :: es =>
    (e.tokens_of_visit.mono (List.subset_append_left _ _)).append
      ((tokens_of_visit_expressions es).mono (List.subset_append_right _ _))

theorem tokens_of_visit_arguments : ∀ as : List NamedArgument, Within (walkArguments as) (namedTokens as)
  | [] => within_nil _
  | a :: as =>
    (a.tokens_of_visit.mono (List.subset_append_left _ _)).append
      ((tokens_of_visit_arguments as).mono (List.subset_append_right _ _))

theorem NamedArgument.tokens_of_visit : ∀ a : NamedArgument, Within a.walk a.tokens
  | ⟨_, value, _⟩ => by
    refine .cons (List.Subset.refl _) (value.tokens_of_visit.mono ?_)
    intro t ht
    exact List.mem_cons_of_mem _ (List.mem_cons_of_mem _ ht)

theorem tokens_of_visit_variants : ∀ vs : List Variant, Within (walkVariants vs) (variantsTokens vs)
  | [] => within_nil _
  | v :: vs =>
    (v.tokens_of_visit.mono (List.subset_append_left _ _)).append
      ((tokens_of_visit_variants vs).mono (List.subset_append_right _ _))

theorem Variant.tokens_of_visit : ∀ v : Variant, Within v.walk v.tokens
  | ⟨_, value, _, _⟩ => by
    refine .cons (List.Subset.refl _) ((value.tokens_of_visit.mono ?_).left _)
    intro t ht
    exact List.mem_append_right _ (List.mem_cons_of_mem _ (List.mem_cons_of_mem _ (List.mem_cons_of_mem _ ht)))

theorem Pattern.tokens_of_visit : ∀ p : Pattern, Within p.walk p.tokens
  | ⟨elements, _⟩ => by
    refine .cons (List.Subset.refl _) (((tokens_of_visit_elements elements).mono ?_).left _)
    intro t ht
    exact List.mem_cons_of_mem _ (List.mem_append_left _ ht)

theorem tokens_of_visit_elements : ∀ es : List PatternElement, Within (walkElements es) (elementsTokens es)
  | [] => within_nil _
  | e :: es =>
    (e.tokens_of_visit.mono (List.subset_append_left _ _)).append
      ((tokens_of_visit_elements es).mono (List.subset_append_right _ _))

theorem PatternElement.tokens_of_visit : ∀ e : PatternElement, Within e.walk e.tokens
  | .text _ => within_leaf (List.Subset.refl _)
  | .placeable inner => inner.tokens_of_visit

end

theorem Attribute.tokens_of_visit (a : Attribute) : Within a.walk a.tokens := by
  refine .cons (List.Subset.refl _) ((a.value.tokens_of_visit.mono ?_).left _)
  intro t ht
  exact List.mem_cons_of_mem _ (List.mem_cons_of_mem _ (List.mem_cons_of_mem _ ht))

theorem tokens_of_visit_attributes (as : List Attribute) :
    Within (as.flatMap Attribute.walk) (as.flatMap Attribute.tokens) := by
  induction as with
  | nil => exact within_nil _
  | cons a as ih =>
    have hfirst := a.tokens_of_visit.mono (List.subset_append_left _ (as.flatMap Attribute.tokens))
    exact hfirst.append (ih.mono (List.subset_append_right _ _))

theorem tokens_of_visit_comment (c : Option Comment) (ts : List Token) : Within (walkComment c) ts := by
  cases c with
  | none => exact within_nil ts
  | some c => exact within_leaf (List.nil_subset ts)

theorem tokens_of_visit_value (p : Option Pattern) : Within ((p.map Pattern.walk).getD []) (valueTokens p) := by
  cases p with
  | none => exact within_nil _
  | some p => exact p.tokens_of_visit

/-- **A walk comes to nodes that are written in the entry.** -/
theorem Entry.tokens_of_visit (e : Entry) : Within e.walk e.tokens := by
  cases e with
  | message m =>
    have hvalue : valueTokens m.value ⊆ m.tokens := fun t ht =>
      List.mem_cons_of_mem _ (List.mem_cons_of_mem _ (List.mem_append_left _ ht))
    have hattributes : m.attributes.flatMap Attribute.tokens ⊆ m.tokens := fun t ht =>
      List.mem_cons_of_mem _ (List.mem_cons_of_mem _ (List.mem_append_right _ ht))
    have hinside := ((tokens_of_visit_comment m.comment m.tokens).append
      ((tokens_of_visit_value m.value).mono hvalue)).append ((tokens_of_visit_attributes m.attributes).mono hattributes)
    exact .cons (List.Subset.refl _) (hinside.left _)
  | term t =>
    have hvalue : t.value.tokens ⊆ t.tokens := fun k hk =>
      List.mem_cons_of_mem _ (List.mem_cons_of_mem _ (List.mem_cons_of_mem _ (List.mem_append_left _ hk)))
    have hattributes : t.attributes.flatMap Attribute.tokens ⊆ t.tokens := fun k hk =>
      List.mem_cons_of_mem _ (List.mem_cons_of_mem _ (List.mem_cons_of_mem _ (List.mem_append_right _ hk)))
    have hinside := ((tokens_of_visit_comment t.comment t.tokens).append
      (t.value.tokens_of_visit.mono hvalue)).append ((tokens_of_visit_attributes t.attributes).mono hattributes)
    exact .cons (List.Subset.refl _) (hinside.left _)
  | comment _ => exact within_leaf (List.Subset.refl _)
  | junk _ => exact within_leaf (List.Subset.refl _)

/-! ## Labels -/

/-- A label that shows line breaks by a sign has none of its own. -/
theorem newline_notMem_showBreaks (s : String) : '\n' ∉ (showBreaks s).toList := by
  rw [showBreaks, String.toList_map]
  intro hmem
  obtain ⟨c, -, hc⟩ := List.mem_map.1 hmem
  split at hc
  · cases hc
  · contradiction

/-- A label that says the first line of a text has no line break. -/
theorem newline_notMem_firstLine (s : String) : '\n' ∉ (firstLine s).toList := by
  rw [firstLine, String.toList_ofList]
  have hhead : ∀ cs : List Char, '\n' ∉ Line.head cs := by
    intro cs hmem
    simpa using List.mem_takeWhile_imp hmem
  cases s.toList with
  | nil =>
    rw [Line.all]
    exact List.not_mem_nil
  | cons c cs =>
    rw [Line.all]
    split
    · rename_i htail
      have hwhole : Line.head (c :: cs) = c :: cs := by
        have hsplit := List.takeWhile_append_dropWhile (p := fun x : Char => x != '\n') (l := c :: cs)
        have hnone : List.dropWhile (fun x : Char => x != '\n') (c :: cs) = [] := htail
        rwa [hnone, List.append_nil] at hsplit
      exact hwhole ▸ hhead (c :: cs)
    · intro hmem
      apply hhead (c :: cs)
      rw [List.headD_cons, Line.dropReturn] at hmem
      split at hmem
      · exact List.mem_of_mem_dropLast hmem
      · exact hmem

/-- What is cut off a text makes no line break in what is kept. -/
theorem newline_mem_truncate {n : Nat} {mark : String} (hmark : '\n' ∉ mark.toList) (s : String) :
    '\n' ∈ (truncate n mark s).toList ↔ '\n' ∈ s.toList.take n := by
  rw [truncate]
  split
  · simp [hmark]
  · rename_i hshort
    rw [List.take_of_length_le (by omega)]

theorem newline_notMem_toDigits (n : Nat) : '\n' ∉ Nat.toDigits 10 n :=
  fun hmem => digit_ne_newline (Nat.isDigit_of_mem_toDigits (by omega) le_rfl hmem) rfl

/-- The patterns and placeables that the label of a node writes out. -/
def Node.displayed : Node → List Part
  | placeable p => p.parts
  | expression (.select selector _ _) => selector.parts
  | expression e => e.parts
  | select selector _ _ => selector.parts
  | named a => a.parts
  | _ => []

/-- The label of an expression has a line break exactly if the label writes the expression out, and a pattern with a
line break is among what is written. -/
theorem Expression.newline_mem_label (e : Expression) (h : AllLexical e.tokens) :
    '\n' ∈ e.label.toList ↔ BreaksIn (Node.expression e).displayed := by
  have hdisplay := e.newline_mem_display h
  cases e with
  | select selector variants l =>
    have hselector := selector.newline_mem_display h.append.1
    simp [Expression.label, Node.displayed, hselector, newline_notMem_toDigits, toString]
  | _ => exact hdisplay

/-- **The label of a node** holds a line break where the patterns that it writes out do. -/
theorem Node.newline_mem_label (n : Node) (h : AllLexical n.tokens) :
    '\n' ∈ n.label.toList ↔ BreaksIn n.displayed := by
  cases n with
  | placeable p => exact p.newline_mem_display h
  | expression e => exact e.newline_mem_label h
  | select selector variants l =>
    have hselector := selector.newline_mem_display h.append.1
    simp [Node.label, Node.displayed, hselector]
  | named a => exact a.newline_mem_display h
  | message m =>
    have hname : IsName m.id.name.toList := h.cons.1
    simp [Node.label, Node.displayed, not_breaksIn_nil, hname.newline_notMem]
  | term t =>
    have hname : IsName t.id.name.toList := h.cons.2.cons.1
    simp [Node.label, Node.displayed, not_breaksIn_nil, hname.newline_notMem]
  | «attribute» a =>
    have hname : IsName a.id.name.toList := h.cons.2.cons.1
    simp [Node.label, Node.displayed, not_breaksIn_nil, hname.newline_notMem]
  | variant v =>
    obtain ⟨key, value, isDefault, l⟩ := v
    have hkey := key.newline_notMem_name h.append.2.cons.2.cons.1
    cases isDefault <;> simp [Node.label, Variant.label, Node.displayed, not_breaksIn_nil, hkey]
  | pattern p =>
    have hlabel : '\n' ∉ p.label.toList := by
      rw [Pattern.label, newline_mem_truncate (by decide)]
      exact fun hmem => newline_notMem_showBreaks p.display (List.mem_of_mem_take hmem)
    simp [Node.label, Node.displayed, not_breaksIn_nil, hlabel]
  | text c => simp [Node.label, Node.displayed, not_breaksIn_nil, newline_notMem_showBreaks]
  | comment c => simp [Node.label, Node.displayed, not_breaksIn_nil, newline_notMem_firstLine]
  | junk j => simp [Node.label, Node.displayed, not_breaksIn_nil, newline_notMem_firstLine]
  | resource r => simp [Node.label, Node.displayed, not_breaksIn_nil, newline_notMem_toDigits, toString]
  | arguments a => simp [Node.label, Node.displayed, not_breaksIn_nil, newline_notMem_toDigits, toString]

/-! ## Nodes of a resource -/

/-- The tokens of an entry of a resource have the letters that tokens can have, since they are those of one of the
blocks. -/
theorem lexical_of_mem_parse {o : ParseOptions} {source : String} {e : Entry} (he : e ∈ (parse o source).body) :
    AllLexical e.tokens := by
  by_cases hid : e.id? = none
  · intro t ht
    cases e with
    | message | term => cases hid
    | comment | junk => cases ht
  · obtain ⟨c, isTerm, a, e', hc, ha, hderived, hdoc⟩ := exists_run_of_entry he hid
    have htokens : e.tokens = e'.tokens := by
      rcases hdoc with rfl | ⟨comment, rfl⟩
      · rfl
      · exact Entry.tokens_document comment e'
    intro t ht
    rw [htokens, ← hderived.spells.1, withoutCommas] at ht
    obtain ⟨l, hl, rfl⟩ := List.mem_map.1 (List.mem_of_mem_filter ht)
    exact (neat_run hc ha o.maxNesting).lexical l hl

/-- **The label of a node of a resource** holds a line break exactly if it writes out a select expression with a
variant whose text has one. -/
theorem newline_mem_label {o : ParseOptions} {source : String} {n : Node} (hn : .visit n ∈ (parse o source).walk) :
    '\n' ∈ n.label.toList ↔ BreaksIn n.displayed := by
  refine n.newline_mem_label ?_
  rw [Resource.walk] at hn
  rcases List.mem_append.1 hn with hn | hn
  · rcases List.mem_cons.1 hn with heq | hn
    · cases heq
      intro t ht
      cases ht
    · obtain ⟨e, he, hn⟩ := List.mem_flatMap.1 hn
      exact (lexical_of_mem_parse he).mono (e.tokens_of_visit n hn)
  · cases List.mem_singleton.1 hn

end Fluent
