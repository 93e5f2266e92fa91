import Fluent.Proofs.Phrase

/-!
# Trees with other locations

A tree stays what it is when each of its locations is exchanged for another one. Two exchanges matter: a tree that
stands further on in a source has its locations shifted, and two trees say the same if they agree once every location
is wiped out.

* `Expression.relocate g`, `Pattern.relocate g`, ..., `Entry.relocate g`: a tree whose locations went through `g`.
* `Expression.isSelector_relocate`, `Variant.isDefault_relocate`, ...: what does not hang on locations.
* `Entry.relocate_eq_self`: nothing changes where each location is exchanged for itself.
-/

namespace Fluent

variable {g : Location → Location}

def Identifier.relocate (g : Location → Location) (id : Identifier) : Identifier :=
  { id with location := g id.location }

def NumberLiteral.relocate (g : Location → Location) (n : NumberLiteral) : NumberLiteral :=
  { n with location := g n.location }

def TextChunk.relocate (g : Location → Location) (t : TextChunk) : TextChunk := { t with location := g t.location }

def VariantKey.relocate (g : Location → Location) : VariantKey → VariantKey
  | identifier id => identifier (id.relocate g)
  | number literal => number (literal.relocate g)

mutual

/-- The expression with `g` applied to each of its locations, those of its parts included. -/
def Expression.relocate (g : Location → Location) : Expression → Expression
  | .string value raw location => .string value raw (g location)
  | .number literal => .number (literal.relocate g)
  | .variableRef id location => .variableRef (id.relocate g) (g location)
  | .messageRef id accessor location =>
    .messageRef (id.relocate g) (accessor.map (Identifier.relocate g)) (g location)
  | .termRef id accessor none location =>
    .termRef (id.relocate g) (accessor.map (Identifier.relocate g)) none (g location)
  | .termRef id accessor (some a) location =>
    .termRef (id.relocate g) (accessor.map (Identifier.relocate g)) (some (a.relocate g)) (g location)
  | .functionRef id arguments location => .functionRef (id.relocate g) (arguments.relocate g) (g location)
  | .select selector variants location => .select (selector.relocate g) (relocateVariants g variants) (g location)
  | .placeable inner => .placeable (inner.relocate g)

def Placeable.relocate (g : Location → Location) : Placeable → Placeable
  | ⟨e, location⟩ => ⟨e.relocate g, g location⟩

def CallArguments.relocate (g : Location → Location) : CallArguments → CallArguments
  | ⟨positional, named, location⟩ => ⟨relocatePositional g positional, relocateNamed g named, g location⟩

def relocatePositional (g : Location → Location) : List Expression → List Expression
  | [] => []
  | e :: es => e.relocate g :: relocatePositional g es

def relocateNamed (g : Location → Location) : List NamedArgument → List NamedArgument
  | [] => []
  | a :: as => a.relocate g :: relocateNamed g as

def NamedArgument.relocate (g : Location → Location) : NamedArgument → NamedArgument
  | ⟨name, value, location⟩ => ⟨name.relocate g, value.relocate g, g location⟩

def relocateVariants (g : Location → Location) : List Variant → List Variant
  | [] => []
  | v :: vs => v.relocate g :: relocateVariants g vs

def Variant.relocate (g : Location → Location) : Variant → Variant
  | ⟨key, value, isDefault, location⟩ => ⟨key.relocate g, value.relocate g, isDefault, g location⟩

def Pattern.relocate (g : Location → Location) : Pattern → Pattern
  | ⟨elements, location⟩ => ⟨relocateElements g elements, g location⟩

def relocateElements (g : Location → Location) : List PatternElement → List PatternElement
  | [] => []
  | e :: es => e.relocate g :: relocateElements g es

def PatternElement.relocate (g : Location → Location) : PatternElement → PatternElement
  | .text chunk => .text (chunk.relocate g)
  | .placeable inner => .placeable (inner.relocate g)

end

def Attribute.relocate (g : Location → Location) (a : Attribute) : Attribute :=
  ⟨a.id.relocate g, a.value.relocate g, g a.location⟩

def Comment.relocate (g : Location → Location) (c : Comment) : Comment := { c with location := g c.location }

def Message.relocate (g : Location → Location) (m : Message) : Message :=
  ⟨m.id.relocate g, m.value.map (Pattern.relocate g), m.attributes.map (Attribute.relocate g),
    m.comment.map (Comment.relocate g), g m.location⟩

def Term.relocate (g : Location → Location) (t : Term) : Term :=
  ⟨t.id.relocate g, t.value.relocate g, t.attributes.map (Attribute.relocate g), t.comment.map (Comment.relocate g),
    g t.location⟩

/-- The entry with `g` applied to each of its locations. The fault of junk is no location and stays as it is. -/
def Entry.relocate (g : Location → Location) : Entry → Entry
  | message m => message (m.relocate g)
  | term t => term (t.relocate g)
  | comment c => comment (c.relocate g)
  | junk j => junk { j with location := g j.location }

/-! ## What does not hang on locations -/

theorem Expression.isSelector_relocate (e : Expression) : (e.relocate g).isSelector = e.isSelector := by
  cases e with
  | termRef _ _ arguments _ => cases arguments <;> rfl
  | _ => rfl

theorem Expression.describe_relocate (e : Expression) : (e.relocate g).describe = e.describe := by
  cases e with
  | termRef _ _ arguments _ => cases arguments <;> rfl
  | _ => rfl

theorem Expression.isTermAttribute_relocate (e : Expression) : (e.relocate g).isTermAttribute = e.isTermAttribute := by
  cases e with
  | termRef _ accessor arguments _ => cases accessor <;> cases arguments <;> rfl
  | _ => rfl

theorem Variant.isDefault_relocate (v : Variant) : (v.relocate g).isDefault = v.isDefault := by
  obtain ⟨key, value, isDefault, location⟩ := v
  rfl

theorem PatternElement.location_relocate (e : PatternElement) : (e.relocate g).location = g e.location := by
  cases e with
  | text chunk => rfl
  | placeable inner =>
    obtain ⟨e, location⟩ := inner
    rfl

theorem relocateElements_eq (es : List PatternElement) :
    relocateElements g es = es.map (PatternElement.relocate g) := by
  induction es with
  | nil => rfl
  | cons e es ih => rw [relocateElements, ih, List.map_cons]

theorem relocateVariants_eq (vs : List Variant) : relocateVariants g vs = vs.map (Variant.relocate g) := by
  induction vs with
  | nil => rfl
  | cons v vs ih => rw [relocateVariants, ih, List.map_cons]

/-! ## The same locations -/

theorem Identifier.relocate_eq_self (hg : ∀ l, g l = l) (id : Identifier) : id.relocate g = id := by rw [relocate, hg]

theorem map_relocate_eq_self (hg : ∀ l, g l = l) (id : Option Identifier) : id.map (Identifier.relocate g) = id := by
  cases id with
  | none => rfl
  | some id => rw [Option.map_some, id.relocate_eq_self hg]

theorem VariantKey.relocate_eq_self (hg : ∀ l, g l = l) (key : VariantKey) : key.relocate g = key := by
  cases key with
  | identifier id => rw [relocate, id.relocate_eq_self hg]
  | number literal => rw [relocate, NumberLiteral.relocate, hg]

mutual

/-- Where each location is exchanged for itself, nothing changes. -/
theorem Expression.relocate_eq_self (hg : ∀ l, g l = l) : ∀ e : Expression, e.relocate g = e
  | .string value raw location => by rw [Expression.relocate, hg]
  | .number literal => by rw [Expression.relocate, NumberLiteral.relocate, hg]
  | .variableRef id location => by rw [Expression.relocate, id.relocate_eq_self hg, hg]
  | .messageRef id accessor location => by
    rw [Expression.relocate, id.relocate_eq_self hg, map_relocate_eq_self hg, hg]
  | .termRef id accessor none location => by
    rw [Expression.relocate, id.relocate_eq_self hg, map_relocate_eq_self hg, hg]
  | .termRef id accessor (some a) location => by
    rw [Expression.relocate, id.relocate_eq_self hg, map_relocate_eq_self hg, a.relocate_eq_self hg, hg]
  | .functionRef id arguments location => by
    rw [Expression.relocate, id.relocate_eq_self hg, arguments.relocate_eq_self hg, hg]
  | .select selector variants location => by
    rw [Expression.relocate, selector.relocate_eq_self hg, relocateVariants_eq_self hg variants, hg]
  | .placeable inner => by rw [Expression.relocate, inner.relocate_eq_self hg]

theorem Placeable.relocate_eq_self (hg : ∀ l, g l = l) : ∀ p : Placeable, p.relocate g = p
  | ⟨e, location⟩ => by rw [Placeable.relocate, e.relocate_eq_self hg, hg]

theorem CallArguments.relocate_eq_self (hg : ∀ l, g l = l) : ∀ a : CallArguments, a.relocate g = a
  | ⟨positional, named, location⟩ => by
    rw [CallArguments.relocate, relocatePositional_eq_self hg positional, relocateNamed_eq_self hg named, hg]

theorem relocatePositional_eq_self (hg : ∀ l, g l = l) : ∀ es : List Expression, relocatePositional g es = es
  | [] => rfl
  | e :: es => by rw [relocatePositional, e.relocate_eq_self hg, relocatePositional_eq_self hg es]

theorem relocateNamed_eq_self (hg : ∀ l, g l = l) : ∀ as : List NamedArgument, relocateNamed g as = as
  | [] => rfl
  | a :: as => by rw [relocateNamed, a.relocate_eq_self hg, relocateNamed_eq_self hg as]

theorem NamedArgument.relocate_eq_self (hg : ∀ l, g l = l) : ∀ a : NamedArgument, a.relocate g = a
  | ⟨name, value, location⟩ => by
    rw [NamedArgument.relocate, name.relocate_eq_self hg, value.relocate_eq_self hg, hg]

theorem relocateVariants_eq_self (hg : ∀ l, g l = l) : ∀ vs : List Variant, relocateVariants g vs = vs
  | [] => rfl
  | v :: vs => by rw [relocateVariants, v.relocate_eq_self hg, relocateVariants_eq_self hg vs]

theorem Variant.relocate_eq_self (hg : ∀ l, g l = l) : ∀ v : Variant, v.relocate g = v
  | ⟨key, value, isDefault, location⟩ => by
    rw [Variant.relocate, key.relocate_eq_self hg, value.relocate_eq_self hg, hg]

theorem Pattern.relocate_eq_self (hg : ∀ l, g l = l) : ∀ p : Pattern, p.relocate g = p
  | ⟨elements, location⟩ => by rw [Pattern.relocate, relocateElements_eq_self hg elements, hg]

theorem relocateElements_eq_self (hg : ∀ l, g l = l) : ∀ es : List PatternElement, relocateElements g es = es
  | [] => rfl
  | e :: es => by rw [relocateElements, e.relocate_eq_self hg, relocateElements_eq_self hg es]

theorem PatternElement.relocate_eq_self (hg : ∀ l, g l = l) : ∀ e : PatternElement, e.relocate g = e
  | .text chunk => by rw [PatternElement.relocate, TextChunk.relocate, hg]
  | .placeable inner => by rw [PatternElement.relocate, inner.relocate_eq_self hg]

end

theorem Attribute.relocate_eq_self (hg : ∀ l, g l = l) (a : Attribute) : a.relocate g = a := by
  rw [relocate, a.id.relocate_eq_self hg, a.value.relocate_eq_self hg, hg]

theorem Entry.relocate_eq_self (hg : ∀ l, g l = l) (e : Entry) : e.relocate g = e := by
  have hpattern : Pattern.relocate g = fun p => p := funext (Pattern.relocate_eq_self hg)
  have hattributes : Attribute.relocate g = fun a => a := funext (Attribute.relocate_eq_self hg)
  have hcomment : Comment.relocate g = fun c => c := funext fun c => by rw [Comment.relocate, hg]
  cases e with
  | message m =>
    rw [relocate, Message.relocate, hpattern, hattributes, hcomment, m.id.relocate_eq_self hg, hg]
    simp
  | term t =>
    rw [relocate, Term.relocate, hattributes, hcomment, t.id.relocate_eq_self hg, t.value.relocate_eq_self hg, hg]
    simp
  | comment c => rw [relocate, hcomment]
  | junk j => rw [relocate, hg]

end Fluent
