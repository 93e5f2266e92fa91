import Fluent.Proofs.Relocated

/-!
# Trees but for their locations

Two trees are equal but for their locations if they agree once every location is wiped out.

* `Expression.unlocated`, `Pattern.unlocated`, ..., `Entry.unlocated`: a tree with all locations wiped out.
* `Expression.isSelector_unlocated`, `filter_isDefault_unlocated`, ...: what does not hang on locations.
-/

namespace Fluent

/-- Every location is exchanged for the same one, so that trees can be compared without them. -/
def Location.wipe (_ : Location) : Location := default

def Identifier.unlocated (id : Identifier) : Identifier := id.relocate Location.wipe

def VariantKey.unlocated (key : VariantKey) : VariantKey := key.relocate Location.wipe

def Expression.unlocated (e : Expression) : Expression := e.relocate Location.wipe

def Placeable.unlocated (p : Placeable) : Placeable := p.relocate Location.wipe

def CallArguments.unlocated (a : CallArguments) : CallArguments := a.relocate Location.wipe

def unlocatedPositional (es : List Expression) : List Expression := relocatePositional Location.wipe es

def unlocatedNamed (as : List NamedArgument) : List NamedArgument := relocateNamed Location.wipe as

def unlocatedVariants (vs : List Variant) : List Variant := relocateVariants Location.wipe vs

def Variant.unlocated (v : Variant) : Variant := v.relocate Location.wipe

def Pattern.unlocated (p : Pattern) : Pattern := p.relocate Location.wipe

def unlocatedElements (es : List PatternElement) : List PatternElement := relocateElements Location.wipe es

def Attribute.unlocated (a : Attribute) : Attribute := a.relocate Location.wipe

def Comment.unlocated (c : Comment) : Comment := c.relocate Location.wipe

def Message.unlocated (m : Message) : Message := m.relocate Location.wipe

def Term.unlocated (t : Term) : Term := t.relocate Location.wipe

/-- The entry with every location in its tree wiped out. -/
def Entry.unlocated (e : Entry) : Entry := e.relocate Location.wipe

/-- An entry without the comment that belongs to it. -/
def Entry.undocumented : Entry → Entry
  | message m => message { m with comment := none }
  | term t => term { t with comment := none }
  | e => e

/-! ## What does not hang on locations -/

theorem Expression.isSelector_unlocated (e : Expression) : e.unlocated.isSelector = e.isSelector :=
  e.isSelector_relocate

theorem Expression.isTermAttribute_unlocated (e : Expression) : e.unlocated.isTermAttribute = e.isTermAttribute :=
  e.isTermAttribute_relocate

theorem filter_isDefault_unlocated (vs : List Variant) :
    ((unlocatedVariants vs).filter (·.isDefault)).length = (vs.filter (·.isDefault)).length := by
  have hdefault : (fun v : Variant => v.isDefault) ∘ Variant.relocate Location.wipe = (·.isDefault) :=
    funext Variant.isDefault_relocate
  rw [unlocatedVariants, relocateVariants_eq, List.filter_map, List.length_map, hdefault]

theorem unlocatedElements_eq_nil {es : List PatternElement} : unlocatedElements es = [] ↔ es = [] := by
  rw [unlocatedElements, relocateElements_eq, List.map_eq_nil_iff]

theorem Entry.attributeNames_unlocated (e : Entry) :
    e.unlocated.attributes.map (·.id.name) = e.attributes.map (·.id.name) := by
  cases e with
  | message m => exact List.map_map ..
  | term t => exact List.map_map ..
  | comment c => rfl
  | junk j => rfl

end Fluent
