import Fluent.Grammar.Expression

/-!
# The grammar of entries

    entry      = "-"? identifier "=" (pattern | PatternSkip) attribute*
    attribute  = "." identifier "=" pattern

An entry takes all tokens up to its fence. A term has a value; a message has a value or an attribute.
-/

namespace Fluent

/-- An attribute: a dot, its name and its value. -/
def oneAttribute (f : Fence) (i : Input) : Except Fault (Attribute × Rest i) := do
  let (dot, ⟨i₁, h₁⟩) ← f.expect .dot .entryEnd i
  let (id, ⟨i₂, h₂⟩) ← f.identifier .attributeName i₁
  let (_, ⟨i₃, h₃⟩) ← f.expect .equals .equals i₂
  let (value?, ⟨i₄, h₄⟩) ← pattern? f i₃
  match value? with
  | none => throw (.unexpected (f.offset i₃) .attributeValue .nothing)
  | some value =>
    return (⟨id, value, f.locate dot.start i₄.readTo⟩, ⟨i₄, Input.left_lt_of_steps h₁ h₂ h₃ h₄⟩)

/-- Attributes, as long as there are any. -/
def attributes (f : Fence) (i : Input) : Except Fault (List Attribute × Input) :=
  if i.peek? = some .dot then do
    let (a, ⟨i₁, _h₁⟩) ← oneAttribute f i
    let (as, i₂) ← attributes f i₁
    return (a :: as, i₂)
  else .ok ([], i)
termination_by i.left

/-- An entry that takes all of its tokens. -/
def entry (f : Fence) (i : Input) : Except Fault Entry := do
  let (isTerm, i₁) := match i.next? with
    | some (⟨.minus, _⟩, ⟨j, _⟩) => (true, j)
    | _ => (false, i)
  let (id, ⟨i₂, _⟩) ← f.identifier .entryName i₁
  let (_, ⟨i₃, _⟩) ← f.expect .equals .equals i₂
  let (value?, ⟨i₄, _⟩) ← pattern? f i₃
  let (attributes, i₅) ← attributes f i₄
  if !i₅.lexemes.isEmpty then throw (f.fault i₅ .entryEnd)
  let location := f.locate (f.offset i) i₅.readTo
  match isTerm, value? with
  | true, some value => return .term ⟨id, value, attributes, none, location⟩
  | true, none => throw (.unexpected (f.offset i₃) .termValue .nothing)
  | false, none =>
    if attributes.isEmpty then throw (.unexpected (f.offset i₃) .messageContent .nothing)
    else return .message ⟨id, none, attributes, none, location⟩
  | false, some value => return .message ⟨id, some value, attributes, none, location⟩

/-- What was read before an entry is of no account. -/
theorem entry_readTo (f : Fence) (ls : List Lexeme) (r r' : Nat) : entry f ⟨ls, r⟩ = entry f ⟨ls, r'⟩ := by
  cases ls with
  | nil => rfl
  | cons l ls =>
    obtain ⟨t, span⟩ := l
    cases t <;> rfl

end Fluent
