import Fluent.Check.Subject

/-!
# Checks of patterns and expressions
-/

namespace Fluent.Check

namespace Pattern

def elementCount (s : Subject Pattern) (n : Nat) : Verdict Unit :=
  s.require (s.node.elements.length == n) (.elementCount n s.node.elements)

def element (s : Subject Pattern) (index : Nat) : Verdict (Subject PatternElement) :=
  s.item "elements" s.node.elements index (.noElement index s.node.elements)

/-- The element at an index is this text. -/
def text (s : Subject Pattern) (index : Nat) (expected : String) : Verdict Unit := do
  let e ← element s index
  match e.node with
  | .text chunk => e.equalText chunk.value expected
  | .placeable inner => s.fail (.notText index inner)

/-- The expression of the placeable at an index. -/
def placeable (s : Subject Pattern) (index : Nat) : Verdict (Subject Expression) := do
  let e ← element s index
  match e.node with
  | .placeable inner => .ok ⟨inner.expression, e.path⟩
  | .text chunk => e.fail (.notPlaceable chunk)

end Pattern

/-- What a select expression chooses by, and what among. -/
structure Selection where
  selector : Expression
  variants : List Variant
  deriving Repr

namespace Expression

variable {α : Type}

def wrongKind (s : Subject Expression) (wanted : String) : Verdict α :=
  s.fail (.expressionKind wanted s.node)

def variableRef (s : Subject Expression) (name : String) : Verdict Unit :=
  match s.node with
  | .variableRef id _ => s.equalText id.name name
  | _ => wrongKind s "a variable reference"

/-- A number literal as it is written. -/
def number (s : Subject Expression) (raw : String) : Verdict Unit :=
  match s.node with
  | .number literal => s.equalText literal.raw raw
  | _ => wrongKind s "a number literal"

/-- A string literal by its meaning. -/
def string (s : Subject Expression) (value : String) : Verdict Unit :=
  match s.node with
  | .string actual _ _ => s.equalText actual value
  | _ => wrongKind s "a string literal"

/-- The attribute that a reference asks for. -/
def accessor (s : Subject Expression) (actual : Option Identifier) (expected : Option String) :
    Verdict Unit :=
  let actual := actual.map (·.name)
  s.require (actual == expected) (.accessor expected actual)

def messageRef (s : Subject Expression) (id : String) (name : Option String) : Verdict Unit :=
  match s.node with
  | .messageRef actual a _ => do
    s.equalText actual.name id
    accessor s a name
  | _ => wrongKind s "a message reference"

def termRef (s : Subject Expression) (id : String) (name : Option String) : Verdict Unit :=
  match s.node with
  | .termRef actual a _ _ => do
    s.equalText actual.name id
    accessor s a name
  | _ => wrongKind s "a term reference"

def functionRef (s : Subject Expression) (name : String) : Verdict Unit :=
  match s.node with
  | .functionRef id _ _ => s.equalText id.name name
  | _ => wrongKind s "a function reference"

/-- The arguments of a function call, or of a term that is called. -/
def arguments (s : Subject Expression) : Verdict (Subject CallArguments) :=
  match s.node with
  | .functionRef _ a _ | .termRef _ _ (some a) _ => .ok (s.part "arguments" a)
  | .termRef _ _ none _ => s.fail .noArguments
  | _ => wrongKind s "a call"

def select (s : Subject Expression) : Verdict (Subject Selection) :=
  match s.node with
  | .select selector variants _ => .ok (s.part "select" ⟨selector, variants⟩)
  | _ => wrongKind s "a select expression"

/-- The expression of a placeable inside a placeable. -/
def placeable (s : Subject Expression) : Verdict (Subject Expression) :=
  match s.node with
  | .placeable inner => .ok (s.part "placeable" inner.expression)
  | _ => wrongKind s "a placeable"

end Expression

namespace CallArguments

def positionalCount (s : Subject CallArguments) (n : Nat) : Verdict Unit :=
  s.require (s.node.positional.length == n) (.positionalCount n s.node)

def namedCount (s : Subject CallArguments) (n : Nat) : Verdict Unit :=
  s.require (s.node.named.length == n) (.namedCount n s.node)

def positional (s : Subject CallArguments) (index : Nat) : Verdict (Subject Expression) :=
  s.item "positional" s.node.positional index (.noPositional index s.node)

/-- The value of a named argument. -/
def named (s : Subject CallArguments) (name : String) : Verdict (Subject Expression) :=
  match s.node.named? name with
  | some a => .ok (s.part name a.value)
  | none => s.fail (.noNamed name s.node)

end CallArguments

namespace Select

def selector (s : Subject Selection) : Subject Expression := s.part "selector" s.node.selector

def variantCount (s : Subject Selection) (n : Nat) : Verdict Unit :=
  s.require (s.node.variants.length == n) (.variantCount n s.node.variants)

/-- The key of the first default variant. -/
def defaultKey (s : Subject Selection) (expected : String) : Verdict Unit :=
  match defaultVariant? s.node.variants with
  | some v => s.equalText v.key.name expected
  | none => s.fail .noDefault

def variant (s : Subject Selection) (index : Nat) : Verdict (Subject Variant) :=
  s.item "variants" s.node.variants index (.noVariant index s.node.variants)

end Select

namespace Variant

def key (s : Subject Variant) (expected : String) : Verdict Unit :=
  s.equalText s.node.key.name expected

def isDefault (s : Subject Variant) (expected : Bool) : Verdict Unit :=
  s.require (s.node.isDefault == expected) (.isDefault expected s.node.isDefault)

def valueText (s : Subject Variant) (expected : String) : Verdict Unit :=
  s.equalText s.node.value.display expected

def value (s : Subject Variant) : Subject Pattern := s.part "value" s.node.value

end Variant

end Fluent.Check
