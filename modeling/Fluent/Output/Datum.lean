import Fluent.Resource

/-!
# Plain data

A syntax tree as records, lists and scalars, the form that structured output starts from. Fields stand
in the order of the tree's own.
-/

namespace Fluent

/-- A value of plain data. The fields of a record are in order. -/
inductive Datum where
  | null
  | bool (b : Bool)
  | nat (n : Nat)
  | number (x : Binary64)
  | text (s : String)
  | list (ds : List Datum)
  | record (fields : List (String × Datum))
  deriving Repr, Inhabited

namespace Datum

/-- A value that may be missing. -/
def ofOption {α : Type} (f : α → Datum) : Option α → Datum
  | none => null
  | some a => f a

end Datum

/-- How locations and the values of numbers are written. -/
structure DatumStyle where
  location : Location → Datum
  number : Binary64 → Datum

def Span.toDatum (s : Span) : Datum := .record [("start", .nat s.start), ("end", .nat s.stop)]

def Position.toDatum (p : Position) : Datum :=
  .record [("line", .nat p.line), ("column", .nat p.column)]

def Location.toDatum (l : Location) : Datum :=
  .record [("span", l.span.toDatum), ("start", l.start.toDatum), ("end", l.stop.toDatum)]

/-- Locations as records, numbers as numbers. -/
def DatumStyle.full : DatumStyle := ⟨Location.toDatum, .number⟩

def CommentLevel.name : CommentLevel → String
  | .comment => "comment"
  | .group => "group"
  | .resource => "resource"

def Fault.toDatum : Fault → Datum
  | unexpected position expected found =>
    .record [("kind", .text "syntax"), ("position", .nat position), ("expected", .text expected.text),
      ("found", .text found.text)]
  | unfinishedLine span => .record [("kind", .text "unfinished-line"), ("span", span.toDatum)]
  | unterminatedString span => .record [("kind", .text "unterminated-string"), ("span", span.toDatum)]
  | invalidEscape span raw =>
    .record [("kind", .text "invalid-escape"), ("span", span.toDatum), ("raw", .text raw)]
  | duplicateId span id =>
    .record [("kind", .text "duplicate-id"), ("span", span.toDatum), ("id", .text id)]

/-- A record that names its type first. -/
def Datum.typed (type : String) (fields : List (String × Datum)) : Datum :=
  .record (("type", .text type) :: fields)

section

variable (style : DatumStyle)

def Identifier.toDatum (id : Identifier) : Datum :=
  .record [("name", .text id.name), ("location", style.location id.location)]

def NumberLiteral.fields (n : NumberLiteral) : List (String × Datum) :=
  [("raw", .text n.raw), ("value", style.number n.value), ("location", style.location n.location)]

def VariantKey.toDatum : VariantKey → Datum
  | identifier id =>
    .typed "Identifier" [("name", .text id.name), ("location", style.location id.location)]
  | number n => .typed "NumberLiteral" (n.fields style)

mutual

def Expression.toDatum : Expression → Datum
  | .string value raw location =>
    .typed "StringLiteral"
      [("value", .text value), ("raw", .text raw), ("location", style.location location)]
  | .number n => .typed "NumberLiteral" (n.fields style)
  | .variableRef id location =>
    .typed "VariableReference" [("id", id.toDatum style), ("location", style.location location)]
  | .messageRef id accessor location =>
    .typed "MessageReference"
      [("id", id.toDatum style), ("attribute", .ofOption (Identifier.toDatum style) accessor),
        ("location", style.location location)]
  | .termRef id accessor arguments location =>
    .typed "TermReference"
      [("id", id.toDatum style), ("attribute", .ofOption (Identifier.toDatum style) accessor),
        ("arguments", match arguments with
          | none => .null
          | some a => a.toDatum),
        ("location", style.location location)]
  | .functionRef id arguments location =>
    .typed "FunctionReference"
      [("id", id.toDatum style), ("arguments", arguments.toDatum),
        ("location", style.location location)]
  | .select selector variants location =>
    .typed "SelectExpression"
      [("selector", selector.toDatum), ("variants", .list (variantData variants)),
        ("location", style.location location)]
  | .placeable inner => .typed "Placeable" inner.fields

def Placeable.fields : Placeable → List (String × Datum)
  | ⟨e, location⟩ => [("expression", e.toDatum), ("location", style.location location)]

def CallArguments.toDatum : CallArguments → Datum
  | ⟨positional, named, location⟩ =>
    .record [("positional", .list (expressionData positional)), ("named", .list (argumentData named)),
      ("location", style.location location)]

def expressionData : List Expression → List Datum
  | [] => []
  | e :: es => e.toDatum :: expressionData es

def argumentData : List NamedArgument → List Datum
  | [] => []
  | a :: as => a.toDatum :: argumentData as

def NamedArgument.toDatum : NamedArgument → Datum
  | ⟨name, value, location⟩ =>
    .record [("name", name.toDatum style), ("value", value.toDatum),
      ("location", style.location location)]

def variantData : List Variant → List Datum
  | [] => []
  | v :: vs => v.toDatum :: variantData vs

def Variant.toDatum : Variant → Datum
  | ⟨key, value, isDefault, location⟩ =>
    .record [("key", key.toDatum style), ("value", value.toDatum), ("default", .bool isDefault),
      ("location", style.location location)]

def Pattern.toDatum : Pattern → Datum
  | ⟨elements, location⟩ =>
    .record [("elements", .list (elementData elements)), ("location", style.location location)]

def elementData : List PatternElement → List Datum
  | [] => []
  | e :: es => e.toDatum :: elementData es

def PatternElement.toDatum : PatternElement → Datum
  | .text chunk =>
    .typed "TextChunk" [("value", .text chunk.value), ("location", style.location chunk.location)]
  | .placeable inner => .typed "Placeable" inner.fields

end

def Attribute.toDatum (a : Attribute) : Datum :=
  .record [("id", a.id.toDatum style), ("value", a.value.toDatum style),
    ("location", style.location a.location)]

def Comment.fields (c : Comment) : List (String × Datum) :=
  [("level", .text c.level.name), ("content", .text c.content), ("location", style.location c.location)]

def Entry.toDatum : Entry → Datum
  | message m =>
    .typed "Message"
      [("id", m.id.toDatum style), ("value", .ofOption (Pattern.toDatum style) m.value),
        ("attributes", .list (m.attributes.map (Attribute.toDatum style))),
        ("comment", .ofOption (fun c => .record (Comment.fields style c)) m.comment),
        ("location", style.location m.location)]
  | term t =>
    .typed "Term"
      [("id", t.id.toDatum style), ("value", t.value.toDatum style),
        ("attributes", .list (t.attributes.map (Attribute.toDatum style))),
        ("comment", .ofOption (fun c => .record (Comment.fields style c)) t.comment),
        ("location", style.location t.location)]
  | comment c => .typed "Comment" (c.fields style)
  | junk j =>
    .typed "Junk"
      [("content", .text j.content), ("error", j.fault.toDatum),
        ("location", style.location j.location)]

def Resource.fields (r : Resource) : List (String × Datum) :=
  [("body", .list (r.body.map (Entry.toDatum style))), ("location", style.location r.location)]

def Resource.toDatum (r : Resource) : Datum := .record (r.fields style)

end

end Fluent
