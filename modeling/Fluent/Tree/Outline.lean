import Fluent.Tree.Node

/-!
# Outlines

A tree of one shape for all kinds of node: a kind, a label, a few named properties, a location and
children. A select expression is one node of its outline.
-/

namespace Fluent

structure Outline where
  kind : NodeKind
  label : String
  properties : List (String × String)
  location : Location
  children : List Outline
  deriving Repr

namespace Outline

/-- The outline of a node. -/
def ofNode (n : Node) (properties : List (String × String)) (children : List Outline) : Outline :=
  ⟨n.kind, n.label, properties, n.location, children⟩

mutual

/-- The number of nodes. -/
def nodeCount : Outline → Nat
  | ⟨_, _, _, _, children⟩ => 1 + nodeCounts children

/-- The number of nodes of several outlines. -/
def nodeCounts : List Outline → Nat
  | [] => 0
  | o :: os => nodeCount o + nodeCounts os

end

end Outline

mutual

def Expression.outline : Expression → Outline
  | .string value raw l => .ofNode (.expression (.string value raw l)) [("value", value)] []
  | .number n => .ofNode (.expression (.number n)) [("value", n.value.text)] []
  | .variableRef id l => .ofNode (.expression (.variableRef id l)) [] []
  | .messageRef id accessor l => .ofNode (.expression (.messageRef id accessor l)) [] []
  | .termRef id accessor arguments l =>
    .ofNode (.expression (.termRef id accessor arguments l)) [] <|
      match arguments with
      | none => []
      | some a => [a.outline]
  | .functionRef id arguments l =>
    .ofNode (.expression (.functionRef id arguments l)) [] [arguments.outline]
  | .select selector variants l =>
    .ofNode (.select selector variants l) [("variants", toString variants.length)]
      (selector.outline :: outlineVariants variants)
  | .placeable inner => inner.outline

def Placeable.outline : Placeable → Outline
  | ⟨e, l⟩ => .ofNode (.placeable ⟨e, l⟩) [] [e.outline]

def CallArguments.outline : CallArguments → Outline
  | ⟨positional, named, l⟩ =>
    .ofNode (.arguments ⟨positional, named, l⟩) []
      (outlineExpressions positional ++ outlineArguments named)

def outlineExpressions : List Expression → List Outline
  | [] => []
  | e :: es => e.outline :: outlineExpressions es

def outlineArguments : List NamedArgument → List Outline
  | [] => []
  | a :: as => a.outline :: outlineArguments as

def NamedArgument.outline : NamedArgument → Outline
  | ⟨name, value, l⟩ => .ofNode (.named ⟨name, value, l⟩) [("name", name.name)] [value.outline]

def outlineVariants : List Variant → List Outline
  | [] => []
  | v :: vs => v.outline :: outlineVariants vs

def Variant.outline : Variant → Outline
  | ⟨key, value, isDefault, l⟩ =>
    .ofNode (.variant ⟨key, value, isDefault, l⟩)
      [("key", key.name), ("default", if isDefault then "true" else "false")] [value.outline]

def Pattern.outline : Pattern → Outline
  | ⟨elements, l⟩ => .ofNode (.pattern ⟨elements, l⟩) [] (outlineElements elements)

def outlineElements : List PatternElement → List Outline
  | [] => []
  | e :: es => e.outline :: outlineElements es

def PatternElement.outline : PatternElement → Outline
  | .text chunk => .ofNode (.text chunk) [] []
  | .placeable inner => inner.outline

end

def Attribute.outline (a : Attribute) : Outline :=
  .ofNode (.attribute a) [("id", a.id.name)] [a.value.outline]

/-- The outline of a comment tells how many lines it has. -/
def Comment.outline (c : Comment) : Outline :=
  .ofNode (.comment c) [("lines", toString (Line.all c.content.toList).length)] []

def Entry.outline : Entry → Outline
  | message m =>
    .ofNode (.message m) [("id", m.id.name)]
      ((m.comment.map Comment.outline).toList ++ (m.value.map Pattern.outline).toList
        ++ m.attributes.map Attribute.outline)
  | term t =>
    .ofNode (.term t) [("id", t.id.name)]
      ((t.comment.map Comment.outline).toList ++ t.value.outline :: t.attributes.map Attribute.outline)
  | comment c => c.outline
  | junk j => .ofNode (.junk j) [("error", j.fault.message), ("code", j.fault.code)] []

def Resource.outline (r : Resource) : Outline := .ofNode (.resource r) [] (r.body.map Entry.outline)

end Fluent
