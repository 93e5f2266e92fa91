import Fluent.Tree.Node

/-!
# Walks

A walk calls on every node of a tree, parents before children. A node with children, named arguments
and expressions other than select expressions excepted, is left again after the last of them.
-/

namespace Fluent

/-- One call of a walk. -/
inductive WalkEvent where
  | visit (n : Node)
  | leave (n : Node)
  deriving Repr

mutual

def Expression.walk : Expression → List WalkEvent
  | .termRef id accessor arguments l =>
    .visit (.expression (.termRef id accessor arguments l))
      :: match arguments with
        | none => []
        | some a => a.walk
  | .functionRef id arguments l =>
    .visit (.expression (.functionRef id arguments l)) :: arguments.walk
  | .select selector variants l =>
    .visit (.expression (.select selector variants l)) :: .visit (.select selector variants l)
      :: selector.walk ++ walkVariants variants ++ [.leave (.select selector variants l)]
  | .placeable inner => .visit (.expression (.placeable inner)) :: inner.walk
  | .string value raw l => [.visit (.expression (.string value raw l))]
  | .number n => [.visit (.expression (.number n))]
  | .variableRef id l => [.visit (.expression (.variableRef id l))]
  | .messageRef id accessor l => [.visit (.expression (.messageRef id accessor l))]

def Placeable.walk : Placeable → List WalkEvent
  | ⟨e, l⟩ => .visit (.placeable ⟨e, l⟩) :: e.walk ++ [.leave (.placeable ⟨e, l⟩)]

def CallArguments.walk : CallArguments → List WalkEvent
  | ⟨positional, named, l⟩ =>
    .visit (.arguments ⟨positional, named, l⟩) :: walkExpressions positional ++ walkArguments named
      ++ [.leave (.arguments ⟨positional, named, l⟩)]

def walkExpressions : List Expression → List WalkEvent
  | [] => []
  | e :: es => e.walk ++ walkExpressions es

def walkArguments : List NamedArgument → List WalkEvent
  | [] => []
  | a :: as => a.walk ++ walkArguments as

def NamedArgument.walk : NamedArgument → List WalkEvent
  | ⟨name, value, l⟩ => .visit (.named ⟨name, value, l⟩) :: value.walk

def walkVariants : List Variant → List WalkEvent
  | [] => []
  | v :: vs => v.walk ++ walkVariants vs

def Variant.walk : Variant → List WalkEvent
  | ⟨key, value, isDefault, l⟩ =>
    .visit (.variant ⟨key, value, isDefault, l⟩) :: value.walk
      ++ [.leave (.variant ⟨key, value, isDefault, l⟩)]

def Pattern.walk : Pattern → List WalkEvent
  | ⟨elements, l⟩ =>
    .visit (.pattern ⟨elements, l⟩) :: walkElements elements ++ [.leave (.pattern ⟨elements, l⟩)]

def walkElements : List PatternElement → List WalkEvent
  | [] => []
  | e :: es => e.walk ++ walkElements es

def PatternElement.walk : PatternElement → List WalkEvent
  | .text chunk => [.visit (.text chunk)]
  | .placeable inner => inner.walk

end

def Attribute.walk (a : Attribute) : List WalkEvent :=
  .visit (.attribute a) :: a.value.walk ++ [.leave (.attribute a)]

/-- A comment that may be missing. -/
def walkComment : Option Comment → List WalkEvent
  | none => []
  | some c => [.visit (.comment c)]

def Entry.walk : Entry → List WalkEvent
  | message m =>
    .visit (.message m) :: walkComment m.comment ++ (m.value.map Pattern.walk).getD []
      ++ m.attributes.flatMap Attribute.walk ++ [.leave (.message m)]
  | term t =>
    .visit (.term t) :: walkComment t.comment ++ t.value.walk
      ++ t.attributes.flatMap Attribute.walk ++ [.leave (.term t)]
  | comment c => [.visit (.comment c)]
  | junk j => [.visit (.junk j)]

def Resource.walk (r : Resource) : List WalkEvent :=
  .visit (.resource r) :: r.body.flatMap Entry.walk ++ [.leave (.resource r)]

end Fluent
