import Fluent.Tree.Outline
import Fluent.Tree.Walk

/-!
# Walks and outlines

A walk and an outline go over the same tree, each in its own way. Both come to the same nodes in the same order, and a
walk leaves the nodes that it leaves at all in the reverse of the order in which it came to them.

* `Outline.preorder`: the nodes of an outline, parents before children.
* `WalkEvent.shown?`: what a call of a walk tells of a node of the outline.
* `Closes`: calls that leave what was visited last.
* `Traces`: calls that go over the nodes of some outlines; `Resource.traces` says that a walk does.
-/

namespace Fluent

/-! ## Nodes in order -/

/-- What is told of a node: its kind, its label and its location. -/
abbrev NodeFacts := NodeKind × String × Location

def Node.facts (n : Node) : NodeFacts := (n.kind, n.label, n.location)

namespace Outline

mutual

/-- The nodes of an outline, parents before children. -/
def preorder : Outline → List NodeFacts
  | ⟨kind, label, _, location, children⟩ => (kind, label, location) :: preorders children

/-- The nodes of several outlines. -/
def preorders : List Outline → List NodeFacts
  | [] => []
  | o :: os => preorder o ++ preorders os

end

theorem preorder_ofNode (n : Node) (properties : List (String × String)) (children : List Outline) :
    (ofNode n properties children).preorder = n.facts :: preorders children := rfl

theorem preorders_append (os ps : List Outline) :
    preorders (os ++ ps) = preorders os ++ preorders ps := by
  induction os with
  | nil => rfl
  | cons o os ih => rw [List.cons_append, preorders, ih, preorders, List.append_assoc]

theorem preorders_singleton (o : Outline) : preorders [o] = o.preorder := List.append_nil _

/-- An outline has as many nodes as it counts. -/
theorem length_preorder (o : Outline) : o.preorder.length = o.nodeCount := by
  induction o using Outline.rec (motive_2 := fun os => (preorders os).length = nodeCounts os) with
  | mk kind label properties location children ih =>
    rw [preorder, List.length_cons, ih, nodeCount, Nat.add_comm]
  | nil => rfl
  | cons o os iho ihos => rw [preorders, List.length_append, iho, ihos, nodeCounts]

end Outline

/-! ## Calls -/

namespace Node

/-- A select expression and a placeable among expressions are nodes of their own right after. -/
def isShown : Node → Bool
  | expression (.select ..) | expression (.placeable _) => false
  | _ => true

/-- The kinds of node that a walk leaves again. -/
def isLeft : Node → Bool
  | resource _ | message _ | term _ | .attribute _ | pattern _ | placeable _ | select .. | variant _
  | arguments _ => true
  | _ => false

end Node

/-- What a call tells of a node of the outline. -/
def WalkEvent.shown? : WalkEvent → Option NodeFacts
  | visit n => if n.isShown then some n.facts else none
  | leave _ => none

/-- Calls that go from some open nodes, the one visited last in front, to others: a node of a kind that is left is open
from its visit on, and only the node in front can be left. -/
inductive Closes : List Node → List WalkEvent → List Node → Prop
  | done (opened : List Node) : Closes opened [] opened
  | visit {n : Node} {opened rest : List Node} {es : List WalkEvent} :
    n.isLeft = true → Closes (n :: opened) es rest → Closes opened (.visit n :: es) rest
  | pass {n : Node} {opened rest : List Node} {es : List WalkEvent} :
    n.isLeft = false → Closes opened es rest → Closes opened (.visit n :: es) rest
  | leave {n : Node} {opened rest : List Node} {es : List WalkEvent} :
    Closes opened es rest → Closes (n :: opened) (.leave n :: es) rest

theorem Closes.trans {opened middle rest : List Node} {es fs : List WalkEvent} (h : Closes opened es middle)
    (h' : Closes middle fs rest) : Closes opened (es ++ fs) rest := by
  induction h with
  | done => exact h'
  | visit hn _ ih => exact .visit hn (ih h')
  | pass hn _ ih => exact .pass hn (ih h')
  | leave _ ih => exact .leave (ih h')

/-! ## Calls that go over outlines -/

/-- Calls that go over the nodes of some outlines, in order. The cases tell how a node of the walk and one of the
outline correspond: most nodes are left behind their children, some are not, and select expressions and placeables have
a call of their own that is none of the outline. -/
inductive Traces : List WalkEvent → List Outline → Prop
  | nil : Traces [] []
  | append {es fs : List WalkEvent} {os ps : List Outline} :
    Traces es os → Traces fs ps → Traces (es ++ fs) (os ++ ps)
  /-- A node that is left after its children. -/
  | around {n : Node} (properties : List (String × String)) {es : List WalkEvent} {os : List Outline} :
    n.isShown = true → n.isLeft = true → Traces es os →
      Traces (.visit n :: es ++ [.leave n]) [.ofNode n properties os]
  /-- A node that is not left. -/
  | before {n : Node} (properties : List (String × String)) {es : List WalkEvent} {os : List Outline} :
    n.isShown = true → n.isLeft = false → Traces es os → Traces (.visit n :: es) [.ofNode n properties os]
  /-- A call on a node that is none of the outline. -/
  | hidden {n : Node} {es : List WalkEvent} {os : List Outline} :
    n.isShown = false → n.isLeft = false → Traces es os → Traces (.visit n :: es) os

theorem Traces.leaf {n : Node} (properties : List (String × String)) (hshown : n.isShown = true)
    (hleft : n.isLeft = false) : Traces [.visit n] [.ofNode n properties []] :=
  .before properties hshown hleft .nil

theorem Traces.cons {es fs : List WalkEvent} {o : Outline} {os : List Outline} (h : Traces es [o])
    (h' : Traces fs os) : Traces (es ++ fs) (o :: os) := .append h h'

theorem Traces.flatMap {α : Type} {walk : α → List WalkEvent} {outline : α → Outline}
    (h : ∀ a, Traces (walk a) [outline a]) (as : List α) : Traces (as.flatMap walk) (as.map outline) := by
  induction as with
  | nil => exact .nil
  | cons a as ih => exact .cons (h a) ih

/-- The calls come to the nodes in order. -/
theorem Traces.preorder {es : List WalkEvent} {os : List Outline} (h : Traces es os) :
    es.filterMap WalkEvent.shown? = Outline.preorders os := by
  induction h with
  | nil => rfl
  | append _ _ ih ih' => rw [List.filterMap_append, ih, ih', Outline.preorders_append]
  | around _ hshown _ _ ih =>
    simp [WalkEvent.shown?, hshown, ih, Outline.preorders_singleton, Outline.preorder_ofNode]
  | before _ hshown _ _ ih =>
    simp [WalkEvent.shown?, hshown, ih, Outline.preorders_singleton, Outline.preorder_ofNode]
  | hidden hshown _ _ ih => simp [WalkEvent.shown?, hshown, ih]

/-- The calls leave what they opened. -/
theorem Traces.closes {es : List WalkEvent} {os : List Outline} (h : Traces es os) (opened : List Node) :
    Closes opened es opened := by
  induction h generalizing opened with
  | nil => exact .done opened
  | append _ _ ih ih' => exact (ih opened).trans (ih' opened)
  | around _ _ hleft _ ih => exact .visit hleft ((ih _).trans (.leave (.done opened)))
  | before _ _ hleft _ ih => exact .pass hleft (ih opened)
  | hidden _ hleft _ ih => exact .pass hleft (ih opened)

/-! ## Walks go over outlines -/

mutual

theorem Expression.traces : ∀ e : Expression, Traces e.walk [e.outline]
  | .string _ _ _ => .leaf _ rfl rfl
  | .number _ => .leaf _ rfl rfl
  | .variableRef _ _ => .leaf _ rfl rfl
  | .messageRef _ _ _ => .leaf _ rfl rfl
  | .termRef _ _ none _ => .leaf _ rfl rfl
  | .termRef _ _ (some a) _ => .before _ rfl rfl a.traces
  | .functionRef _ a _ => .before _ rfl rfl a.traces
  | .select selector variants _ =>
    .hidden rfl rfl (.around _ rfl rfl (.cons selector.traces (traces_walkVariants variants)))
  | .placeable inner => .hidden rfl rfl inner.traces

theorem Placeable.traces : ∀ p : Placeable, Traces p.walk [p.outline]
  | ⟨e, _⟩ => .around _ rfl rfl e.traces

theorem CallArguments.traces : ∀ a : CallArguments, Traces a.walk [a.outline]
  | ⟨positional, named, _⟩ => by
    have hchildren := (traces_walkExpressions positional).append (traces_walkArguments named)
    exact .around _ rfl rfl hchildren

theorem traces_walkExpressions : ∀ es : List Expression, Traces (walkExpressions es) (outlineExpressions es)
  | [] => .nil
  | e :: es => .cons e.traces (traces_walkExpressions es)

theorem traces_walkArguments : ∀ as : List NamedArgument, Traces (walkArguments as) (outlineArguments as)
  | [] => .nil
  | a :: as => .cons a.traces (traces_walkArguments as)

theorem NamedArgument.traces : ∀ a : NamedArgument, Traces a.walk [a.outline]
  | ⟨_, value, _⟩ => .before _ rfl rfl value.traces

theorem traces_walkVariants : ∀ vs : List Variant, Traces (walkVariants vs) (outlineVariants vs)
  | [] => .nil
  | v :: vs => .cons v.traces (traces_walkVariants vs)

theorem Variant.traces : ∀ v : Variant, Traces v.walk [v.outline]
  | ⟨_, value, _, _⟩ => .around _ rfl rfl value.traces

theorem Pattern.traces : ∀ p : Pattern, Traces p.walk [p.outline]
  | ⟨elements, _⟩ => .around _ rfl rfl (traces_walkElements elements)

theorem traces_walkElements : ∀ es : List PatternElement, Traces (walkElements es) (outlineElements es)
  | [] => .nil
  | e :: es => .cons e.traces (traces_walkElements es)

theorem PatternElement.traces : ∀ e : PatternElement, Traces e.walk [e.outline]
  | .text _ => .leaf _ rfl rfl
  | .placeable inner => inner.traces

end

theorem Attribute.traces (a : Attribute) : Traces a.walk [a.outline] := .around _ rfl rfl a.value.traces

theorem Comment.traces (c : Comment) : Traces [.visit (.comment c)] [c.outline] := .leaf _ rfl rfl

theorem traces_walkComment (c : Option Comment) :
    Traces (walkComment c) (c.map Comment.outline).toList := by
  cases c with
  | none => exact .nil
  | some c => exact c.traces

theorem traces_walkValue (p : Option Pattern) :
    Traces ((p.map Pattern.walk).getD []) (p.map Pattern.outline).toList := by
  cases p with
  | none => exact .nil
  | some p => exact p.traces

theorem Entry.traces (e : Entry) : Traces e.walk [e.outline] := by
  cases e with
  | message m =>
    have hattributes := Traces.flatMap Attribute.traces m.attributes
    have hchildren := ((traces_walkComment m.comment).append (traces_walkValue m.value)).append hattributes
    exact .around _ rfl rfl hchildren
  | term t =>
    have hattributes := Traces.flatMap Attribute.traces t.attributes
    have hchildren := (traces_walkComment t.comment).append (t.value.traces.append hattributes)
    rw [← List.append_assoc] at hchildren
    exact .around _ rfl rfl hchildren
  | comment c => exact c.traces
  | junk j => exact .leaf _ rfl rfl

theorem Resource.traces (r : Resource) : Traces r.walk [r.outline] :=
  .around _ rfl rfl (.flatMap Entry.traces r.body)

/-- **A walk and an outline agree.** The visits of a walk, those of select expressions and placeables as expressions
apart, come to the nodes of the outline in order, with their kinds, labels and locations. Every call that leaves a node
leaves the one that was visited last of those still open, and none is open in the end. -/
theorem walk_agrees_outline (r : Resource) :
    r.walk.filterMap WalkEvent.shown? = r.outline.preorder ∧ Closes [] r.walk [] := by
  have htraces := r.traces
  refine ⟨?_, htraces.closes []⟩
  rw [htraces.preorder, Outline.preorders_singleton]

end Fluent
