import Fluent.Tree.Outline

/-!
# Drawn trees

One line per node: connectors that show the nesting, two columns per level, then an icon and a label
of at most thirty characters. Line numbers, counted from one, may stand in front.
-/

namespace Fluent.Treeviz

/-- How lines begin: the width of the line numbers, if there are any. -/
structure Style where
  numberWidth : Option Nat
  deriving Repr

/-- A number with zeros in front. -/
def padZeros (width n : Nat) : String :=
  let digits := (toString n).toList
  String.ofList (List.replicate (width - digits.length) '0' ++ digits)

namespace Style

/-- What stands in front of a node's line. -/
def margin (s : Style) (l : Location) : String :=
  match s.numberWidth with
  | none => ""
  | some width => padZeros width (l.start.line + 1) ++ " "

end Style

mutual

/-- The lines of a node below the root: what is drawn in front of it, and whether it is the last child
of its parent. -/
def drawNode (s : Style) (lead : String) (isLast : Bool) : Outline → List String
  | ⟨kind, label, _, location, children⟩ =>
    (s.margin location ++ lead ++ (if isLast then "└─" else "├─") ++ " " ++ kind.icon ++ " "
        ++ truncate 30 "..." label ++ "\n")
      :: drawNodes s (lead ++ if isLast then "  " else "│ ") children

/-- The lines of the children of a node. -/
def drawNodes (s : Style) (lead : String) : List Outline → List String
  | [] => []
  | o :: os => drawNode s lead os.isEmpty o ++ drawNodes s lead os

end

/-- The lines of a tree. -/
def drawLines (s : Style) (o : Outline) : List String :=
  (s.margin o.location ++ o.kind.icon ++ " " ++ o.label ++ "\n") :: drawNodes s "" o.children

/-- A resource as a drawn tree, with line numbers or without. -/
def render (numbered : Bool) (r : Resource) : String :=
  let width := max 2 (toString (r.location.stop.line + 1)).length
  String.join (drawLines ⟨if numbered then some width else none⟩ r.outline)

end Fluent.Treeviz
