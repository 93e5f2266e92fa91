import Fluent.Output.Treeviz
import Fluent.Proofs.Labels
import Fluent.Proofs.Traversal

/-!
# Lines of a drawn tree

A drawn tree has a piece of text for every node of the outline, in order, and every piece ends with a line feed. Whether
there is a line for every node comes down to the labels: the first thirty characters of one may hold a line break, and
then the node is drawn on several lines.

* `Tells`: a piece of text that tells of a node.
* `tells_drawNode`: what is drawn of a node tells of it and of the nodes below.
* `newlines_of_tells`: how many lines some pieces make.
* `render_lines`: the pieces of a drawn resource, and when they are lines.
-/

namespace Fluent.Treeviz

/-- What is drawn in front of an icon: branches and space. -/
def connectors : List Char := ['│', '├', '└', '─', ' ']

/-- A piece of text that tells of a node: after a margin and some connectors, the icon of the node and its label, cut
short, up to a line feed. -/
def Tells (s : Style) (piece : String) (n : NodeFacts) : Prop :=
  ∃ lead : String, lead.toList ⊆ connectors ∧
    piece = s.margin n.2.2 ++ lead ++ n.1.icon ++ " " ++ truncate 30 "..." n.2.1 ++ "\n"

/-! ## Pieces -/

theorem subset_connectors_append {lead more : String} (h : lead.toList ⊆ connectors) (hmore : more.toList ⊆ connectors) :
    (lead ++ more).toList ⊆ connectors := by
  rw [String.toList_append]
  exact List.append_subset.2 ⟨h, hmore⟩

mutual

/-- **What is drawn of a node** tells of it and of the nodes below it, in order. -/
theorem tells_drawNode (s : Style) : ∀ (o : Outline) {lead : String} (isLast : Bool), lead.toList ⊆ connectors →
    List.Forall₂ (Tells s) (drawNode s lead isLast o) o.preorder
  | ⟨kind, label, _, location, children⟩, lead, isLast, h => by
    have hbranch : (if isLast then "└─" else "├─").toList ⊆ connectors := by cases isLast <;> decide
    have hbelow : (if isLast then "  " else "│ ").toList ⊆ connectors := by cases isLast <;> decide
    have hspace : " ".toList ⊆ connectors := by decide
    have hchildren := tells_drawNodes s children (subset_connectors_append h hbelow)
    rw [drawNode, Outline.preorder]
    refine .cons ⟨lead ++ (if isLast then "└─" else "├─") ++ " ", ?_, ?_⟩ hchildren
    · exact subset_connectors_append (subset_connectors_append h hbranch) hspace
    · simp only [String.append_assoc]

theorem tells_drawNodes (s : Style) : ∀ (os : List Outline) {lead : String}, lead.toList ⊆ connectors →
    List.Forall₂ (Tells s) (drawNodes s lead os) (Outline.preorders os)
  | [], _, _ => .nil
  | o :: os, _, h => List.rel_append (tells_drawNode s o os.isEmpty h) (tells_drawNodes s os h)

end

/-! ## Lines -/

theorem newline_notMem_margin (s : Style) (l : Location) : '\n' ∉ (s.margin l).toList := by
  rw [Style.margin]
  cases s.numberWidth with
  | none => exact List.not_mem_nil
  | some width =>
    have hdigits := newline_notMem_toDigits (l.start.line + 1)
    simp [padZeros, hdigits]

theorem newline_notMem_icon (k : NodeKind) : '\n' ∉ k.icon.toList := by
  cases k <;> decide

/-- A piece makes a line, and one more for every line break in the label that it shows. -/
theorem newlines_of_tells {s : Style} {piece : String} {n : NodeFacts} (h : Tells s piece n) :
    piece.toList.count '\n' = 1 + (truncate 30 "..." n.2.1).toList.count '\n' := by
  obtain ⟨lead, hlead, rfl⟩ := h
  have hmargin := List.count_eq_zero.2 (newline_notMem_margin s n.2.2)
  have hicon := List.count_eq_zero.2 (newline_notMem_icon n.1)
  have hlead : lead.toList.count '\n' = 0 := List.count_eq_zero.2 fun hmem => absurd (hlead hmem) (by decide)
  have hspace : " ".toList.count '\n' = 0 := by decide
  have hend : "\n".toList.count '\n' = 1 := by decide
  simp only [String.toList_append, List.count_append]
  omega

/-- **Pieces make a line each** exactly if no label that they show holds a line break. -/
theorem newlines_of_tellsAll {s : Style} {pieces : List String} {ns : List NodeFacts}
    (h : List.Forall₂ (Tells s) pieces ns) :
    ns.length ≤ (String.join pieces).toList.count '\n' ∧
      ((String.join pieces).toList.count '\n' = ns.length ↔ ∀ n ∈ ns, '\n' ∉ n.2.1.toList.take 30) := by
  rw [String.toList_join]
  induction h with
  | nil => simp
  | @cons piece n pieces ns hpiece _ ih =>
    obtain ⟨hle, hiff⟩ := ih
    have hcount := newlines_of_tells hpiece
    have hfirst : (truncate 30 "..." n.2.1).toList.count '\n' = 0 ↔ '\n' ∉ n.2.1.toList.take 30 := by
      rw [List.count_eq_zero, newline_mem_truncate (by decide)]
    rw [List.flatMap_cons, List.count_append, List.length_cons, List.forall_mem_cons, ← hfirst, ← hiff]
    omega

/-! ## Drawn resources -/

/-- How the lines of a drawn resource begin. -/
def styleOf (numbered : Bool) (r : Resource) : Style :=
  ⟨if numbered then some (max 2 (toString (r.location.stop.line + 1)).length) else none⟩

/-- The nodes of an outline are those that a walk shows. -/
theorem mem_preorder {r : Resource} {n : NodeFacts} :
    n ∈ r.outline.preorder ↔ ∃ k : Node, .visit k ∈ r.walk ∧ k.isShown = true ∧ n = k.facts := by
  rw [← Outline.preorders_singleton, ← r.traces.preorder, List.mem_filterMap]
  constructor
  · rintro ⟨event, hevent, hshown⟩
    cases event with
    | visit k =>
      rw [WalkEvent.shown?, Option.ite_none_right_eq_some] at hshown
      exact ⟨k, hevent, hshown.1, (Option.some.inj hshown.2).symm⟩
    | leave k => cases hshown
  · rintro ⟨k, hk, hshown, rfl⟩
    exact ⟨.visit k, hk, if_pos hshown⟩

/-- What is drawn of the root: its label is not cut short. -/
def rootPiece (numbered : Bool) (r : Resource) : String :=
  (styleOf numbered r).margin r.location ++ r.outline.kind.icon ++ " " ++ r.outline.label ++ "\n"

theorem newline_notMem_rootLabel (r : Resource) : '\n' ∉ r.outline.label.toList := by
  have hlexical : AllLexical (Node.resource r).tokens := by
    intro t ht
    cases ht
  have hlabel := (Node.resource r).newline_mem_label hlexical
  exact fun hmem => not_breaksIn_nil (hlabel.1 hmem)

theorem newlines_of_rootPiece (numbered : Bool) (r : Resource) :
    (rootPiece numbered r).toList.count '\n' = 1 := by
  have hmargin := List.count_eq_zero.2 (newline_notMem_margin (styleOf numbered r) r.location)
  have hicon := List.count_eq_zero.2 (newline_notMem_icon r.outline.kind)
  have hlabel := List.count_eq_zero.2 (newline_notMem_rootLabel r)
  have hspace : " ".toList.count '\n' = 0 := by decide
  have hend : "\n".toList.count '\n' = 1 := by decide
  simp only [rootPiece, String.toList_append, List.count_append]
  omega

theorem render_eq_join (numbered : Bool) (r : Resource) :
    render numbered r =
      String.join (rootPiece numbered r :: drawNodes (styleOf numbered r) "" r.outline.children) := rfl

theorem tells_render (numbered : Bool) (r : Resource) :
    List.Forall₂ (Tells (styleOf numbered r)) (drawNodes (styleOf numbered r) "" r.outline.children)
      (Outline.preorders r.outline.children) := by
  have hnone : "".toList ⊆ connectors := List.nil_subset _
  exact tells_drawNodes _ _ hnone

theorem preorder_outline (r : Resource) :
    r.outline.preorder = (Node.resource r).facts :: Outline.preorders r.outline.children := rfl

/-- A drawn resource has at least a line for every node, and no more than that if no shown part of a label breaks. -/
theorem newlines_of_render (numbered : Bool) (r : Resource) :
    r.outline.nodeCount ≤ (render numbered r).toList.count '\n' ∧
      ((render numbered r).toList.count '\n' = r.outline.nodeCount ↔
        ∀ n : Node, .visit n ∈ r.walk → n.isShown = true → '\n' ∉ n.label.toList.take 30) := by
  obtain ⟨hle, hiff⟩ := newlines_of_tellsAll (tells_render numbered r)
  have hlines : (render numbered r).toList.count '\n' =
      1 + (String.join (drawNodes (styleOf numbered r) "" r.outline.children)).toList.count '\n' := by
    rw [render_eq_join, String.toList_join, List.flatMap_cons, List.count_append, newlines_of_rootPiece,
      String.toList_join]
  have hcount : r.outline.nodeCount = (Outline.preorders r.outline.children).length + 1 := by
    rw [← Outline.length_preorder, preorder_outline, List.length_cons]
  -- the label of the root never breaks, so the condition may include it
  have hall : (∀ n : Node, .visit n ∈ r.walk → n.isShown = true → '\n' ∉ n.label.toList.take 30) ↔
      ∀ n ∈ Outline.preorders r.outline.children, '\n' ∉ n.2.1.toList.take 30 := by
    constructor
    · intro h n hn
      obtain ⟨k, hk, hshown, rfl⟩ := mem_preorder.1 (preorder_outline r ▸ List.mem_cons_of_mem _ hn)
      exact h k hk hshown
    · intro h n hn hshown
      have hmem : n.facts ∈ r.outline.preorder := mem_preorder.2 ⟨n, hn, hshown, rfl⟩
      rw [preorder_outline] at hmem
      rcases List.mem_cons.1 hmem with heq | hmem
      · have hlabel : n.label = r.outline.label := congrArg (·.2.1) heq
        rw [hlabel]
        exact fun hbreak => newline_notMem_rootLabel r (List.mem_of_mem_take hbreak)
      · exact h _ hmem
  rw [hall, ← hiff]
  omega

/-- **A drawn resource** has a piece of text for every node of the outline, in order, with the icon and the label of the
node; the label is cut short, except that of the root. Every piece ends with a line feed. There are as many lines as
nodes exactly if no node has a line break in the first thirty characters of its label, and else more. A label holds a
line break exactly if it writes out a select expression with a variant whose text has one. -/
theorem render_lines (numbered : Bool) (o : ParseOptions) (source : String) :
    (∃ pieces, render numbered (parse o source) = String.join (rootPiece numbered (parse o source) :: pieces) ∧
      pieces.length + 1 = (parse o source).outline.nodeCount ∧
      List.Forall₂ (Tells (styleOf numbered (parse o source))) pieces
        (Outline.preorders (parse o source).outline.children)) ∧
    (parse o source).outline.nodeCount ≤ (render numbered (parse o source)).toList.count '\n' ∧
    ((render numbered (parse o source)).toList.count '\n' = (parse o source).outline.nodeCount ↔
      ∀ n : Node, .visit n ∈ (parse o source).walk → n.isShown = true → '\n' ∉ n.label.toList.take 30) ∧
    ∀ n : Node, .visit n ∈ (parse o source).walk → ('\n' ∈ n.label.toList ↔ BreaksIn n.displayed) := by
  obtain ⟨hle, hiff⟩ := newlines_of_render numbered (parse o source)
  have htells := tells_render numbered (parse o source)
  refine ⟨⟨_, render_eq_join numbered (parse o source), ?_, ?_⟩, hle, hiff, fun n hn => newline_mem_label hn⟩
  · rw [htells.length_eq, ← Outline.length_preorder, preorder_outline, List.length_cons]
  · exact htells

/-- A placeable with a select expression of two lines is drawn on two lines itself. -/
theorem exists_broken_line :
    (render false (parse ⟨.preserve, 100⟩ "m = \x7b $x ->\n *[a] b\n  c\n\x7d\n")).toList.count '\n' = 11 ∧
      (parse ⟨.preserve, 100⟩ "m = \x7b $x ->\n *[a] b\n  c\n\x7d\n").outline.nodeCount = 10 := by
  decide +kernel

end Fluent.Treeviz
