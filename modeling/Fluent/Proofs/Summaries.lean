import Fluent.Proofs.Documented
import Fluent.Tree.Outline

/-!
# What is told of comments

The outline of a resource has one node for each of its comments, whether it belongs to an entry or stands on its own,
and so one for each run of comment lines of the source, in order. The node lies over the lines of the run and tells how
many lines there are. But it counts them in the text of the comment, where they are joined by line feeds, and a line
feed at the end of a text ends a line and begins none. So a last line that says nothing is not counted.

* `Outline.nodes`: the nodes of an outline; `Outline.comments`: those of comments among them.
* `Resource.comments_outline`: they are the outlines of the comments of a resource.
* `line_getLast`: the lines of a run by their numbers.
* `length_all_intercalate`: how many lines are counted in joined texts.
* `Outline.Tells`: what the node of a run of comment lines tells.
* `tells_comments`: **what the comment nodes of a resource tell**.
-/

namespace Fluent

/-! ## Comment nodes -/

def NodeKind.isComment : NodeKind → Bool
  | comment | groupComment | resourceComment => true
  | _ => false

theorem CommentLevel.isComment_nodeKind (level : CommentLevel) : level.nodeKind.isComment = true := by
  cases level <;> rfl

namespace Outline

mutual

/-- The nodes of an outline, parents before children. -/
def nodes : Outline → List Outline
  | o@⟨_, _, _, _, children⟩ => o :: nodesOf children

/-- The nodes of several outlines. -/
def nodesOf : List Outline → List Outline
  | [] => []
  | o :: os => nodes o ++ nodesOf os

end

theorem nodesOf_eq_flatMap (os : List Outline) : nodesOf os = os.flatMap nodes := by
  induction os with
  | nil => rfl
  | cons o os ih => rw [nodesOf, ih, List.flatMap_cons]

/-- The nodes of comments. -/
def comments (o : Outline) : List Outline := o.nodes.filter (·.kind.isComment)

variable {n : Node} {properties : List (String × String)} {children : List Outline}

/-- Below another node than one of a comment. -/
theorem comments_ofNode (h : n.kind.isComment = false) :
    (ofNode n properties children).comments = children.flatMap comments := by
  rw [comments, ofNode, nodes, List.filter_cons_of_neg (by simp [h]), nodesOf_eq_flatMap, List.filter_flatMap]
  rfl

theorem comments_eq_nil (h : n.kind.isComment = false) (hchildren : ∀ o ∈ children, o.comments = []) :
    (ofNode n properties children).comments = [] := by
  rw [comments_ofNode h]
  exact List.flatMap_eq_nil_iff.2 hchildren

end Outline

/-! Values have no comments. -/

mutual

theorem Expression.comments_outline : ∀ e : Expression, e.outline.comments = []
  | .string _ _ _ | .number _ | .variableRef _ _ | .messageRef _ _ _ => Outline.comments_eq_nil rfl (by simp)
  | .termRef _ _ none _ => Outline.comments_eq_nil rfl (by simp)
  | .termRef _ _ (some a) _ => Outline.comments_eq_nil rfl (List.forall_mem_singleton.2 a.comments_outline)
  | .functionRef _ a _ => Outline.comments_eq_nil rfl (List.forall_mem_singleton.2 a.comments_outline)
  | .select selector variants _ =>
    Outline.comments_eq_nil rfl (List.forall_mem_cons.2 ⟨selector.comments_outline, comments_outlineVariants variants⟩)
  | .placeable inner => inner.comments_outline

theorem Placeable.comments_outline : ∀ p : Placeable, p.outline.comments = []
  | ⟨e, _⟩ => Outline.comments_eq_nil rfl (List.forall_mem_singleton.2 e.comments_outline)

theorem CallArguments.comments_outline : ∀ a : CallArguments, a.outline.comments = []
  | ⟨positional, named, _⟩ => Outline.comments_eq_nil rfl <|
    List.forall_mem_append.2 ⟨comments_outlineExpressions positional, comments_outlineArguments named⟩

theorem comments_outlineExpressions : ∀ es : List Expression, ∀ o ∈ outlineExpressions es, o.comments = []
  | [] => nofun
  | e :: es => List.forall_mem_cons.2 ⟨e.comments_outline, comments_outlineExpressions es⟩

theorem comments_outlineArguments : ∀ as : List NamedArgument, ∀ o ∈ outlineArguments as, o.comments = []
  | [] => nofun
  | a :: as => List.forall_mem_cons.2 ⟨a.comments_outline, comments_outlineArguments as⟩

theorem NamedArgument.comments_outline : ∀ a : NamedArgument, a.outline.comments = []
  | ⟨_, value, _⟩ => Outline.comments_eq_nil rfl (List.forall_mem_singleton.2 value.comments_outline)

theorem comments_outlineVariants : ∀ vs : List Variant, ∀ o ∈ outlineVariants vs, o.comments = []
  | [] => nofun
  | v :: vs => List.forall_mem_cons.2 ⟨v.comments_outline, comments_outlineVariants vs⟩

theorem Variant.comments_outline : ∀ v : Variant, v.outline.comments = []
  | ⟨_, value, _, _⟩ => Outline.comments_eq_nil rfl (List.forall_mem_singleton.2 value.comments_outline)

theorem Pattern.comments_outline : ∀ p : Pattern, p.outline.comments = []
  | ⟨elements, _⟩ => Outline.comments_eq_nil rfl (comments_outlineElements elements)

theorem comments_outlineElements : ∀ es : List PatternElement, ∀ o ∈ outlineElements es, o.comments = []
  | [] => nofun
  | e :: es => List.forall_mem_cons.2 ⟨e.comments_outline, comments_outlineElements es⟩

theorem PatternElement.comments_outline : ∀ e : PatternElement, e.outline.comments = []
  | .text _ => Outline.comments_eq_nil rfl (by simp)
  | .placeable inner => inner.comments_outline

end

theorem Attribute.comments_outline (a : Attribute) : a.outline.comments = [] :=
  Outline.comments_eq_nil rfl (List.forall_mem_singleton.2 a.value.comments_outline)

theorem Comment.comments_outline (k : Comment) : k.outline.comments = [k.outline] := by
  have hkind : k.outline.kind.isComment = true := k.level.isComment_nodeKind
  exact List.filter_eq_self.2 (List.forall_mem_singleton.2 hkind)

/-- The comment that an entry is or has is its only one. -/
theorem Entry.comments_outline (e : Entry) : e.outline.comments = (e.ownComment?.map Comment.outline).toList := by
  have hcomment : ∀ k : Option Comment, (k.map Comment.outline).toList.flatMap Outline.comments =
      (k.map Comment.outline).toList := by
    intro k
    cases k with
    | none => rfl
    | some k => exact (List.append_nil _).trans k.comments_outline
  have hattributes : ∀ as : List Attribute, (as.map Attribute.outline).flatMap Outline.comments = [] := by
    intro as
    exact List.flatMap_eq_nil_iff.2 (List.forall_mem_map.2 fun a _ => a.comments_outline)
  cases e with
  | message m =>
    have hvalue : (m.value.map Pattern.outline).toList.flatMap Outline.comments = [] := by
      cases m.value with
      | none => rfl
      | some p => exact (List.append_nil _).trans p.comments_outline
    rw [Entry.outline, Outline.comments_ofNode rfl, List.flatMap_append, List.flatMap_append, hcomment, hvalue,
      hattributes, List.append_nil, List.append_nil]
    rfl
  | term t =>
    rw [Entry.outline, Outline.comments_ofNode rfl, List.flatMap_append, hcomment, List.flatMap_cons,
      t.value.comments_outline, hattributes, List.append_nil, List.append_nil]
    rfl
  | comment k => exact k.comments_outline
  | junk j => exact Outline.comments_eq_nil rfl (by simp)

/-- **The comment nodes of a resource** are the outlines of its comments. -/
theorem Resource.comments_outline (r : Resource) : r.outline.comments = r.allComments.map Comment.outline := by
  rw [Resource.outline, Outline.comments_ofNode rfl, List.flatMap_map, Resource.allComments, List.map_filterMap]
  induction r.body with
  | nil => rfl
  | cons e es ih =>
    rw [List.flatMap_cons, ih, e.comments_outline]
    cases hown : e.ownComment? with
    | none => simp [hown]
    | some k => simp [hown]

/-! ## The lines of a run -/

/-- Each line of a source is followed by the next one. -/
theorem Cursor.isChain_lines (c : Cursor) : c.lines.IsChain fun d e => e = d.nextLine := by
  fun_induction lines c with
  | case1 => exact .nil
  | case2 c _ _ _ ih =>
    refine List.isChain_cons.2 ⟨?_, ih⟩
    intro d hd
    by_cases hnil : c.nextLine.rest = []
    · rw [lines_of_nil hnil] at hd
      cases hd
    · rw [lines_of_ne_nil hnil] at hd
      exact (Option.some.inj hd).symm

/-- So is each line of a run, but the last one. -/
theorem Maximal.isChain {c : Cursor} {level : CommentLevel} {run : List Cursor} (h : Maximal c.lines level run) :
    run.IsChain fun d e => e = d.nextLine := by
  obtain ⟨before, after, hsplit, -⟩ := h.ends
  have hall := c.isChain_lines
  rw [hsplit] at hall
  exact (List.isChain_append.1 (List.isChain_append.1 hall).1).2.1

/-- **The lines of a run by their numbers**: there are as many as lie from the first one to the last. -/
theorem line_getLast {source : String} {run : List Cursor} (hchain : run.IsChain fun d e => e = d.nextLine)
    (hlines : ∀ d ∈ run, d.rest ≠ [] ∧ d.StartsLine source.toList) :
    ∀ first ∈ run.head?, ∀ last ∈ run.getLast?,
      ((Source.ofString source).lines.position last.offset).line + 1 =
        ((Source.ofString source).lines.position first.offset).line + run.length := by
  induction run with
  | nil => simp
  | cons c cs ih =>
    intro first hfirst last hlast
    obtain rfl := Option.some.inj hfirst
    cases cs with
    | nil =>
      obtain rfl := Option.some.inj hlast
      rfl
    | cons d ds =>
      obtain ⟨hnext, hchain⟩ := List.isChain_cons_cons.1 hchain
      obtain ⟨hc, hds⟩ := List.forall_mem_cons.1 hlines
      obtain ⟨hne, hd⟩ := hds d List.mem_cons_self
      have hline := (line_nextLine_iff hc.2 hd hne).1 hnext
      have hrest := ih hchain hds d rfl last (by rwa [List.getLast?_cons_cons] at hlast)
      rw [hrest, hline, List.length_cons (a := c)]
      omega

/-! ## Counted lines -/

/-- What a comment line says holds no line feed. -/
theorem Line.Says.newline_notMem {level : CommentLevel} {cs text : List Char} (h : Says level cs text) :
    '\n' ∉ text := by
  obtain ⟨behind, hhead, hbehind⟩ := h
  obtain ⟨gap, -, hdrop⟩ := dropReturn_spec behind
  have hnone := newline_notMem_head cs
  rw [hhead, ← hdrop] at hnone
  rcases hbehind with ⟨-, rfl⟩ | hbehind
  · simp
  · rw [hbehind] at hnone
    exact fun hmem => hnone (by simp [hmem])

/-- A comment line says one thing. -/
theorem Line.Says.unique {level : CommentLevel} {cs text text' : List Char} (h : Says level cs text)
    (h' : Says level cs text') : text = text' := by
  obtain ⟨behind, hhead, hbehind⟩ := h
  obtain ⟨behind', hhead', hbehind'⟩ := h'
  obtain rfl := List.append_cancel_left (hhead.symm.trans hhead')
  rcases hbehind with ⟨hnil, rfl⟩ | hcons <;> rcases hbehind' with ⟨hnil', rfl⟩ | hcons'
  · rfl
  · simp [hnil] at hcons'
  · simp [hnil'] at hcons
  · exact (List.cons.inj (hcons.symm.trans hcons')).2

/-- **How many lines are counted in joined texts**: all of them, but not a last one that is empty. -/
theorem length_all_intercalate {texts : List (List Char)} (hne : texts ≠ []) (hnone : ∀ t ∈ texts, '\n' ∉ t) :
    (Line.all (['\n'].intercalate texts)).length = texts.length - if texts.getLast? = some [] then 1 else 0 := by
  have hcount : (['\n'].intercalate texts).count '\n' + 1 = texts.length ∧
      (AtLineStart (['\n'].intercalate texts) ↔ texts.getLast? = some []) := by
    induction texts with
    | nil => contradiction
    | cons t ts ih =>
      obtain ⟨ht, hts⟩ := List.forall_mem_cons.1 hnone
      have hzero := List.count_eq_zero.2 ht
      cases ts with
      | nil =>
        have hlast : t.getLast? ≠ some '\n' := fun hlast => ht (List.mem_of_getLast? hlast)
        simp [hzero, AtLineStart, hlast]
      | cons u us =>
        obtain ⟨hrest, hend⟩ := ih (List.cons_ne_nil u us) hts
        rw [List.intercalate_cons_of_ne_nil (List.cons_ne_nil u us)]
        generalize ['\n'].intercalate (u :: us) = rest at hrest hend
        refine ⟨?_, ?_⟩
        · simp only [List.count_append, List.count_singleton_self, hzero, List.length_cons] at hrest ⊢
          omega
        · rw [List.getLast?_cons_cons, ← hend, List.append_assoc, AtLineStart, AtLineStart]
          cases rest with
          | nil => simp
          | cons x xs => simp [List.getLast?_append, List.getLast?_cons]
  rw [Line.length_all, if_congr hcount.2 rfl rfl]
  split <;> omega

/-- **How many lines are counted in a comment**: those of its run, but not a last one that says nothing. -/
theorem Comment.Keeps.length_all {source : List Char} {k : Comment} {run : List Cursor} (h : k.Keeps source run) :
    ∀ last ∈ run.getLast?, ∃ text, Line.Says k.level last.rest text ∧
      (Line.all k.content.toList).length = run.length - if text = [] then 1 else 0 := by
  obtain ⟨texts, heach, hcontent⟩ := h.content
  intro last hlast
  obtain ⟨text, htext, hlast'⟩ : ∃ text, Line.Says k.level last.rest text ∧ texts.getLast? = some text := by
    have hreverse := List.forall₂_reverse_iff.2 heach
    rw [List.getLast?_eq_head?_reverse] at hlast
    obtain ⟨rest, hrun⟩ := List.head?_eq_some_iff.1 hlast
    rw [hrun] at hreverse
    obtain ⟨text, front, htext, -, htexts⟩ := List.forall₂_cons_left_iff.1 hreverse
    exact ⟨text, htext, by rw [List.getLast?_eq_head?_reverse, htexts]; rfl⟩
  have hnone : ∀ t ∈ texts, '\n' ∉ t := by
    intro t ht
    obtain ⟨i, hi, rfl⟩ := List.getElem_of_mem ht
    exact (heach.get (heach.length_eq ▸ hi) hi).newline_notMem
  refine ⟨text, htext, ?_⟩
  rw [hcontent, length_all_intercalate (List.ne_nil_of_mem (List.mem_of_getLast? hlast')) hnone, heach.length_eq, hlast',
    if_congr Option.some_inj rfl rfl]

/-! ## What comment nodes tell -/

/-- What the node of a run of comment lines tells: the lines of the run, which could not be longer, are those that the
node lies over; and there are as many, but a last line that says nothing is not counted. -/
structure Outline.Tells (source : String) (o : Outline) (r : CommentLevel × List Cursor) : Prop where
  maximal : Maximal (Cursor.ofChars source.toList).lines r.1 r.2
  kind : o.kind = r.1.nodeKind
  start : ∀ first ∈ r.2.head?, o.location.span.start = first.offset
  lines : o.location.stop.line + 1 = o.location.start.line + r.2.length
  told : ∀ last ∈ r.2.getLast?, ¬ Line.Says r.1 last.rest [] → o.properties = [("lines", toString r.2.length)]
  untold : ∀ last ∈ r.2.getLast?, Line.Says r.1 last.rest [] → o.properties = [("lines", toString (r.2.length - 1))]

/-- **What the node of a comment tells** of the run that the comment is made of. -/
theorem MadeOf.tells {source : String} {k : Comment} {r : CommentLevel × List Cursor} (h : MadeOf (.ofString source) k r)
    (hr : r ∈ runs (Cursor.ofChars source.toList).lines) : k.outline.Tells source r := by
  have hmaximal : Maximal (Cursor.ofChars source.toList).lines r.1 r.2 := @runs_maximal [] _ (by simp) r hr
  have hkeeps := h.keeps hmaximal
  have hlines : ∀ d ∈ r.2, d.rest ≠ [] ∧ d.StartsLine source.toList := fun d hd => mem_lines_iff.1 (of_mem_run hr hd).1
  obtain ⟨first, hfirst, last, hlast, hlocation⟩ := h.location
  have hrow := line_getLast hmaximal.isChain hlines first hfirst last hlast
  have hmem := List.mem_of_getLast? hlast
  have hstop := position_commentLine (hlines last hmem).2 (hmaximal.levels last hmem)
  have hcount := hkeeps.length_all
  rw [h.level] at hcount
  refine ⟨hmaximal, congrArg CommentLevel.nodeKind h.level, ?_, ?_, ?_, ?_⟩
  · exact hkeeps.start
  · show k.location.stop.line + 1 = k.location.start.line + r.2.length
    rw [hlocation]
    show ((Source.ofString source).lines.position _).line + 1 = _
    rw [hstop.1, hrow]
    rfl
  · intro last hlast hnot
    obtain ⟨text, htext, hlength⟩ := hcount last hlast
    have hne : text ≠ [] := by
      rintro rfl
      exact hnot htext
    rw [if_neg hne, Nat.sub_zero] at hlength
    rw [← hlength]
    rfl
  · intro last hlast hnothing
    obtain ⟨text, htext, hlength⟩ := hcount last hlast
    obtain rfl := htext.unique hnothing
    rw [if_pos rfl] at hlength
    rw [← hlength]
    rfl

/-- **What the comment nodes of a resource tell.** There is one for each run of comment lines of the source, in order. It
lies over the lines of the run and tells how many there are, or one less if the last of them says nothing. -/
theorem tells_comments (o : ParseOptions) (source : String) :
    List.Forall₂ (Outline.Tells source) (parse o source).outline.comments (runs (Cursor.ofChars source.toList).lines) := by
  have hmade := List.forall₂_iff_zip.1 (madeOf_allComments o source)
  rw [Resource.comments_outline]
  refine List.forall₂_map_left_iff.2 (List.forall₂_iff_zip.2 ⟨hmade.1, fun hkr => ?_⟩)
  exact (hmade.2 hkr).tells (List.of_mem_zip hkr).2

/-- The second line of a comment says nothing, and its node tells of one line. -/
theorem exists_untold_line :
    (parse ⟨.preserve, 100⟩ "# a\n#\n").outline.comments.map
        (fun o => (o.location.start.line, o.location.stop.line, o.properties)) = [(0, 1, [("lines", "1")])] ∧
      ¬ List.Forall₂ (fun o r => o.properties = [("lines", toString r.2.length)])
        (parse ⟨.preserve, 100⟩ "# a\n#\n").outline.comments (runs (Cursor.ofChars "# a\n#\n".toList).lines) := by
  decide +kernel

end Fluent
