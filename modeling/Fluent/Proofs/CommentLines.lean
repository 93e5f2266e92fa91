import Fluent.Proofs.Joined
import Fluent.Proofs.Kept
import Fluent.Proofs.Reaches

/-!
# Comments are runs of comment lines

The comments of a resource, those that belong to entries included, are the runs of comment lines of its source in order.
A run takes all consecutive lines of one level, whatever stands around them: lines that an entry passes over are none,
since each of them is indented or begins with a mark.

* `Cursor.lines`: where the lines of a text start.
* `runs`: the comment lines among some lines, as runs of one level.
* `runs_maximal`: no run could be longer.
* `comments_keptFrom`: the comments from a line start on are the runs from there on.
* `Comment.Keeps`: a comment says what a maximal run of lines says.
* `comments_keep_lines`: so do all comments of a resource, and no comment line is lost.
-/

namespace Fluent

/-! ## Lines -/

/-- Where the lines from a line start on start. -/
def Cursor.lines (c : Cursor) : List Cursor :=
  match _h : c.rest with
  | [] => []
  | _ :: _ => c :: c.nextLine.lines
termination_by c.rest.length
decreasing_by exact c.length_rest_nextLine_lt (by simp [_h])

namespace Cursor

variable {c d : Cursor}

theorem lines_of_nil (h : c.rest = []) : c.lines = [] := by
  rw [lines]
  split
  · rfl
  · rename_i hcons
    rw [h] at hcons
    cases hcons

theorem lines_of_ne_nil (h : c.rest ≠ []) : c.lines = c :: c.nextLine.lines := by
  rw [lines]
  split
  · contradiction
  · rfl

/-- Lines start one behind the other. -/
theorem pairwise_lines (c : Cursor) : c.lines.Pairwise fun d e => d.offset < e.offset := by
  have hle : ∀ c : Cursor, ∀ d ∈ c.lines, c.offset ≤ d.offset := by
    intro c
    fun_induction lines c with
    | case1 => simp
    | case2 c _ _ hcons ih =>
      intro d hd
      have hnext := offset_lt_nextLine (c := c) (by simp [hcons])
      rcases List.mem_cons.1 hd with rfl | hd
      · exact Nat.le_refl _
      · have := ih d hd
        omega
  fun_induction lines c with
  | case1 => exact .nil
  | case2 c _ _ hcons ih =>
    refine .cons ?_ ih
    intro d hd
    have hnext := offset_lt_nextLine (c := c) (by simp [hcons])
    have hafter := hle _ d hd
    omega

theorem nodup_lines (c : Cursor) : c.lines.Nodup := by
  refine c.pairwise_lines.imp ?_
  rintro d e hlt rfl
  exact Nat.lt_irrefl _ hlt

/-- A line start behind the first line is one from the next line on. -/
theorem over_nextLine_of_atLineStart {t : List Char} (h : c.Over t d) (ht : t.getLast? = some '\n') :
    ∃ t', c.nextLine.Over t' d ∧ AtLineStart t' := by
  have hmem : '\n' ∈ t := List.mem_of_getLast? ht
  obtain ⟨rest, htail⟩ : ∃ rest, Line.tail t = '\n' :: rest := by
    refine (Line.tail_eq_nil_or t).resolve_left fun hnil => Line.newline_notMem_head t ?_
    have hsplit := Line.head_append_tail t
    rw [hnil, List.append_nil] at hsplit
    rwa [hsplit]
  have hsplit := Line.head_append_tail t
  rw [htail, List.append_cons] at hsplit
  rw [← hsplit] at h ht
  obtain ⟨e, hfirst, hrest⟩ := h.split
  obtain ⟨e', hhead, hfeed⟩ := hfirst.split
  have hnext : c.nextLine = e := by
    rw [← nextLine_of_over hhead (Line.newline_notMem_head t)]
    have hlineEnd : e'.lineEnd = e' := by
      refine ((Over.refl e').skipWhile (by simp) ?_).1
      rw [hfeed.rest]
      simp
    rw [nextLine, hlineEnd]
    exact hfeed.skip
  refine ⟨rest, hnext ▸ hrest, ?_⟩
  cases rest with
  | nil => exact .inl rfl
  | cons x xs =>
    rw [List.getLast?_append_of_ne_nil _ (List.cons_ne_nil x xs)] at ht
    exact .inr ht

theorem mem_lines_of_over {t : List Char} (h : c.Over t d) (ht : AtLineStart t) (hd : d.rest ≠ []) :
    d ∈ c.lines := by
  have hc : c.rest ≠ [] := by
    rw [h.rest]
    simp [hd]
  fun_induction lines c generalizing t with
  | case1 c hnil => contradiction
  | case2 c _ _ _ ih =>
    rcases ht with rfl | ht
    · rw [(Over.refl c).eq h]
      exact List.mem_cons_self
    · obtain ⟨t', hover, ht'⟩ := over_nextLine_of_atLineStart h ht
      have hne : c.nextLine.rest ≠ [] := by
        rw [hover.rest]
        simp [hd]
      exact List.mem_cons_of_mem _ (ih hover ht' hne)

end Cursor

/-- **Lines start** where nothing stands before, or a line feed. What is left behind the last line feed of a source is a
line if it is not empty. -/
theorem mem_lines_iff {source : List Char} {c : Cursor} :
    c ∈ (Cursor.ofChars source).lines ↔ c.rest ≠ [] ∧ c.StartsLine source := by
  constructor
  · intro hc
    have hall : ∀ d : Cursor, d.AtBreak source → ∀ e ∈ d.lines, e.rest ≠ [] ∧ e.StartsLine source := by
      intro d hd
      fun_induction Cursor.lines d with
      | case1 => simp
      | case2 d _ _ hcons ih =>
        have hne : d.rest ≠ [] := by simp [hcons]
        have hstart := hd.startsLine_of_ne_nil hne
        obtain ⟨pre, hover, -⟩ := id hstart
        have hnext : d.nextLine.AtBreak source := by
          rcases Cursor.startsLine_nextLine hover with hnil | ⟨pre', hover', hline⟩
          · exact ⟨_, hover.trans (Cursor.over_nextLine d), .inl hnil⟩
          · exact ⟨pre', hover', .inr hline⟩
        intro e he
        rcases List.mem_cons.1 he with rfl | he
        · exact ⟨hne, hstart⟩
        · exact ih hnext e he
    exact hall _ (Cursor.atBreak_ofChars source) c hc
  · rintro ⟨hne, pre, hover, hpre⟩
    exact Cursor.mem_lines_of_over hover hpre hne

/-! ## Runs -/

/-- The level of a comment line. -/
def Cursor.level? (c : Cursor) : Option CommentLevel := Line.commentLevel? c.rest

/-- A comment line of any level. -/
def Cursor.isComment (c : Cursor) : Bool := c.level?.isSome

/-- A comment line of a level. -/
def Cursor.hasLevel (level : CommentLevel) (c : Cursor) : Bool := decide (c.level? = some level)

/-- The comment lines among some lines, as runs of one level. -/
def runs : List Cursor → List (CommentLevel × List Cursor)
  | [] => []
  | c :: cs =>
    match c.level? with
    | none => runs cs
    | some level => (level, c :: cs.takeWhile (Cursor.hasLevel level)) :: runs (cs.dropWhile (Cursor.hasLevel level))
termination_by cs => cs.length
decreasing_by
  · exact Nat.lt_succ_self _
  · exact Nat.lt_succ_of_le (List.dropWhile_suffix _).length_le

/-- A run among some lines that could not be longer: all its lines are of one level, and neither the line in front of it
nor the one behind it is. -/
structure Maximal (cs : List Cursor) (level : CommentLevel) (run : List Cursor) : Prop where
  ne_nil : run ≠ []
  levels : ∀ c ∈ run, c.level? = some level
  ends : ∃ before after, cs = before ++ run ++ after ∧ (∀ c ∈ before.getLast?, c.level? ≠ some level) ∧
    ∀ c ∈ after.head?, c.level? ≠ some level

theorem level_of_mem_takeWhile {level : CommentLevel} {cs : List Cursor} {c : Cursor}
    (h : c ∈ cs.takeWhile (Cursor.hasLevel level)) : c.level? = some level := by
  have hlevel := List.mem_takeWhile_imp h
  simpa [Cursor.hasLevel] using hlevel

theorem level_head_dropWhile {level : CommentLevel} {cs : List Cursor} {c : Cursor}
    (h : c ∈ (cs.dropWhile (Cursor.hasLevel level)).head?) : c.level? ≠ some level := by
  have hnot := List.head?_dropWhile_not (Cursor.hasLevel level) cs
  rw [Option.mem_def.1 h] at hnot
  simpa [Cursor.hasLevel] using hnot

/-- **No run could be longer**, if the line in front of the first one is none of its level. -/
theorem runs_maximal {before cs : List Cursor}
    (h : ∀ c ∈ before.getLast?, ∀ d ∈ cs.head?, c.level? = d.level? → d.level? = none) :
    ∀ r ∈ runs cs, Maximal (before ++ cs) r.1 r.2 := by
  fun_induction runs cs generalizing before with
  | case1 => simp
  | case2 c cs hnone ih =>
    have hnext := @ih (before ++ [c]) ?_
    · simpa using hnext
    · intro d hd e _ heq
      have hlast : c = d := by simpa using hd
      rw [← heq, ← hlast, hnone]
  | case3 c cs level hlevel ih =>
    have hsplit := List.takeWhile_append_dropWhile (p := Cursor.hasLevel level) (l := cs)
    intro r hr
    rcases List.mem_cons.1 hr with rfl | hr
    · refine ⟨List.cons_ne_nil _ _, ?_, before, cs.dropWhile (Cursor.hasLevel level), ?_, ?_, ?_⟩
      · intro d hd
        rcases List.mem_cons.1 hd with rfl | hd
        · exact hlevel
        · exact level_of_mem_takeWhile hd
      · rw [List.append_assoc, List.cons_append, hsplit]
      · intro d hd heq
        have hnone := h d hd c rfl (heq.trans hlevel.symm)
        rw [hlevel] at hnone
        cases hnone
      · exact fun d hd => level_head_dropWhile hd
    · have hnext := @ih (before ++ c :: cs.takeWhile (Cursor.hasLevel level)) ?_ r hr
      · rwa [List.append_assoc, List.cons_append, hsplit] at hnext
      · -- the line in front has the level of the run, and the line behind has not
        intro d hd e he heq
        have hlast : d.level? = some level := by
          rw [List.getLast?_append_of_ne_nil _ (List.cons_ne_nil _ _)] at hd
          rcases List.mem_cons.1 (List.mem_of_getLast? hd) with rfl | hd
          · exact hlevel
          · exact level_of_mem_takeWhile hd
        exact absurd (heq.symm.trans hlast) (level_head_dropWhile he)

/-- **No comment line is lost**, and no other line is taken. -/
theorem flatten_runs (cs : List Cursor) : ((runs cs).map (·.2)).flatten = cs.filter Cursor.isComment := by
  fun_induction runs cs with
  | case1 => rfl
  | case2 c cs hnone ih =>
    have hnot : ¬ c.isComment = true := by simp [Cursor.isComment, hnone]
    rw [ih, List.filter_cons_of_neg hnot]
  | case3 c cs level hlevel ih =>
    have hsome : ∀ d : Cursor, d.level? = some level → d.isComment = true := by
      intro d hd
      simp [Cursor.isComment, hd]
    have hrun : (cs.takeWhile (Cursor.hasLevel level)).filter Cursor.isComment = cs.takeWhile (Cursor.hasLevel level) :=
      List.filter_eq_self.2 fun d hd => hsome d (level_of_mem_takeWhile hd)
    have hsplit : cs.filter Cursor.isComment = cs.takeWhile (Cursor.hasLevel level) ++
        (cs.dropWhile (Cursor.hasLevel level)).filter Cursor.isComment := by
      conv_lhs => rw [← List.takeWhile_append_dropWhile (p := Cursor.hasLevel level) (l := cs)]
      rw [List.filter_append, hrun]
    rw [List.map_cons, List.flatten_cons, ih, List.filter_cons_of_pos (hsome c hlevel), hsplit, List.cons_append]

/-! ## Comments -/

/-- The comment that an entry is or has. -/
def Entry.ownComment? : Entry → Option Comment
  | comment c => some c
  | e => e.doc?

/-- The comments of a resource, those that belong to entries included. -/
def Resource.allComments (r : Resource) : List Comment := r.body.filterMap Entry.ownComment?

/-- A comment that is made of a run of lines, the first of them and then the others, as the tokens of comment lines are
joined. -/
def MadeOf (s : Source) (k : Comment) (r : CommentLevel × List Cursor) : Prop :=
  ∃ c cs, r.2 = c :: cs ∧ k = joinComment s (commentLine r.1 c) (cs.map (commentLine r.1))

/-- Comment lines in a row are those at the front of the lines. -/
theorem commentLines_eq (level : CommentLevel) (c : Cursor) :
    (commentLines level c).1 = (c.lines.takeWhile (Cursor.hasLevel level)).map (commentLine level) ∧
      (commentLines level c).2.lines = c.lines.dropWhile (Cursor.hasLevel level) := by
  fun_induction commentLines level c with
  | case1 c hnil => simp [Cursor.lines_of_nil hnil]
  | case2 c _ _ hcons hlevel lines stop heq ih =>
    have hhas : c.hasLevel level = true := decide_eq_true hlevel
    have hne : c.rest ≠ [] := by simp [hcons]
    rw [heq] at ih
    rw [Cursor.lines_of_ne_nil hne, List.takeWhile_cons_of_pos hhas, List.dropWhile_cons_of_pos hhas, List.map_cons]
    exact ⟨congrArg _ ih.1, ih.2⟩
  | case3 c _ _ hcons hlevel =>
    have hhas : ¬ c.hasLevel level = true := fun h => hlevel (of_decide_eq_true h)
    have hne : c.rest ≠ [] := by simp [hcons]
    rw [Cursor.lines_of_ne_nil hne, List.takeWhile_cons_of_neg hhas, List.dropWhile_cons_of_neg hhas]
    exact ⟨rfl, rfl⟩

/-- What the grammar reads of an entry has no comment until it is given one. -/
theorem ownComment?_of_entryAt {limit : Nat} {m : LineMap} {c : Cursor} {e : Entry} (h : entryAt limit m c = some e) :
    e.ownComment? = none ∧ ∀ k, (e.document k).ownComment? = some k := by
  obtain ⟨_, -, he⟩ := Option.bind_eq_some_iff.1 h
  cases derived_entry (entryOf_eq_some (f := ⟨m, 0, .nothing⟩).1 he) with
  | message => exact ⟨rfl, fun _ => rfl⟩
  | term => exact ⟨rfl, fun _ => rfl⟩

theorem runs_of_level {c : Cursor} {cs : List Cursor} {level : CommentLevel} (h : c.level? = some level) :
    runs (c :: cs) = (level, c :: cs.takeWhile (Cursor.hasLevel level)) :: runs (cs.dropWhile (Cursor.hasLevel level)) := by
  rw [runs, h]

theorem runs_of_none {c : Cursor} {cs : List Cursor} (h : c.level? = none) : runs (c :: cs) = runs cs := by
  rw [runs, h]

/-- The line that an entry begins with is no comment line. -/
theorem level?_of_entryAt {limit : Nat} {m : LineMap} {c : Cursor} {e : Entry} (h : entryAt limit m c = some e) :
    c.rest ≠ [] ∧ c.level? = none := by
  obtain ⟨⟨isTerm, a⟩, ha, -⟩ := Option.bind_eq_some_iff.1 h
  obtain ⟨x, rest, hrest, -⟩ := Line.opensHeader_of_header ha
  exact ⟨by simp [hrest], Line.commentLevel?_of_entryHeader ha⟩

/-- **The comments from a line start on** are the runs from there on. -/
theorem comments_keptFrom (limit : Nat) (s : Source) (c : Cursor) :
    List.Forall₂ (MadeOf s) ((keptFrom limit s c).filterMap Entry.ownComment?) (runs c.lines) := by
  fun_induction keptFrom limit s c with
  | case1 c hnil =>
    rw [Cursor.lines_of_nil hnil, runs]
    exact .nil
  | case2 c _ _ hcons level hlevel lines comment e he ih =>
    have hne : c.rest ≠ [] := by simp [hcons]
    obtain ⟨htake, hdrop⟩ := commentLines_eq level c.nextLine
    have hentry : entryAt limit s.lines lines.2 = some e := by
      split at he
      · exact he
      · cases he
    obtain ⟨hheader, hnone⟩ := level?_of_entryAt hentry
    rw [Cursor.lines_of_ne_nil hne, runs_of_level hlevel, ← hdrop, Cursor.lines_of_ne_nil hheader, runs_of_none hnone,
      List.filterMap_cons_some ((ownComment?_of_entryAt hentry).2 _)]
    exact .cons ⟨c, _, rfl, congrArg (joinComment s (commentLine level c)) htake⟩ ih
  | case3 c _ _ hcons level hlevel lines comment he ih =>
    have hne : c.rest ≠ [] := by simp [hcons]
    obtain ⟨htake, hdrop⟩ := commentLines_eq level c.nextLine
    have hown : (Entry.comment comment).ownComment? = some comment := rfl
    rw [Cursor.lines_of_ne_nil hne, runs_of_level hlevel, ← hdrop, List.filterMap_cons_some hown]
    exact .cons ⟨c, _, rfl, congrArg (joinComment s (commentLine level c)) htake⟩ ih
  | case4 c _ _ hcons hlevel ih =>
    have hne : c.rest ≠ [] := by simp [hcons]
    have hentry : (entryAt limit s.lines c).toList.filterMap Entry.ownComment? = [] := by
      cases he : entryAt limit s.lines c with
      | none => rfl
      | some e => simp [(ownComment?_of_entryAt he).1]
    rw [Cursor.lines_of_ne_nil hne, runs_of_none hlevel, List.filterMap_append, hentry, List.nil_append]
    exact ih

/-- Rejecting duplicates keeps every comment. -/
theorem ownComments_rejectDuplicates (s : Source) (seen : List String) (es : List Entry) :
    (rejectDuplicates s seen es).filterMap Entry.ownComment? = es.filterMap Entry.ownComment? := by
  have hrejected : ∀ (e : Entry) (k : Option Comment) (name : String) (span : Span),
      (rejected s e k name span).filterMap Entry.ownComment? = k.toList := by
    intro e k name span
    cases k <;> rfl
  induction es generalizing seen with
  | nil => rfl
  | cons e es ih =>
    cases e with
    | message m =>
      rw [rejectDuplicates, List.filterMap_append, ih]
      split
      · cases hm : m.comment <;> simp [Entry.ownComment?, Entry.doc?, hm]
      · rw [hrejected]
        cases hm : m.comment <;> simp [Entry.ownComment?, Entry.doc?, hm]
    | term t =>
      rw [rejectDuplicates, List.filterMap_append, ih]
      split
      · cases ht : t.comment <;> simp [Entry.ownComment?, Entry.doc?, ht]
      · rw [hrejected]
        cases ht : t.comment <;> simp [Entry.ownComment?, Entry.doc?, ht]
    | comment k => simp [rejectDuplicates, Entry.ownComment?, ih]
    | junk j =>
      have hnone : (Entry.junk j).ownComment? = none := rfl
      rw [rejectDuplicates, List.filterMap_cons_none hnone, List.filterMap_cons_none hnone, ih]
      · simp
      · simp

/-- **The comments of a resource** are the runs of comment lines of its source. -/
theorem madeOf_allComments (o : ParseOptions) (source : String) :
    List.Forall₂ (MadeOf (.ofString source)) (parse o source).allComments
      (runs (Cursor.ofChars source.toList).lines) := by
  have hjunk : ∀ es : List Entry, es.filterMap Entry.ownComment? =
      (es.filter (·.junk?.isNone)).filterMap Entry.ownComment? := by
    intro es
    rw [List.filterMap_filter]
    congr 1
    funext e
    cases e <;> rfl
  have hbody : (parse o source).allComments =
      (body (.ofString source) (tokenize o.maxNesting source.toList)).filterMap Entry.ownComment? := by
    obtain ⟨policy, limit⟩ := o
    cases policy with
    | preserve => rfl
    | reject => exact ownComments_rejectDuplicates _ _ _
  rw [hbody, hjunk, filter_body]
  exact comments_keptFrom _ _ _

/-! ## What comments say -/

/-- What a comment line says: nothing, or what stands behind its hashes and a space, without a carriage return at the
end. -/
def Line.Says (level : CommentLevel) (cs text : List Char) : Prop :=
  ∃ behind, head cs = level.sigil.toList ++ behind ∧
    (dropReturn behind = [] ∧ text = [] ∨ dropReturn behind = ' ' :: text)

/-- The text of a comment line is what the line says. -/
theorem says_commentLine {level : CommentLevel} {c : Cursor} (h : c.level? = some level) :
    ∃ text, Line.Says level c.rest text ∧ (commentLine level c).token = .comment level (String.ofList text) := by
  obtain ⟨behind, hhead, hbehind⟩ := Line.commentLevel?_eq_some h
  refine ⟨(Line.dropReturn behind).drop 1, ⟨behind, hhead, ?_⟩, by rw [commentLine_of_head hhead]⟩
  rcases hbehind with hnil | ⟨content, hcontent⟩
  · exact .inl ⟨hnil, by rw [hnil]; rfl⟩
  · exact .inr (by rw [hcontent]; rfl)

/-- A comment that says what a maximal run of comment lines of its level says, line by line. -/
structure Comment.Keeps (source : List Char) (k : Comment) (run : List Cursor) : Prop where
  maximal : Maximal (Cursor.ofChars source).lines k.level run
  start : ∀ c ∈ run.head?, k.location.span.start = c.offset
  content : ∃ texts, List.Forall₂ (fun c text => Line.Says k.level c.rest text) run texts ∧
    k.content.toList = ['\n'].intercalate texts

/-- A comment has the level of its run. -/
theorem MadeOf.level {s : Source} {k : Comment} {r : CommentLevel × List Cursor} (h : MadeOf s k r) : k.level = r.1 := by
  obtain ⟨level, run⟩ := r
  obtain ⟨c, cs, rfl, rfl⟩ := h
  refine level_joinComment ?_
  rw [← List.map_cons, List.forall_mem_map]
  exact fun d _ => ⟨_, rfl⟩

/-- What is made of a run says what its lines say. -/
theorem MadeOf.keeps {source : String} {k : Comment} {r : CommentLevel × List Cursor} (h : MadeOf (.ofString source) k r)
    (hmaximal : Maximal (Cursor.ofChars source.toList).lines r.1 r.2) : k.Keeps source.toList r.2 := by
  have hlevel := h.level
  obtain ⟨level, run⟩ := r
  obtain ⟨c, cs, rfl, rfl⟩ := h
  simp only at hmaximal hlevel
  have htexts : ∀ ds : List Cursor, (∀ d ∈ ds, d.level? = some level) → ∃ texts,
      List.Forall₂ (fun d text => Line.Says level d.rest text) ds texts ∧
        ((ds.map (commentLine level)).filterMap commentPart?).map (·.2.toList) = texts := by
    intro ds hds
    induction ds with
    | nil => exact ⟨[], .nil, rfl⟩
    | cons d ds ih =>
      obtain ⟨hd, hds⟩ := List.forall_mem_cons.1 hds
      obtain ⟨texts, hsays, hparts⟩ := ih hds
      obtain ⟨text, htext, htoken⟩ := says_commentLine hd
      refine ⟨text :: texts, .cons htext hsays, ?_⟩
      have hpart : commentPart? (commentLine level d) = some (level, String.ofList text) := by
        rw [commentPart?, htoken]
      rw [List.map_cons, List.filterMap_cons_some hpart, List.map_cons, hparts, String.toList_ofList]
  obtain ⟨texts, hsays, hparts⟩ := htexts (c :: cs) hmaximal.levels
  refine ⟨hlevel.symm ▸ hmaximal, ?_, texts, hlevel.symm ▸ hsays, ?_⟩
  · intro d hd
    obtain rfl := Option.some.inj hd
    rfl
  · rw [joinComment, String.toList_intercalate, ← hparts, List.map_map]
    rfl

/-- Among lists that share nothing, a member belongs to one. -/
theorem eq_of_mem_of_mem {α : Type} {ls : List (List α)} (h : ls.flatten.Nodup) {i j : Nat} {xs ys : List α} {a : α}
    (hi : ls[i]? = some xs) (hj : ls[j]? = some ys) (hxs : a ∈ xs) (hys : a ∈ ys) : i = j := by
  obtain ⟨hi', rfl⟩ := List.getElem?_eq_some_iff.1 hi
  obtain ⟨hj', rfl⟩ := List.getElem?_eq_some_iff.1 hj
  have hdisjoint := List.pairwise_iff_getElem.1 (List.nodup_flatten.1 h).2
  rcases Nat.lt_trichotomy i j with hlt | heq | hlt
  · exact absurd hys (hdisjoint i j hi' hj' hlt hxs)
  · exact heq
  · exact absurd hxs (hdisjoint j i hj' hi' hlt hys)

/-- **Comment lines are kept exactly.** Every comment of a resource, whether it belongs to an entry or stands on its
own, is a maximal run of comment lines of one level: it says what they say, line by line. The runs are all the comment
lines of the source in order, so every comment line belongs to exactly one comment, one of its level. -/
theorem comments_keep_lines (o : ParseOptions) (source : String) :
    ∃ parts : List (List Cursor),
      List.Forall₂ (Comment.Keeps source.toList) (parse o source).allComments parts ∧
      parts.flatten = (Cursor.ofChars source.toList).lines.filter Cursor.isComment ∧
      ∀ (c : Cursor) (level : CommentLevel), c.StartsLine source.toList → Line.commentLevel? c.rest = some level →
        ∃! i : Nat, ∃ k part, (parse o source).allComments[i]? = some k ∧ parts[i]? = some part ∧ c ∈ part ∧
          k.level = level := by
  have hmade := madeOf_allComments o source
  have hmaximal := @runs_maximal [] (Cursor.ofChars source.toList).lines (by simp)
  have hflatten := flatten_runs (Cursor.ofChars source.toList).lines
  have hkeeps : List.Forall₂ (Comment.Keeps source.toList) (parse o source).allComments
      ((runs (Cursor.ofChars source.toList).lines).map (·.2)) := by
    generalize runs (Cursor.ofChars source.toList).lines = rs at hmade hmaximal
    generalize (parse o source).allComments = ks at hmade
    induction hmade with
    | nil => exact .nil
    | cons hk _ ih =>
      obtain ⟨hr, hrs⟩ := List.forall_mem_cons.1 hmaximal
      exact .cons (hk.keeps hr) (ih hrs)
  refine ⟨_, hkeeps, hflatten, ?_⟩
  intro c level hstart hlevel
  have hne : c.rest ≠ [] := by
    intro hnil
    rw [hnil] at hlevel
    cases hlevel
  have hmem : c ∈ ((runs (Cursor.ofChars source.toList).lines).map (·.2)).flatten := by
    rw [hflatten, List.mem_filter]
    exact ⟨mem_lines_iff.2 ⟨hne, hstart⟩, by simp [Cursor.isComment, Cursor.level?, hlevel]⟩
  have hnodup : ((runs (Cursor.ofChars source.toList).lines).map (·.2)).flatten.Nodup := by
    rw [hflatten]
    exact (Cursor.nodup_lines _).filter _
  generalize (runs (Cursor.ofChars source.toList).lines).map (·.2) = parts at *
  obtain ⟨part, hpart, hc⟩ := List.mem_flatten.1 hmem
  obtain ⟨i, hi, rfl⟩ := List.getElem_of_mem hpart
  have hi' : i < (parse o source).allComments.length := hkeeps.length_eq ▸ hi
  have hkept : Comment.Keeps source.toList (parse o source).allComments[i] parts[i] := hkeeps.get hi' hi
  refine ⟨i, ⟨_, _, List.getElem?_eq_getElem hi', List.getElem?_eq_getElem hi, hc, ?_⟩, ?_⟩
  · exact Option.some.inj ((hkept.maximal.levels c hc).symm.trans hlevel)
  · rintro j ⟨_, part', -, hj, hc', -⟩
    exact eq_of_mem_of_mem hnodup hj (List.getElem?_eq_getElem hi) hc' hc

end Fluent
