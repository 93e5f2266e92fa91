import Fluent.Proofs.Entries
import Fluent.Proofs.Nesting

/-!
# Where a comment goes

A run of comment lines makes one comment. If the run has the lowest level and an entry is read from the next line on,
the comment belongs to that entry. Otherwise it stands on its own, whatever comes next: a blank line, another comment, a
line that opens no entry, or junk in the place of an entry that cannot be read.

* `mem_runs_of_maximal`: a run that could not be longer is one of the runs.
* `carries_keptFrom`: what becomes of the comment of a run.
* `unshared_parse`: no two entries have one comment.
* `line_nextLine_iff`: the next line by its number.
* `comment_attached_iff`: **when a comment belongs to an entry**, and that it stands on its own once if it belongs to
  none.
-/

namespace Fluent

/-! ## Runs -/

/-- A run that could not be longer is one of the runs. -/
theorem mem_runs_of_maximal {cs : List Cursor} {level : CommentLevel} {run : List Cursor} (h : Maximal cs level run) :
    (level, run) ∈ runs cs := by
  obtain ⟨hne, hlevels, before, after, rfl, hbefore, hafter⟩ := h
  have hhas : ∀ c ∈ run, c.hasLevel level = true := fun c hc => decide_eq_true (hlevels c hc)
  have hstop : after.takeWhile (Cursor.hasLevel level) = [] := by
    cases after with
    | nil => rfl
    | cons a after => exact List.takeWhile_cons_of_neg (by simpa [Cursor.hasLevel] using hafter a rfl)
  -- the runs in front end before the run: the line in front of it is none of its level
  induction hlength : before.length using Nat.strong_induction_on generalizing before with
  | _ n ih =>
    subst hlength
    cases before with
    | nil =>
      obtain ⟨c, rest, rfl⟩ := List.exists_cons_of_ne_nil hne
      obtain ⟨hc, hrest⟩ := List.forall_mem_cons.1 hhas
      rw [List.nil_append, List.cons_append, runs_of_level (hlevels c List.mem_cons_self),
        List.takeWhile_append_of_pos hrest, hstop, List.append_nil]
      exact List.mem_cons_self
    | cons b before =>
      have hlast : ∀ bs : List Cursor, bs <:+ before → ∀ c ∈ bs.getLast?, c.level? ≠ some level := by
        rintro bs ⟨front, rfl⟩ c hc
        apply hbefore c
        rw [← List.cons_append, List.getLast?_append_of_ne_nil _ (List.ne_nil_of_mem (List.mem_of_getLast? hc))]
        exact hc
      rw [List.append_assoc, List.cons_append, ← List.append_assoc]
      cases hb : b.level? with
      | none =>
        rw [runs_of_none hb]
        exact ih before.length (Nat.lt_succ_self _) before (hlast before List.suffix_rfl) rfl
      | some level' =>
        rw [runs_of_level hb, List.append_assoc, List.dropWhile_append]
        refine List.mem_cons_of_mem _ ?_
        split
        · -- all lines in front have one level, which is another one
          rename_i hnil
          have hall : ∀ c ∈ b :: before, c.level? = some level' := by
            refine List.forall_mem_cons.2 ⟨hb, fun c hc => ?_⟩
            have hlevel := List.dropWhile_eq_nil_iff.1 (List.isEmpty_iff.1 hnil) c hc
            simpa [Cursor.hasLevel] using hlevel
          have hne' : level' ≠ level := by
            rintro rfl
            exact hbefore _ (List.getLast?_eq_some_getLast (List.cons_ne_nil b before)) (hall _ (List.getLast_mem _))
          obtain ⟨c, rest, rfl⟩ := List.exists_cons_of_ne_nil hne
          have hc : ¬ c.hasLevel level' = true := by
            simp [Cursor.hasLevel, hlevels c List.mem_cons_self, hne'.symm]
          rw [List.cons_append, List.dropWhile_cons_of_neg hc]
          exact ih 0 (Nat.succ_pos _) [] (by simp) rfl
        · have hsuffix := List.dropWhile_suffix (Cursor.hasLevel level') (l := before)
          have hnext := ih _ (Nat.lt_succ_of_le hsuffix.length_le) _ (hlast _ hsuffix) rfl
          rwa [List.append_assoc] at hnext

/-! ## What becomes of a comment -/

variable {limit : Nat} {source : String}

/-- Comment lines in a row end where the line behind the last of them starts. -/
theorem stop_commentLines (level : CommentLevel) (c : Cursor) : ∀ last ∈
    (c :: c.nextLine.lines.takeWhile (Cursor.hasLevel level)).getLast?,
    (commentLines level c.nextLine).2 = last.nextLine := by
  generalize hd : c.nextLine = d
  fun_induction commentLines level d generalizing c with
  | case1 d hnil =>
    rw [Cursor.lines_of_nil hnil]
    rintro last hlast
    obtain rfl : c = last := by simpa using hlast
    exact hd.symm
  | case2 d _ _ hcons hlevel lines stop heq ih =>
    have hne : d.rest ≠ [] := by simp [hcons]
    have hhas : d.hasLevel level = true := decide_eq_true hlevel
    rw [Cursor.lines_of_ne_nil hne, List.takeWhile_cons_of_pos hhas, List.getLast?_cons_cons]
    rw [heq] at ih
    exact ih d rfl
  | case3 d _ _ hcons hlevel =>
    have hne : d.rest ≠ [] := by simp [hcons]
    have hhas : ¬ d.hasLevel level = true := fun h => hlevel (of_decide_eq_true h)
    rw [Cursor.lines_of_ne_nil hne, List.takeWhile_cons_of_neg hhas]
    rintro last hlast
    obtain rfl : c = last := by simpa using hlast
    exact hd.symm

/-- The entry with the comment of a run whose last line is given: the one that the line behind opens, if the run has
the lowest level, or else the comment on its own. -/
inductive Carries (limit : Nat) (m : LineMap) (level : CommentLevel) (last : Cursor) (k : Comment) : Entry → Prop
  | attached {e : Entry} : level = .comment → entryAt limit m last.nextLine = some e →
      Carries limit m level last k (e.document k)
  | alone : (level = .comment → entryAt limit m last.nextLine = none) → Carries limit m level last k (.comment k)

theorem Carries.ownComment? {m : LineMap} {level : CommentLevel} {last : Cursor} {k : Comment} {e : Entry}
    (h : Carries limit m level last k e) : e.ownComment? = some k := by
  cases h with
  | attached _ he => exact (ownComment?_of_entryAt he).2 k
  | alone => rfl

/-- **What becomes of the comment of a run**, read from a line start on. -/
theorem carries_keptFrom (limit : Nat) (s : Source) (c : Cursor) : ∀ r ∈ runs c.lines, ∀ last ∈ r.2.getLast?,
    ∃ k, MadeOf s k r ∧ ∃ e ∈ keptFrom limit s c, Carries limit s.lines r.1 last k e := by
  fun_induction keptFrom limit s c with
  | case1 c hnil =>
    rw [Cursor.lines_of_nil hnil, runs]
    simp
  | case2 c _ _ hcons level hlevel lines comment e he ih =>
    have hne : c.rest ≠ [] := by simp [hcons]
    obtain ⟨htake, hdrop⟩ := commentLines_eq level c.nextLine
    obtain ⟨hlowest, hentry⟩ : level = .comment ∧ entryAt limit s.lines lines.2 = some e := by
      split at he
      · rename_i hlowest
        exact ⟨hlowest, he⟩
      · cases he
    obtain ⟨hheader, hnone⟩ := level?_of_entryAt hentry
    rw [Cursor.lines_of_ne_nil hne, runs_of_level hlevel, ← hdrop, Cursor.lines_of_ne_nil hheader, runs_of_none hnone]
    refine List.forall_mem_cons.2 ⟨?_, ?_⟩
    · intro last hlast
      have hstop := stop_commentLines level c last hlast
      refine ⟨comment, ⟨c, _, rfl, congrArg (joinComment s (commentLine level c)) htake⟩, _, List.mem_cons_self, ?_⟩
      exact .attached hlowest (hstop ▸ hentry)
    · intro r hr last hlast
      obtain ⟨k, hk, e', he', hcarries⟩ := ih r hr last hlast
      exact ⟨k, hk, e', List.mem_cons_of_mem _ he', hcarries⟩
  | case3 c _ _ hcons level hlevel lines comment he ih =>
    have hne : c.rest ≠ [] := by simp [hcons]
    obtain ⟨htake, hdrop⟩ := commentLines_eq level c.nextLine
    rw [Cursor.lines_of_ne_nil hne, runs_of_level hlevel, ← hdrop]
    refine List.forall_mem_cons.2 ⟨?_, ?_⟩
    · intro last hlast
      have hstop := stop_commentLines level c last hlast
      refine ⟨comment, ⟨c, _, rfl, congrArg (joinComment s (commentLine level c)) htake⟩, _, List.mem_cons_self, ?_⟩
      refine .alone fun hlowest => ?_
      rw [dif_pos hlowest] at he
      exact hstop ▸ he
    · intro r hr last hlast
      obtain ⟨k, hk, e', he', hcarries⟩ := ih r hr last hlast
      exact ⟨k, hk, e', List.mem_cons_of_mem _ he', hcarries⟩
  | case4 c _ _ hcons hlevel ih =>
    have hne : c.rest ≠ [] := by simp [hcons]
    rw [Cursor.lines_of_ne_nil hne, runs_of_none hlevel]
    intro r hr last hlast
    obtain ⟨k, hk, e', he', hcarries⟩ := ih r hr last hlast
    exact ⟨k, hk, e', List.mem_append_right _ he', hcarries⟩

/-! ## No comment is shared -/

/-- Two entries do not have one comment: neither does it belong to both, nor does it belong to one of them and stand in
the body on its own. -/
def Entry.Unshared (e e' : Entry) : Prop := ∀ k, e.ownComment? = some k → e'.ownComment? ≠ some k

instance : Std.Symm Entry.Unshared := ⟨fun _ _ h k hk hk' => h k hk' hk⟩

/-- The comment that an entry is or has lies where the entry and its comment do. -/
theorem Entry.span_of_ownComment? {e : Entry} {k : Comment} (h : e.ownComment? = some k) :
    k.location.span ∈ e.spans := by
  cases e with
  | comment c =>
    obtain rfl := Option.some.inj h
    exact List.mem_singleton_self _
  | message m | term t =>
    refine List.mem_append_left _ (Option.mem_toList.2 ?_)
    exact Option.map_eq_some_iff.2 ⟨k, h, rfl⟩
  | junk => cases h

/-- **No two entries have one comment.** Comments of different entries lie over different lines, because entries are in
order and take source text. -/
theorem unshared_parse (o : ParseOptions) (source : String) : (parse o source).body.Pairwise Entry.Unshared := by
  obtain ⟨hordered, hextents⟩ := extents_parse o source
  refine (List.pairwise_flatMap.1 hordered).2.imp_of_mem ?_
  intro e e' he _ hbehind k hk hk'
  have hspan := Entry.span_of_ownComment? hk
  have hle := hbehind _ hspan _ (Entry.span_of_ownComment? hk')
  have hextent := hextents _ (List.mem_flatMap.2 ⟨e, he, hspan⟩)
  omega

theorem eq_of_ownComment? {o : ParseOptions} {e e' : Entry} {k : Comment} (he : e ∈ (parse o source).body)
    (he' : e' ∈ (parse o source).body) (hk : e.ownComment? = some k) (hk' : e'.ownComment? = some k) : e = e' := by
  by_contra hne
  exact (unshared_parse o source).forall he he' hne k hk hk'

theorem Entry.ownComment?_of_doc? {e : Entry} {k : Comment} (h : e.doc? = some k) : e.ownComment? = some k := by
  cases e with
  | message | term => exact h
  | comment | junk => cases h

/-- A comment that stands on its own belongs to no entry. -/
theorem doc?_ne_of_comment {o : ParseOptions} {e : Entry} {k : Comment} (hk : .comment k ∈ (parse o source).body)
    (he : e ∈ (parse o source).body) : e.doc? ≠ some k := by
  intro hdoc
  obtain rfl := eq_of_ownComment? hk he rfl (Entry.ownComment?_of_doc? hdoc)
  cases hdoc

/-- A comment stands on its own once at most. -/
theorem nodup_comments (o : ParseOptions) (source : String) : (parse o source).comments.Nodup := by
  refine List.pairwise_filterMap.2 ((unshared_parse o source).imp ?_)
  rintro e e' hunshared k hk k' hk' rfl
  have hown : ∀ {e : Entry}, e.comment? = some k → e.ownComment? = some k := by
    intro e hcomment
    cases e with
    | comment => exact hcomment
    | message | term | junk => cases hcomment
  exact hunshared k (hown hk) (hown hk')

/-! ## The next line -/

/-- **The next line by its number.** Among the places where lines start, that of the next line is the one with the next
number. -/
theorem line_nextLine_iff {c d : Cursor} (hc : c.StartsLine source.toList) (hd : d.StartsLine source.toList)
    (hne : d.rest ≠ []) : d = c.nextLine ↔ ((Source.ofString source).lines.position d.offset).line =
      ((Source.ofString source).lines.position c.offset).line + 1 := by
  obtain ⟨pre, hover, -⟩ := id hc
  have hnext := hover.trans (Cursor.over_nextLine c)
  have hhead := List.count_eq_zero.2 (Line.newline_notMem_head c.rest)
  rw [hover.line]
  rcases Line.tail_eq_nil_or c.rest with htail | ⟨rest, htail⟩
  · -- the last line of the source: no line behind it
    have hchars : source.toList = pre ++ c.rest := hover.rest
    have hall : c.rest = Line.head c.rest := by
      conv_lhs => rw [← Line.head_append_tail c.rest, htail, List.append_nil]
    constructor
    · rintro rfl
      refine absurd ?_ hne
      show (Line.tail c.rest).drop 1 = []
      rw [htail]
      rfl
    · intro hcount
      obtain ⟨pre', hover', -⟩ := hd
      have hchars' : source.toList = pre' ++ d.rest := hover'.rest
      have hle : pre'.count '\n' ≤ source.toList.count '\n' := by
        rw [hchars', List.count_append]
        omega
      rw [hover'.line] at hcount
      rw [hchars, List.count_append, hall, hhead] at hle
      omega
  · have hcount : ((Source.ofString source).lines.position c.nextLine.offset).line = pre.count '\n' + 1 := by
      rw [hnext.line, htail]
      simp [List.count_append, hhead]
    have hstart : c.nextLine.StartsLine source.toList := ⟨_, hnext, .inr (by rw [htail]; simp)⟩
    constructor
    · rintro rfl
      exact hcount
    · intro hsame
      obtain ⟨pre', hover', -⟩ := id hd
      have hcolumn := hd.column.trans hstart.column.symm
      have hposition : (Source.ofString source).lines.position d.offset =
          (Source.ofString source).lines.position c.nextLine.offset := by
        cases hp : (Source.ofString source).lines.position d.offset
        cases hq : (Source.ofString source).lines.position c.nextLine.offset
        rw [hp] at hsame hcolumn
        rw [hq] at hcount hcolumn
        simp_all
      exact Cursor.eq_of_offset_eq hover' hnext (LineMap.position_injective hposition)

/-! ## Comments of a source -/

theorem Entry.ownComment?_of_isDefinition {e : Entry} (h : e.isDefinition = true) : e.ownComment? = e.doc? := by
  cases e with
  | message | term => rfl
  | comment | junk => cases h

/-- An entry has the comment of a run if and only if it starts on the line behind the run, and that has the lowest
level. -/
theorem Carries.attached_iff {level : CommentLevel} {last : Cursor} {k : Comment} {e e₀ : Entry}
    (h : Carries limit (Source.ofString source).lines level last k e₀) (hlast : last.StartsLine source.toList)
    (he₀ : e₀ ∈ (parse ⟨.preserve, limit⟩ source).body) (he : e ∈ (parse ⟨.preserve, limit⟩ source).body) :
    e.doc? = some k ↔ level = .comment ∧ e.isDefinition = true ∧ e.location.start.line =
      ((Source.ofString source).lines.position last.offset).line + 1 := by
  have hstart : e.location.start = (Source.ofString source).lines.position e.location.span.start :=
    congrArg Location.start (located_of_mem_parse he).eq_locate
  rw [hstart]
  constructor
  · intro hdoc
    obtain rfl := eq_of_ownComment? he he₀ (Entry.ownComment?_of_doc? hdoc) h.ownComment?
    cases h with
    | alone => cases hdoc
    | @attached e hlowest hentry =>
      refine ⟨hlowest, (isDefinition_of_entryAt hentry).2 k, ?_⟩
      have hne := (level?_of_entryAt hentry).1
      obtain ⟨pre, hover, -⟩ := id hlast
      have hline := (Cursor.startsLine_nextLine hover).resolve_left hne
      have hread : ReadAt limit source last.nextLine e := readAt_iff.2 ⟨hline, hentry⟩
      rw [Entry.location_document, hread.start]
      exact (line_nextLine_iff hlast hline hne).1 rfl
  · rintro ⟨hlowest, hdefinition, hline⟩
    have hid : e.id? ≠ none := by
      cases e with
      | message | term => simp [Entry.id?]
      | comment | junk => cases hdefinition
    obtain ⟨c, e', hread, hsame⟩ : ∃ c e', ReadAt limit source c e' ∧ (e = e' ∨ ∃ k, e = e'.document k) :=
      exists_readAt he hid
    have hlocation : e.location = e'.location := by
      rcases hsame with rfl | ⟨k', rfl⟩
      · rfl
      · exact Entry.location_document _ _
    obtain ⟨hc, hentry⟩ := readAt_iff.1 hread
    rw [hlocation, hread.start, ← line_nextLine_iff hlast hc (level?_of_entryAt hentry).1] at hline
    rw [hline] at hentry
    cases h with
    | alone hnone =>
      rw [hnone hlowest] at hentry
      cases hentry
    | attached _ hentry' =>
      -- the two entries lie in one place
      obtain rfl := Option.some.inj (hentry.symm.trans hentry')
      have hplace : e.location = (e'.document k).location := hlocation.trans (Entry.location_document _ _).symm
      obtain rfl := eq_of_location (apart_body limit source) he he₀ hplace
      rw [← Entry.ownComment?_of_isDefinition hdefinition]
      exact (ownComment?_of_entryAt hentry').2 k

/-- **When a comment belongs to an entry.** A maximal run of comment lines makes one comment, which ends on the last
line of the run. It belongs to a message or a term exactly if the run has the lowest level and the entry starts on the
line behind the run. If it belongs to none, it stands in the body on its own, once. No comment does both, and the body
is in source order. -/
theorem comment_attached_iff (limit : Nat) (source : String) {level : CommentLevel} {run : List Cursor}
    (h : Maximal (Cursor.ofChars source.toList).lines level run) :
    (∃ k : Comment, k.Keeps source.toList run ∧ k.level = level ∧
      (∀ last ∈ run.getLast?,
        k.location.stop.line = ((Source.ofString source).lines.position last.offset).line) ∧
      (∀ e ∈ (parse ⟨.preserve, limit⟩ source).body, e.doc? = some k ↔
        level = .comment ∧ e.isDefinition = true ∧ e.location.start.line = k.location.stop.line + 1) ∧
      ((∀ e ∈ (parse ⟨.preserve, limit⟩ source).body, e.doc? ≠ some k) →
        (parse ⟨.preserve, limit⟩ source).comments.count k = 1)) ∧
    (∀ k, .comment k ∈ (parse ⟨.preserve, limit⟩ source).body →
      ∀ e ∈ (parse ⟨.preserve, limit⟩ source).body, e.doc? ≠ some k) ∧
    (parse ⟨.preserve, limit⟩ source).body.Pairwise
      fun e e' => e.location.span.stop ≤ e'.location.span.start := by
  refine ⟨?_, fun k hk e he => doc?_ne_of_comment hk he, (ordered_parse _ source).1⟩
  have hrun := mem_runs_of_maximal h
  have hlast := List.getLast?_eq_some_getLast h.ne_nil
  generalize run.getLast h.ne_nil = last at hlast
  obtain ⟨hmem, hlevel⟩ := of_mem_run hrun (List.mem_of_getLast? hlast)
  have hline := (mem_lines_iff.1 hmem).2
  obtain ⟨k, hmade, e₀, he₀, hcarries⟩ := carries_keptFrom limit (.ofString source) _ _ hrun last hlast
  rw [← filter_body] at he₀
  have he₀ : e₀ ∈ (parse ⟨.preserve, limit⟩ source).body := List.mem_of_mem_filter he₀
  have hkeeps := hmade.keeps h
  have hstop : k.location.stop.line = ((Source.ofString source).lines.position last.offset).line := by
    obtain ⟨first, -, last', hlast', hlocation⟩ := hmade.location
    obtain rfl := Option.some.inj (hlast'.symm.trans hlast)
    rw [hlocation]
    exact (position_commentLine hline hlevel).1
  refine ⟨k, hkeeps, ?_, ?_, ?_, ?_⟩
  · exact Option.some.inj ((hkeeps.maximal.levels last (List.mem_of_getLast? hlast)).symm.trans hlevel)
  · intro last' hlast'
    obtain rfl := Option.some.inj (hlast'.symm.trans hlast)
    exact hstop
  · intro e he
    rw [hstop]
    exact hcarries.attached_iff hline he₀ he
  · intro hnone
    cases hcarries with
    | attached _ hentry =>
      have hdefinition := (isDefinition_of_entryAt hentry).2 k
      have hown := (ownComment?_of_entryAt hentry).2 k
      rw [Entry.ownComment?_of_isDefinition hdefinition] at hown
      exact absurd hown (hnone _ he₀)
    | alone => exact List.count_eq_one_of_mem (nodup_comments _ source) (Resource.mem_comments.2 he₀)

/-- Of two comments the second one belongs to the message behind it. -/
theorem comment_attached_message : ∃ run,
    Maximal (Cursor.ofChars "# a\n\n# b\n# c\nm = x\n".toList).lines .comment run ∧
      run.map (·.offset) = [5, 9] ∧ ∃ k : Comment, k.Keeps "# a\n\n# b\n# c\nm = x\n".toList run ∧
        ∃ e ∈ (parse ⟨.preserve, 100⟩ "# a\n\n# b\n# c\nm = x\n").body, e.doc? = some k := by
  have hruns : (runs (Cursor.ofChars "# a\n\n# b\n# c\nm = x\n".toList).lines).getLast?.map
      (fun r => (r.1, r.2.map (·.offset))) = some (.comment, [5, 9]) := by
    decide +kernel
  have hbody : (parse ⟨.preserve, 100⟩ "# a\n\n# b\n# c\nm = x\n").body.getLast?.map
      (fun e => (e.isDefinition, e.location.start)) = some (true, ⟨4, 0⟩) := by
    decide +kernel
  have hline : ((Source.ofString "# a\n\n# b\n# c\nm = x\n").lines.position 9).line = 3 := by
    decide +kernel
  obtain ⟨⟨level, run⟩, hlast, hrun⟩ := Option.map_eq_some_iff.1 hruns
  obtain ⟨rfl, hoffsets⟩ := Prod.mk.inj hrun
  have hmaximal := @runs_maximal [] _ (by simp) _ (List.mem_of_getLast? hlast)
  obtain ⟨⟨k, hkeeps, -, hstop, hattached, -⟩, -⟩ := comment_attached_iff 100 _ hmaximal
  obtain ⟨e, he, hdata⟩ := Option.map_eq_some_iff.1 hbody
  obtain ⟨hdefinition, hstart⟩ := Prod.mk.inj hdata
  have hlines : e.location.start.line = k.location.stop.line + 1 := by
    obtain ⟨first, rest, rfl, hfirst, hrest⟩ := List.map_eq_cons_iff.1 hoffsets
    obtain ⟨last, rest, rfl, hoffset, hnil⟩ := List.map_eq_cons_iff.1 hrest
    obtain rfl := List.map_eq_nil_iff.1 hnil
    rw [hstop last rfl, hoffset, hline, hstart]
  exact ⟨run, hmaximal, hoffsets, k, hkeeps, e, List.mem_of_getLast? he,
    (hattached e (List.mem_of_getLast? he)).2 ⟨rfl, hdefinition, hlines⟩⟩

end Fluent
