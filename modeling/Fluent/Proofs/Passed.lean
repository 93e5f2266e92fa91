import Fluent.Proofs.Excerpt

/-!
# The lines that an entry passes

An entry goes on with a line only if the line is indented, or begins with a mark that continues an expression. Such
a line opens neither a comment nor an entry, and neither does a blank line. So whatever makes the reading of an
entry stop early, the lines it would have gone on with hold no entry of their own.

* `Line.Quiet cs`: the line at `cs` opens neither a comment nor an entry.
* `Cursor.Passes c d`: the lines from `c` to `d` are quiet.
* `State.passes_step`, `State.passes_run`: a step and a run only pass quiet lines.
* `State.passes_run_ofHeader`: from the line behind a header to the line where its entry ends.
-/

namespace Fluent

/-! ## Quiet lines -/

/-- The line opens neither a comment nor an entry. So no block but that of a stray line or of a blank one can begin with
it. -/
def Line.Quiet (cs : List Char) : Prop := commentLevel? cs = none ∧ entryHeader? cs = none

/-- A line that begins with white space, or with a mark that continues an expression. -/
theorem Line.quiet_cons {x : Char} {v : List Char} (hx : isLayout x = true ∨ continuesExpression x = true) :
    Quiet (x :: v) := by
  have hhash : x ≠ '#' := by
    rintro rfl
    revert hx
    decide
  refine ⟨by simp [commentLevel?, hhash, CommentLevel.ofHashes?], ?_⟩
  rw [Option.eq_none_iff_forall_not_mem]
  rintro ⟨isTerm, a⟩ ha
  obtain ⟨y, rest, hcons, hopens⟩ := opensHeader_of_header ha
  obtain ⟨rfl, rfl⟩ := List.cons.inj hcons
  obtain ⟨hlayout, -, -, hcontinues⟩ := opensHeader_spec hopens
  simp [hlayout, hcontinues] at hx

theorem Line.quiet_of_isBlank {cs : List Char} (h : isBlank cs = true) : Quiet cs := by
  cases cs with
  | nil => exact ⟨rfl, rfl⟩
  | cons x v =>
    apply quiet_cons
    left
    by_cases hx : x = '\n'
    · rw [hx]
      rfl
    · have hmem : x ∈ head (x :: v) := by simp [head, hx]
      exact isLayout_of_isBlankChar (isBlank_iff.1 h x hmem)

namespace Cursor

variable {c d e : Cursor}

/-- From one line start to a later one the lines are quiet. So no entry and no comment begins in between. -/
inductive Passes : Cursor → Cursor → Prop
  | refl (c : Cursor) : Passes c c
  | line {c d : Cursor} : Line.Quiet c.rest → c.nextLine.Passes d → Passes c d

theorem Passes.trans (h : c.Passes d) (h' : d.Passes e) : c.Passes e := by
  induction h with
  | refl => exact h'
  | line hquiet _ ih => exact .line hquiet (ih h')

/-- Both cursors are on one line. -/
theorem nextLine_of_over {w : List Char} (h : c.Over w d) (hw : '\n' ∉ w) : d.nextLine = c.nextLine := by
  have hfeed : ∀ x ∈ w, (x != '\n') = true := by
    rintro x hx
    exact bne_iff_ne.2 fun heq => hw (heq ▸ hx)
  simp only [nextLine, lineEnd, skip, skipWhile]
  rw [h.rest, h.offset, List.takeWhile_append_of_pos hfeed, List.dropWhile_append_of_pos hfeed, byteCount_append]
  simp only [Nat.add_assoc]

/-- The lines up to the next one with content are blank, and that one is quiet if it goes on with something. -/
theorem passes_toContent {l : Line.Next} (h : Line.nextContent? c.rest = some l)
    (hl : 0 < l.indent ∨ Line.continuesExpression l.first = true) :
    c.nextLine.Passes (c.toContent l).nextLine := by
  obtain ⟨o, cs⟩ := c
  simp only at h
  -- each blank line in front of the content is one more that is passed over
  fun_induction Line.nextContent? cs generalizing o l with
  | case1 line hblank ih =>
    obtain ⟨m, hm, rfl⟩ := Option.map_eq_some_iff.1 h
    have hrest := ih (l := m) hl (o + 1 + (Line.head line).length) hm
    have hhead : byteCount (Line.head line) = (Line.head line).length :=
      byteCount_layout fun x hx => isLayout_of_isBlankChar (Line.isBlank_iff.1 hblank x hx)
    have hnext : Cursor.nextLine ⟨o, '\n' :: line⟩ = ⟨o + 1, line⟩ := rfl
    have hend : (Cursor.mk (o + 1) line).lineEnd = ⟨o + 1 + (Line.head line).length, Line.tail line⟩ := by
      rw [← hhead]
      rfl
    rw [← hend, nextLine_lineEnd] at hrest
    rw [hnext]
    refine .line (Line.quiet_of_isBlank hblank) ?_
    convert hrest using 2
    rw [hend]
    simp only [toContent, Line.Next.distance, Line.Next.content, Cursor.mk.injEq, and_true]
    omega
  | case2 => simp at h
  | case3 line hblank x after hcontent =>
    obtain rfl := Option.some.inj h
    have hsplit := List.takeWhile_append_dropWhile (p := (· == ' ')) (l := line)
    have hspaces : ∀ y ∈ line.takeWhile (· == ' '), y = ' ' := by
      intro y hy
      simpa using List.mem_takeWhile_imp hy
    -- indented or not, the line starts no comment and no entry
    have hquiet : Line.Quiet line := by
      cases hindent : line.takeWhile (· == ' ') with
      | nil =>
        rw [hindent, hcontent, List.nil_append] at hsplit
        rw [← hsplit]
        apply Line.quiet_cons
        right
        simpa [Line.indent, hindent] using hl
      | cons y ys =>
        rw [hindent] at hsplit hspaces
        rw [← hsplit, List.cons_append]
        refine Line.quiet_cons (.inl ?_)
        rw [hspaces y List.mem_cons_self]
        rfl
    have hover : (Cursor.mk (o + 1) line).Over (line.takeWhile (· == ' '))
        (Cursor.toContent ⟨o, '\n' :: line⟩ ⟨1, 1, Line.indent line, x, after⟩) := by
      refine ⟨?_, ?_⟩
      · simp only [toContent, Line.Next.content]
        rw [← hcontent, hsplit]
      · have hcount : byteCount (line.takeWhile (· == ' ')) = Line.indent line :=
          byteCount_eq_length fun y hy => by rw [hspaces y hy]; rfl
        simp only [toContent, Line.Next.distance, hcount]
        omega
    rw [nextLine_of_over hover fun hfeed => by simpa using hspaces _ hfeed]
    exact .line hquiet (.refl _)
  | case4 => simp at h

/-- Blanks cross no line, and a line that is crossed goes on with an expression. -/
theorem passes_skipBlank? (h : c.skipBlank? = some d) : c.nextLine.Passes d.nextLine := by
  have hblanks (e : Cursor) : (e.skipWhile Line.isBlankChar).nextLine = e.nextLine := by
    refine nextLine_of_over (over_skipWhile _ e) ?_
    intro hfeed
    have himp := List.mem_takeWhile_imp hfeed
    revert himp
    decide
  obtain ⟨rfl, -⟩ | ⟨l, hl, hcontinues, rfl⟩ := skipBlank?_eq_some h
  · rw [hblanks]
    exact .refl _
  · rw [hblanks, ← hblanks c]
    exact passes_toContent hl (by simpa [Line.Next.continuesExpression] using hcontinues)

end Cursor

/-! ## Steps -/

namespace State

/-- From the line behind one state to the line behind another the lines are quiet, so the machine has run over nothing
that opens a block. -/
def Passes (s s' : State) : Prop := s.cursor.nextLine.Passes s'.cursor.nextLine

namespace Passes

variable {s s' s'' : State}

theorem refl (s : State) : s.Passes s := Cursor.Passes.refl _

theorem trans (h : s.Passes s') (h' : s'.Passes s'') : s.Passes s'' := Cursor.Passes.trans h h'

/-- The cursor stays on its line. -/
theorem of_over {w : List Char} (h : s.cursor.Over w s'.cursor) (hw : '\n' ∉ w) : s.Passes s' := by
  rw [Passes, Cursor.nextLine_of_over h hw]
  exact .refl _

theorem emit {t : Token} {n : Nat} (hn : '\n' ∉ s.cursor.rest.take n) : s.Passes (s.emit t n) :=
  of_over (Cursor.over_skip n s.cursor) hn

theorem toContent {l : Line.Next} (h : Line.nextContent? s.cursor.rest = some l)
    (hl : 0 < l.indent ∨ Line.continuesExpression l.first = true) :
    s.Passes { s with cursor := s.cursor.toContent l } := Cursor.passes_toContent h hl

end Passes

variable {s : State} {limit : Nat} {fs : List Frame}

theorem passes_toLineEnd (s : State) : s.Passes s.toLineEnd :=
  .of_over (Cursor.over_lineEnd s.cursor) (Line.newline_notMem_head _)

theorem passes_emitUnfinished (s : State) : s.Passes s.emitUnfinished := .emit s.notMem_take_head

theorem passes_finishLine (s : State) : s.Passes s.finishLine := by
  unfold finishLine
  split
  · exact passes_toLineEnd s
  · exact passes_emitUnfinished s

theorem passes_emitAssignment {a : Line.Assignment} (ha : Line.assignment? s.cursor.rest = some a) :
    s.Passes (s.emitAssignment a) := by
  obtain ⟨hname, hspaces, hequals⟩ := notMem_assignment (t := .identifier (String.ofList a.name)) ha
  have hskip : (s.emit (.identifier (String.ofList a.name)) a.name.length).Passes
      { s.emit (.identifier (String.ofList a.name)) a.name.length with
        cursor := (s.emit (.identifier (String.ofList a.name)) a.name.length).cursor.skip a.spaces } :=
    .of_over (Cursor.over_skip _ _) hspaces
  exact (Passes.emit hname).trans (hskip.trans (.emit hequals))

theorem passes_beginValue (s : State) : s.Passes s.beginValue := by
  have hspaces : s.Passes { s with cursor := s.cursor.skipWhile (· == ' ') } := by
    refine .of_over (Cursor.over_skipWhile _ s.cursor) ?_
    intro hfeed
    simpa using List.mem_takeWhile_imp hfeed
  have hvalue := s.valueBegins
  generalize s.beginValue = t at hvalue ⊢
  cases hvalue with
  | inline => exact hspaces
  | below _ hl hcontinues =>
    have hcontent := Cursor.passes_toContent hl (.inl (Line.indent_pos_of_continuesPattern hcontinues))
    rw [Cursor.nextLine_lineEnd] at hcontent
    exact Cursor.Passes.trans hspaces hcontent
  | missing => exact hspaces.trans (passes_toLineEnd { s with cursor := s.cursor.skipWhile (· == ' ') })

theorem passes_betweenAttributes (s : State) : s.Passes s.betweenAttributes.state := by
  refine (passes_finishLine s).trans ?_
  have hfollows := s.attributeFollows
  generalize s.finishLine = t, s.betweenAttributes = step at hfollows ⊢
  cases hfollows with
  | header hl hindent hdot ha =>
    have hemit := Passes.emit (s := { t with cursor := t.cursor.toContent _ }) (t := .dot) (n := 1) <| by
      rw [List.take_one, hdot]
      simp
    exact (Passes.toContent hl (.inl hindent)).trans (hemit.trans ((passes_emitAssignment ha).trans
      (passes_beginValue _)))
  | unfinished hl hindent => exact (Passes.toContent hl (.inl hindent)).trans (passes_emitUnfinished _)
  | stop => exact .refl t

/-- A brace or a parenthesis is read, or the rest of the line. -/
theorem passes_open {x : Char} {xs : List Char} (limit : Nat) (hrest : s.cursor.rest = x :: xs) (hx : x ≠ '\n')
    (t : Token) (e : Ending) (f : Frame) :
    s.Passes (if s.depth < limit then Step.next { s.emit t 1 with frames := f :: s.frames }
      else .stop e s.emitUnfinished).state := by
  split
  · refine Passes.emit (t := t) ?_
    simpa [hrest] using hx.symm
  · exact passes_emitUnfinished s

theorem passes_readText {outer : List PatternItem} {breaks : Nat} {indent : Option Nat} :
    s.Passes (s.readText limit outer breaks indent fs).state := by
  have hpassed : ∀ {text : List Char} {d : Cursor}, s.cursor.Over text d → (∀ x ∈ text, inRun x = true) →
      s.Passes { s with cursor := d } := fun hover htext => .of_over hover (newline_notMem_of_inRun htext)
  have hread := s.textReads limit outer breaks indent fs
  generalize s.readText limit outer breaks indent fs = step at hread ⊢
  cases hread with
  | @placeable text rest d hover htext hrest =>
    have hopen := passes_open (s := ⟨d, .run ⟨breaks, indent, s.cursor.offset, text⟩ :: s.items,
      .pattern outer 0 none :: fs⟩) limit hrest (by decide) .openBrace (.tooDeep d.offset) .placeable
    exact Cursor.Passes.trans (hpassed hover htext) hopen
  | below hover htext _ hl hcontinues =>
    exact Cursor.Passes.trans (hpassed hover htext)
      (Cursor.passes_toContent hl (.inl (Line.indent_pos_of_continuesPattern hcontinues)))
  | last hover htext => exact hpassed hover htext

section Readers

variable {x : Char} {xs : List Char}

theorem passes_emitScanned (hrest : s.cursor.rest = x :: xs) (hx : x ≠ '\n') : s.Passes s.emitScanned.state := by
  unfold emitScanned
  rw [hrest]
  refine Passes.emit ?_
  rw [hrest]
  exact notMem_take_scan xs hx

/-- A token of one character. -/
theorem passes_emit_one (hrest : s.cursor.rest = x :: xs) (hx : x ≠ '\n') (t : Token) : s.Passes (s.emit t 1) := by
  refine Passes.emit ?_
  simpa [hrest] using hx.symm

theorem passes_readPlaceable (hrest : s.cursor.rest = x :: xs) (hx : x ≠ '\n') :
    s.Passes (s.readPlaceable limit fs).state := by
  have hreads := s.placeableReads limit fs
  generalize s.readPlaceable limit fs = r at hreads
  cases hreads with
  | close => exact passes_emit_one hrest hx .closeBrace
  | placeable => exact passes_open _ hrest hx _ _ _
  | arguments => exact passes_open _ hrest hx _ _ _
  | arrow harrow =>
    have harrow : s.Passes (s.emit .arrow 2) := .emit (by simp [harrow])
    exact harrow
  | token => exact passes_emitScanned hrest hx

theorem passes_readArguments (hrest : s.cursor.rest = x :: xs) (hx : x ≠ '\n') {positional atStart : Bool} :
    s.Passes (s.readArguments limit positional atStart fs).state := by
  -- the marker takes nothing, so the token behind it is read where the state stands
  have hemit : ∀ (b : Bool) (t : Token) (n : Nat), '\n' ∉ s.cursor.rest.take n →
      s.Passes ((if b then s.mark .endPositional else s).emit t n) := by
    intro b t n hn
    refine .of_over (w := s.cursor.rest.take n) ?_ hn
    rw [← cursor_markIf s b .endPositional]
    exact Cursor.over_skip n _
  have hone : '\n' ∉ s.cursor.rest.take 1 := by simpa [hrest] using hx.symm
  have hreads := s.argumentsReads limit positional atStart fs
  generalize s.readArguments limit positional atStart fs = r at hreads
  cases hreads with
  | nothing => exact .refl s
  | close => exact hemit positional .closeParen 1 hone
  | placeable => exact passes_open (s := { s with frames := .arguments positional false :: fs }) _ hrest hx _ _ _
  | arguments => exact passes_open (s := { s with frames := .arguments positional false :: fs }) _ hrest hx _ _ _
  | @token y ys _ hcons =>
    refine hemit _ (Token.scan y ys).1 _ ?_
    rw [hcons]
    exact notMem_take_scan ys (by rw [← (List.cons.inj (hrest.symm.trans hcons)).1]; exact hx)

theorem passes_readVariants (hrest : s.cursor.rest = x :: xs) (hx : x ≠ '\n') :
    s.Passes (s.readVariants fs).state := by
  have hreads := s.variantsReads fs
  generalize s.readVariants fs = r at hreads
  cases hreads with
  | close => exact passes_emit_one hrest hx .closeBrace
  | key => exact passes_emit_one hrest hx .openBracket
  | token => exact passes_emitScanned hrest hx

theorem passes_readKey (hrest : s.cursor.rest = x :: xs) (hx : x ≠ '\n') {read : Bool} :
    s.Passes (s.readKey read fs).state := by
  have hreads := s.keyReads read fs
  generalize s.readKey read fs = r at hreads
  cases hreads with
  | close =>
    have hclose : s.Passes { s.emit .closeBracket 1 with frames := fs } := passes_emit_one hrest hx .closeBracket
    exact hclose.trans (passes_beginValue _)
  | unclosed => exact .refl s
  | token => exact passes_emitScanned (s := { s with frames := .key true :: fs }) hrest hx

theorem passes_onContent {read : State → Step}
    (hread : ∀ (d : Cursor) (x : Char) (xs : List Char), d.rest = x :: xs → x ≠ '\n' →
      State.Passes { s with cursor := d } (read { s with cursor := d }).state) :
    s.Passes (s.onContent read).state := by
  unfold onContent
  split
  · exact .refl s
  · rename_i d hd
    obtain ⟨_, x, xs, -, -, hrest, hx, -⟩ := Cursor.over_skipBlank hd
    have hfeed : x ≠ '\n' := by
      rintro rfl
      cases hx
    have hblank : s.Passes { s with cursor := d } := Cursor.passes_skipBlank? hd
    exact hblank.trans (hread d x xs hrest hfeed)

end Readers

/-- **A step only passes quiet lines.** Where it crosses line breaks, the line that it goes on with is indented, or
begins with a closing or a variant mark. -/
theorem passes_step (limit : Nat) (s : State) : s.Passes (s.step limit).state := by
  have hreads := s.stepReads limit
  generalize s.step limit = r at hreads
  cases hreads with
  | outside => exact passes_betweenAttributes s
  | pattern => exact passes_readText
  | placeable => exact passes_onContent fun _ _ _ hrest hx => passes_readPlaceable hrest hx
  | arguments => exact passes_onContent fun _ _ _ hrest hx => passes_readArguments hrest hx
  | variants => exact passes_onContent fun _ _ _ hrest hx => passes_readVariants hrest hx
  | key => exact passes_onContent fun _ _ _ hrest hx => passes_readKey hrest hx

/-- A run passes quiet lines only, from the line behind its first one to the line behind its last. -/
theorem passes_run (limit : Nat) (s : State) : s.Passes (s.run limit).2 := by
  fun_induction run limit s with
  | case1 s t hstep ih =>
    have hpasses := passes_step limit s
    rw [hstep] at hpasses
    exact hpasses.trans ih
  | case2 s e t hstep =>
    have hpasses := passes_step limit s
    rwa [hstep] at hpasses

/-- The header is on one line. -/
theorem passes_ofHeader {c : Cursor} {isTerm : Bool} {a : Line.Assignment}
    (ha : Line.entryHeader? c.rest = some (isTerm, a)) : State.Passes ⟨c, [], []⟩ (ofHeader c isTerm a) := by
  obtain ⟨rfl, rest, hrest, hassign⟩ | ⟨rfl, hassign⟩ := Line.entryHeader?_eq_some ha
  · have hminus : State.Passes ⟨c, [], []⟩ (State.emit ⟨c, [], []⟩ .minus 1) :=
      passes_emit_one (s := ⟨c, [], []⟩) hrest (by decide) .minus
    have hname : (State.emit ⟨c, [], []⟩ .minus 1).cursor.rest = rest := by
      simp [State.emit, Cursor.skip, hrest]
    exact hminus.trans ((passes_emitAssignment (hname ▸ hassign)).trans (passes_beginValue _))
  · exact (passes_emitAssignment (s := ⟨c, [], []⟩) hassign).trans (passes_beginValue _)

/-- **The lines of an entry behind its first one are quiet.** -/
theorem passes_run_ofHeader {c : Cursor} {isTerm : Bool} {a : Line.Assignment}
    (ha : Line.entryHeader? c.rest = some (isTerm, a)) (limit : Nat) :
    c.nextLine.Passes ((ofHeader c isTerm a).run limit).2.cursor.nextLine :=
  (passes_ofHeader ha).trans (passes_run limit _)

end State

end Fluent
