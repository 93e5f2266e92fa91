import Fluent.Proofs.Moved
import Fluent.Proofs.Trailing

/-!
# Machines at the end of a text

A machine that reads a text with layout behind it, and one that reads the text alone, read the same tokens: only
the markers that the one places among the layout are placed at the end by the other. It may be otherwise where a
string is not closed or a line is left over, and no entry has such a token.

* `Lexeme.clip n`: a token with its marker no further on than `n`.
* `State.Trims n gap s s'`: the state `s'` in a text of `n` bytes where `s` is in one with layout behind it.
* `State.trims_step`, `State.trims_run`: a step and a run keep this, or they read what no entry has.
* `State.Trims.lexemes`: the tokens are the same but for clipped markers.
-/

namespace Fluent

/-- A token that stands for a part of a line that has no place in an entry. -/
def Token.isUnfinished : Token → Bool
  | unterminatedString _ | unfinishedLine => true
  | _ => false

/-- The token, with its place no further on than `n` if it is a marker. -/
def Lexeme.clip (n : Nat) (l : Lexeme) : Lexeme :=
  if l.token.isMarker then ⟨l.token, .at (min l.span.start n)⟩ else l

def PatternItem.clip (n : Nat) : PatternItem → PatternItem
  | lexeme l => lexeme (l.clip n)
  | i => i

/-- A pattern whose next run of text begins on the same line: no line break and no indentation is noted that would go
into it. -/
def Frame.Settled : Frame → Prop
  | pattern _ breaks indent => breaks = 0 ∧ indent = none
  | _ => True

/-- Every open pattern goes on within its line. This is so of the patterns around the innermost construct, which are in
the middle of a placeable. -/
def AllSettled (fs : List Frame) : Prop := ∀ f ∈ fs, f.Settled

variable {n : Nat} {gap : List Char}

/-! ## Items -/

theorem Lexeme.clip_of_not_isMarker {l : Lexeme} (h : l.token.isMarker = false) : l.clip n = l := by
  rw [clip, h]
  rfl

@[simp] theorem Lexeme.token_clip (l : Lexeme) : (l.clip n).token = l.token := by
  unfold clip
  split <;> rfl

@[simp] theorem PatternItem.indent?_clip (i : PatternItem) : (i.clip n).indent? = i.indent? := by
  cases i <;> rfl

theorem PatternItem.settle?_clip (common : Nat) (i : PatternItem) :
    (i.clip n).settle? common = (i.settle? common).map (Lexeme.clip n) := by
  cases i with
  | lexeme l => rfl
  | run r =>
    simp only [clip, settle?]
    split
    · rfl
    · rfl

/-- Runs of text have no markers among them. -/
theorem dedent_clip (items : List PatternItem) :
    dedent (items.map (PatternItem.clip n)) = (dedent items).map (Lexeme.clip n) := by
  have hindents : PatternItem.indent? ∘ PatternItem.clip n = PatternItem.indent? :=
    funext PatternItem.indent?_clip
  unfold dedent
  rw [List.filterMap_map, List.filterMap_map, List.map_filterMap, hindents]
  exact congrArg (fun f => items.filterMap f) (funext (PatternItem.settle?_clip _))

/-- A run without line breaks, indentation and text is no token, wherever it stands. -/
theorem dedent_empty_run (o : Nat) (items : List PatternItem) :
    dedent (.run ⟨0, none, o, []⟩ :: items) = dedent items := by
  have hnone : ∀ common, PatternItem.settle? common (.run ⟨0, none, o, []⟩) = none := by
    intro common
    simp [PatternItem.settle?, TextRun.value]
  unfold dedent
  rw [List.filterMap_cons_none (hnone _), List.filterMap_cons_none rfl]

namespace TextRun

/-- Blanks at the end of a text are lost with those before them. -/
theorem trimEnd_append {r : TextRun} {text blanks : List Char} (hr : r.text = text ++ blanks)
    (hblanks : ∀ x ∈ blanks, Line.isBlankChar x = true) : r.trimEnd = { r with text := text }.trimEnd := by
  simp only [trimEnd, hr, List.reverse_append]
  rw [List.dropWhile_append_of_pos]
  intro x hx
  exact hblanks x (List.mem_reverse.1 hx)

/-- So is a carriage return there. -/
theorem trimEnd_dropReturn (r : TextRun) : { r with text := Line.dropReturn r.text }.trimEnd = r.trimEnd := by
  unfold Line.dropReturn
  split
  · rename_i hlast
    have hsplit : r.text = r.text.dropLast ++ ['\r'] := (List.dropLast_append_getLast? _ hlast).symm
    exact (trimEnd_append hsplit (by simp [Line.isBlankChar])).symm
  · rfl

end TextRun

namespace State

/-- A token was read that stands for a part of a line without a place in an entry. -/
def Unfinished (s : State) : Prop := ∃ l, .lexeme l ∈ s.held ∧ l.token.isUnfinished = true

/-- What no entry has is still among the tokens later on, since no token is lost. -/
theorem Unfinished.onward {s s' : State} (h : s.Unfinished) (hs : s.Onward s') : s'.Unfinished := by
  obtain ⟨l, hl, htoken⟩ := h
  exact ⟨l, hs.held l hl, htoken⟩

theorem unfinished_emit (s : State) {t : Token} (ht : t.isUnfinished = true) (m : Nat) : (s.emit t m).Unfinished :=
  ⟨⟨t, _⟩, List.mem_cons_self, ht⟩

/-- A state in a text with layout behind it, and the one in the text alone. The patterns around the innermost
construct go on within their lines, and so does the innermost one where the text is at its end. -/
structure Trims (n : Nat) (gap : List Char) (s s' : State) : Prop where
  cursor : s.cursor.Trims n gap s'.cursor
  items : s'.items = s.items.map (PatternItem.clip n)
  frames : s'.frames = s.frames.map (Frame.mapItems (PatternItem.clip n))
  outer : AllSettled s.frames.tail
  settled : s'.cursor.rest = [] → AllSettled s.frames

end State

/-- The outcomes of a step in both texts; or the first step read what no entry has. -/
inductive Step.Trims (n : Nat) (gap : List Char) : Step → Step → Prop
  | next {s s' : State} : s.Trims n gap s' → Trims n gap (.next s) (.next s')
  | stop {s s' : State} {e : Ending} : s.Trims n gap s' → Trims n gap (.stop e s) (.stop e s')
  | unfinished {x x' : Step} : x.state.Unfinished → Trims n gap x x'

namespace State

variable {s s' : State} {t : Token} {m limit : Nat} {fs : List Frame}

namespace Trims

theorem lexemes (h : s.Trims n gap s') : s'.lexemes = s.lexemes.map (Lexeme.clip n) := by
  obtain ⟨c, items, frames⟩ := s'
  obtain rfl := h.items
  obtain rfl := h.frames
  exact lexemes_map (fun _ => rfl) dedent_clip s c

theorem depth (h : s.Trims n gap s') : s'.depth = s.depth := by
  rw [State.depth, h.frames]
  exact countP_mapItems _ s.frames

/-! ## Single moves -/

/-- The cursors move on among settled constructs. -/
theorem move (h : s.Trims n gap s') (hset : AllSettled s.frames) {c d : Cursor} (hcursor : c.Trims n gap d) :
    Trims n gap { s with cursor := c } { s' with cursor := d } :=
  ⟨hcursor, h.items, h.frames, h.outer, fun _ => hset⟩

/-- Other constructs are open that hold the same items. -/
theorem reframe (h : s.Trims n gap s') (hset : AllSettled fs) :
    Trims n gap { s with frames := fs } { s' with frames := fs.map (Frame.mapItems (PatternItem.clip n)) } :=
  ⟨h.cursor, h.items, rfl, fun f hf => hset f (List.mem_of_mem_tail hf), fun _ => hset⟩

theorem mark (h : s.Trims n gap s') (ht : t.isMarker = true) : (s.mark t).Trims n gap (s'.mark t) := by
  refine ⟨h.cursor, ?_, h.frames, h.outer, h.settled⟩
  have hclip : Lexeme.clip n ⟨t, .at s.cursor.offset⟩ = ⟨t, .at s'.cursor.offset⟩ := by
    rw [Lexeme.clip, if_pos ht, h.cursor.offset]
    rfl
  show .lexeme _ :: s'.items = .lexeme (Lexeme.clip n ⟨t, .at s.cursor.offset⟩) :: s.items.map (PatternItem.clip n)
  rw [hclip, h.items]

/-- A token of the text alone is read by both. -/
theorem emit (hgap : AllLayout gap) (h : s.Trims n gap s') (hset : AllSettled s.frames) (ht : t.isMarker = false)
    (hne : s'.cursor.rest ≠ []) (hm : m ≤ s'.cursor.rest.length) : (s.emit t m).Trims n gap (s'.emit t m) := by
  obtain ⟨-, -, hcursor⟩ := h.cursor.inside_of_ne_nil hne
  have hskip := h.cursor.skip hgap hm
  have hoffset : s.cursor.offset = s'.cursor.offset := by rw [hcursor]
  have hnext : (s.cursor.skip m).offset = (s'.cursor.skip m).offset := by
    rw [hcursor, Cursor.skip, Cursor.skip]
    simp only
    rw [List.take_append_of_le_length hm]
  refine ⟨hskip, ?_, h.frames, h.outer, fun _ => hset⟩
  show .lexeme ⟨t, ⟨s'.cursor.offset, _⟩⟩ :: s'.items =
    .lexeme (Lexeme.clip n ⟨t, ⟨s.cursor.offset, _⟩⟩) :: s.items.map (PatternItem.clip n)
  rw [Lexeme.clip_of_not_isMarker ht, hoffset, hnext, h.items]

theorem toLineEnd (hgap : AllLayout gap) (h : s.Trims n gap s') (hset : AllSettled s.frames) :
    s.toLineEnd.Trims n gap s'.toLineEnd := h.move hset (h.cursor.lineEnd hgap)

theorem finishLine (hgap : AllLayout gap) (h : s.Trims n gap s') (hset : AllSettled s.frames) :
    s.finishLine.Trims n gap s'.finishLine ∨ s.finishLine.Unfinished := by
  unfold State.finishLine
  rw [← h.cursor.isBlank]
  split
  · exact .inl (h.toLineEnd hgap hset)
  · exact .inr (unfinished_emit s rfl _)

theorem emitAssignment (hgap : AllLayout gap) (h : s.Trims n gap s') (hset : AllSettled s.frames)
    {a : Line.Assignment} (ha : Line.assignment? s'.cursor.rest = some a) :
    (s.emitAssignment (a.extend gap)).Trims n gap (s'.emitAssignment a) := by
  obtain ⟨hrest, hne, -⟩ := Line.assignment?_eq_some ha
  have hname := h.emit hgap hset (t := .identifier (String.ofList a.name)) (m := a.name.length) rfl
    (by simp [hrest, hne]) (by simp [hrest])
  have hrest₁ : (s'.emit (.identifier (String.ofList a.name)) a.name.length).cursor.rest =
      List.replicate a.spaces ' ' ++ '=' :: a.rest := by
    show s'.cursor.rest.drop a.name.length = _
    rw [hrest, List.drop_left]
  have hspaces := hname.cursor.skip hgap (m := a.spaces) (by simp [hrest₁])
  have hrest₂ : ((s'.emit (.identifier (String.ofList a.name)) a.name.length).cursor.skip a.spaces).rest =
      '=' :: a.rest := by
    show (s'.emit (.identifier (String.ofList a.name)) a.name.length).cursor.rest.drop a.spaces = _
    rw [hrest₁, List.drop_left' List.length_replicate]
  exact (hname.move hset hspaces).emit hgap hset rfl (by simp [hrest₂]) (by simp [hrest₂])

theorem openPattern (h : s.Trims n gap s') (hset : AllSettled s.frames) {indent : Option Nat}
    (hindent : s'.cursor.rest = [] → indent = none) :
    (s.openPattern indent).Trims n gap (s'.openPattern indent) := by
  have hmark := h.mark (t := .patternStart) rfl
  refine ⟨h.cursor, rfl, ?_, hset, ?_⟩
  · show Frame.pattern (s'.mark .patternStart).items 0 indent :: s'.frames =
      .pattern ((s.mark .patternStart).items.map (PatternItem.clip n)) 0 indent :: s.frames.map _
    rw [hmark.items, h.frames]
  · intro hnil f hf
    rcases List.mem_cons.1 hf with rfl | hf
    · exact ⟨rfl, hindent hnil⟩
    · exact hset f hf

theorem beginValue (hgap : AllLayout gap) (h : s.Trims n gap s') (hset : AllSettled s.frames) :
    s.beginValue.Trims n gap s'.beginValue := by
  have hspaces := h.move hset (h.cursor.skipWhile isLayout_of_isSpace)
  unfold State.beginValue
  generalize s.cursor.skipWhile (· == ' ') = c at hspaces
  generalize s'.cursor.skipWhile (· == ' ') = d at hspaces
  have hend := hspaces.cursor.lineEnd hgap
  have hskipped := (hspaces.mark (t := .patternSkip) rfl).toLineEnd hgap hset
  have hnext := hend.nextContent?
  simp only at hend hnext ⊢
  rw [hspaces.cursor.isBlank, hnext]
  split
  · cases hl : Line.nextContent? d.lineEnd.rest with
    | none => exact hskipped
    | some l =>
      have hcontinues : (l.extend gap).continuesPattern = l.continuesPattern := rfl
      obtain ⟨hcontent, hne⟩ := hend.toContent hl
      simp only [Option.map_some]
      rw [hcontinues]
      split
      · exact (hspaces.move hset hcontent).openPattern hset fun hnil => absurd hnil hne
      · exact hskipped
  · exact hspaces.openPattern hset fun _ => rfl

end Trims

/-! ## Steps -/

theorem trims_attribute (hgap : AllLayout gap) (h : s.Trims n gap s') (hset : AllSettled s.frames)
    (hne : s'.cursor.rest ≠ []) :
    Step.Trims n gap
      (match Line.attributeHeader? s.cursor.rest with
        | some a => .next ((s.emit .dot 1).emitAssignment a).beginValue
        | none => .next s.emitUnfinished)
      (match Line.attributeHeader? s'.cursor.rest with
        | some a => .next ((s'.emit .dot 1).emitAssignment a).beginValue
        | none => .next s'.emitUnfinished) := by
  have hheader : Line.attributeHeader? s.cursor.rest =
      (Line.attributeHeader? s'.cursor.rest).map (.extend gap) := by
    rw [(h.cursor.inside_of_ne_nil hne).2.2]
    exact attributeHeader?_trailing hgap
  rw [hheader]
  cases ha : Line.attributeHeader? s'.cursor.rest with
  | none => exact .unfinished (unfinished_emit s rfl _)
  | some a =>
    obtain ⟨hdot, hassign⟩ := Line.attributeHeader?_eq_some ha
    have hlength : 1 ≤ s'.cursor.rest.length := List.length_pos_iff.2 hne
    have hemit := h.emit hgap hset (t := .dot) rfl hne hlength
    have hname : Line.assignment? (s'.emit .dot 1).cursor.rest = some a := by
      show Line.assignment? (s'.cursor.rest.drop 1) = some a
      rw [List.drop_one]
      exact hassign
    exact .next ((hemit.emitAssignment hgap hset hname).beginValue hgap hset)

/-- Between attributes a line with content is found in both texts or in none, since behind the end of the one there is
only layout in the other. -/
theorem trims_betweenAttributes (hgap : AllLayout gap) (h : s.Trims n gap s') (hfs : s.frames = []) :
    Step.Trims n gap s.betweenAttributes s'.betweenAttributes := by
  have hset : AllSettled s.frames := by simp [hfs, AllSettled]
  rcases h.finishLine hgap hset with hline | hunfinished
  · have hframes := s.frames_finishLine
    unfold betweenAttributes
    generalize s.finishLine = s₁ at hline hframes
    generalize s'.finishLine = s₁' at hline
    have hset₁ : AllSettled s₁.frames := by rwa [hframes]
    simp only
    rw [hline.cursor.nextContent?]
    cases hl : Line.nextContent? s₁'.cursor.rest with
    | none => exact .stop hline
    | some l =>
      have hopens : (l.extend gap).opensAttribute = l.opensAttribute := rfl
      obtain ⟨hcontent, hne⟩ := hline.cursor.toContent hl
      simp only [Option.map_some]
      rw [hopens]
      split
      · exact trims_attribute hgap (hline.move hset₁ hcontent) hset₁ hne
      · exact .stop hline
  · exact .unfinished (hunfinished.onward (onward_finishLine_betweenAttributes s))

/-- A construct that counts towards the limit is opened, or the line has no place in the entry. -/
theorem trims_open (hgap : AllLayout gap) (h : s.Trims n gap s') (hset : AllSettled s.frames)
    (hne : s'.cursor.rest ≠ []) (ht : t.isMarker = false) {f : Frame}
    (hf : f.mapItems (PatternItem.clip n) = f) (hsettled : f.Settled) (e e' : Ending) :
    Step.Trims n gap
      (if s.depth < limit then .next { s.emit t 1 with frames := f :: s.frames } else .stop e s.emitUnfinished)
      (if s'.depth < limit then .next { s'.emit t 1 with frames := f :: s'.frames }
        else .stop e' s'.emitUnfinished) := by
  rw [h.depth]
  split
  · have hlength : 1 ≤ s'.cursor.rest.length := List.length_pos_iff.2 hne
    have hemit := h.emit hgap hset ht hne hlength
    have hset' : AllSettled (f :: s.frames) := by
      intro g hg
      rcases List.mem_cons.1 hg with rfl | hg
      · exact hsettled
      · exact hset g hg
    have hframe := hemit.reframe hset'
    rw [List.map_cons, hf, ← h.frames] at hframe
    exact .next hframe
  · exact .unfinished (unfinished_emit s rfl _)

/-- Whether a placeable may be opened depends on the frames alone, of which there are as many in both texts. -/
theorem trims_openPlaceable (hgap : AllLayout gap) (h : s.Trims n gap s') (hset : AllSettled s.frames)
    (hne : s'.cursor.rest ≠ []) : Step.Trims n gap (s.openPlaceable limit) (s'.openPlaceable limit) :=
  trims_open (t := .openBrace) (f := .placeable) hgap h hset hne rfl rfl trivial _ _

theorem trims_openArguments (hgap : AllLayout gap) (h : s.Trims n gap s') (hset : AllSettled s.frames)
    (hne : s'.cursor.rest ≠ []) : Step.Trims n gap (s.openArguments limit) (s'.openArguments limit) :=
  trims_open (t := .openParen) (f := .arguments true true) hgap h hset hne rfl rfl trivial _ _

/-- Both close a pattern whose parts they dedent alike. -/
theorem trims_closePattern (s s' : State) {run run' : TextRun} {outer : List PatternItem}
    (h : s.cursor.Trims n gap s'.cursor)
    (hinner : dedent (.run run'.trimEnd :: s'.items) = (dedent (.run run.trimEnd :: s.items)).map (Lexeme.clip n))
    (hset : AllSettled fs) :
    (s.closePattern run outer fs).Trims n gap
      (s'.closePattern run' (outer.map (PatternItem.clip n)) (fs.map (Frame.mapItems (PatternItem.clip n)))) := by
  unfold closePattern
  refine Trims.mark ⟨h, ?_, rfl, fun f hf => hset f (List.mem_of_mem_tail hf), fun _ => hset⟩ rfl
  simp only
  rw [hinner, map_lexeme_map (g := PatternItem.clip n) (fun _ => rfl), List.map_append]

theorem trims_emitScanned (hgap : AllLayout gap) (h : s.Trims n gap s') (hset : AllSettled s.frames)
    {x : Char} {xs : List Char} (hrest : s'.cursor.rest = x :: xs) (hx : x ≠ '\n') :
    Step.Trims n gap s.emitScanned s'.emitScanned := by
  have hne : s'.cursor.rest ≠ [] := by simp [hrest]
  have hrest' : s.cursor.rest = x :: (xs ++ gap) := by
    rw [(h.cursor.inside_of_ne_nil hne).2.2, hrest]
    rfl
  unfold emitScanned
  rw [hrest, hrest']
  rcases scan_trailing hgap x xs with hscan | ⟨raw, hscan⟩
  · obtain ⟨⟨rest, hxs⟩, -, -⟩ := Token.scan_spelled xs hx
    simp only
    rw [hscan]
    refine .next (h.emit hgap hset (Token.isMarker_scan xs hx) hne ?_)
    rw [hrest]
    conv_rhs => rw [hxs]
    simp
  · simp only
    rw [hscan]
    exact .unfinished (unfinished_emit s rfl _)

/-- In front of layout a run of text ends its pattern, and the blanks at its end are lost. -/
theorem readText_closes (limit : Nat) (outer : List PatternItem) (breaks : Nat) (indent : Option Nat) (fs : List Frame)
    (h : AllLayout (s.cursor.rest.dropWhile inRun)) :
    ∃ run : TextRun, run.trimEnd = (TextRun.mk breaks indent s.cursor.offset (s.cursor.rest.takeWhile inRun)).trimEnd ∧
      s.readText limit outer breaks indent fs =
        .next (State.closePattern { s with cursor := s.cursor.skipWhile inRun } run outer fs) := by
  by_cases hbreak : ∃ ys, (s.cursor.skipWhile inRun).rest = '\n' :: ys
  · obtain ⟨ys, hys⟩ := hbreak
    have hnone : Line.nextContent? (s.cursor.skipWhile inRun).rest = none := h.nextContent?
    rw [readText_newline hys, hnone]
    exact ⟨_, TextRun.trimEnd_dropReturn _, rfl⟩
  · rw [readText_otherwise (h.ne_cons (by decide)) (not_exists.1 hbreak)]
    exact ⟨_, rfl, rfl⟩

/-- Runs of text that are trimmed alike end a pattern alike. -/
theorem dedent_run_clip {r r' : TextRun} (h : r'.trimEnd = r.trimEnd) (items : List PatternItem) :
    dedent (.run r'.trimEnd :: items.map (PatternItem.clip n)) =
      (dedent (.run r.trimEnd :: items)).map (Lexeme.clip n) := by
  rw [h, ← dedent_clip]
  rfl

/-- The run of text at the end of a text: with layout behind it, it takes some blanks more. -/
theorem trims_lastRun (hgap : AllLayout gap) (h : s.Trims n gap s') {outer : List PatternItem} {breaks : Nat}
    {indent : Option Nat} (hfs : s.frames = .pattern outer breaks indent :: fs)
    (hrest : s'.cursor.rest.dropWhile inRun = []) :
    AllLayout (s.cursor.rest.dropWhile inRun) ∧
      (s.cursor.skipWhile inRun).Trims n gap (s'.cursor.skipWhile inRun) ∧
      ∀ run run' : TextRun,
        run.trimEnd = (TextRun.mk breaks indent s.cursor.offset (s.cursor.rest.takeWhile inRun)).trimEnd →
        run'.trimEnd = (TextRun.mk breaks indent s'.cursor.offset (s'.cursor.rest.takeWhile inRun)).trimEnd →
        dedent (.run run'.trimEnd :: s'.items) = (dedent (.run run.trimEnd :: s.items)).map (Lexeme.clip n) := by
  have hblank : ∀ {ys : List Char}, AllLayout ys → ∀ x ∈ ys.takeWhile inRun, Line.isBlankChar x = true := by
    intro ys hys x hx
    have hlayout := hys x ((List.takeWhile_prefix _).subset hx)
    have hrun := List.mem_takeWhile_imp hx
    simp only [inRun, Bool.and_eq_true, bne_iff_ne] at hrun
    simpa [isLayout, hrun.2] using hlayout
  obtain ⟨c', items', frames'⟩ := s'
  obtain ⟨c, items, frames⟩ := s
  obtain ⟨hcursor, hitems, -, -, hsettled⟩ := h
  obtain rfl : items' = items.map (PatternItem.clip n) := hitems
  simp only at hcursor hrest hsettled hfs ⊢
  cases hcursor with
  | @inside o xs hxs hn =>
    have hall := List.dropWhile_eq_nil_iff.1 hrest
    have htake : xs.takeWhile inRun = xs := List.takeWhile_eq_self_iff.2 hall
    have hend : n ≤ o + (byteCount xs + byteCount (gap.takeWhile inRun)) := by omega
    rw [Cursor.skipWhile, Cursor.skipWhile]
    simp only
    rw [List.takeWhile_append_of_pos hall, List.dropWhile_append_of_pos hall, htake, hrest, hn, byteCount_append]
    refine ⟨hgap.dropWhile _, .outside (hgap.dropWhile _) hend, ?_⟩
    intro run run' hrun hrun'
    apply dedent_run_clip
    rw [hrun, hrun', TextRun.trimEnd_append (r := ⟨breaks, indent, o, xs ++ gap.takeWhile inRun⟩) rfl (hblank hgap)]
  | @outside o ys hys hn =>
    -- among the layout both runs are empty
    obtain ⟨rfl, rfl⟩ : breaks = 0 ∧ indent = none := hsettled rfl (.pattern outer breaks indent) (by simp [hfs])
    refine ⟨hys.dropWhile _, .outside (hys.dropWhile _) (Nat.le_trans hn (Nat.le_add_right ..)), ?_⟩
    intro run run' hrun hrun'
    have hempty := TextRun.trimEnd_append (r := ⟨0, none, o, ys.takeWhile inRun⟩) (List.nil_append _).symm (hblank hys)
    rw [hrun, hrun', hempty]
    show dedent (.run ⟨0, none, n, []⟩ :: _) = (dedent (.run ⟨0, none, o, []⟩ :: items)).map (Lexeme.clip n)
    rw [dedent_empty_run, dedent_empty_run, dedent_clip]

/-- In a pattern the same text is read; at the end of it the layout behind is trimmed away, and the pattern is closed in
both texts. -/
theorem trims_readText (hgap : AllLayout gap) (h : s.Trims n gap s') {outer : List PatternItem} {breaks : Nat}
    {indent : Option Nat} (hfs : s.frames = .pattern outer breaks indent :: fs) :
    Step.Trims n gap (s.readText limit outer breaks indent fs)
      (s'.readText limit (outer.map (PatternItem.clip n)) breaks indent
        (fs.map (Frame.mapItems (PatternItem.clip n)))) := by
  have hset : AllSettled fs := by
    have houter := h.outer
    rwa [hfs] at houter
  by_cases hrest : s'.cursor.rest.dropWhile inRun = []
  · have hrest' : AllLayout (s'.cursor.rest.dropWhile inRun) := by simp [hrest, AllLayout]
    obtain ⟨hlayout, hcursor, hinner⟩ := trims_lastRun hgap h hfs hrest
    obtain ⟨run, hrun, hread⟩ := readText_closes limit outer breaks indent fs hlayout
    obtain ⟨run', hrun', hread'⟩ := readText_closes limit (outer.map (PatternItem.clip n)) breaks indent
      (fs.map (Frame.mapItems (PatternItem.clip n))) hrest'
    rw [hread, hread']
    exact .next (trims_closePattern { s with cursor := s.cursor.skipWhile inRun }
      { s' with cursor := s'.cursor.skipWhile inRun } hcursor (hinner run run' hrun hrun') hset)
  · -- something in the text alone ends the run, and so both runs are the same
    have hne : s'.cursor.rest ≠ [] := by
      intro hnil
      rw [hnil] at hrest
      exact hrest rfl
    obtain ⟨hsolid, -, hcursor⟩ := h.cursor.inside_of_ne_nil hne
    have htext : s.cursor.rest.takeWhile inRun = s'.cursor.rest.takeWhile inRun := by
      rw [hcursor, List.takeWhile_append, if_neg]
      intro hlength
      have hall := List.takeWhile_eq_self_iff.1 ((List.takeWhile_prefix _).eq_of_length hlength)
      exact hrest (List.dropWhile_eq_nil_iff.2 hall)
    have hskip := h.cursor.skip hgap (List.takeWhile_prefix inRun (l := s'.cursor.rest)).length_le
    rw [Cursor.skip_length_takeWhile, ← htext, Cursor.skip_length_takeWhile] at hskip
    have hoffset : s.cursor.offset = s'.cursor.offset := by rw [hcursor]
    obtain ⟨y, ys, hy'⟩ := List.exists_cons_of_ne_nil hrest
    have hcons' : (s'.cursor.skipWhile inRun).rest = y :: ys := hy'
    obtain ⟨-, -, hafter⟩ := hskip.inside_of_ne_nil hrest
    have hcons : (s.cursor.skipWhile inRun).rest = y :: (ys ++ gap) := by rw [hafter, hcons', List.cons_append]
    -- both close the pattern behind the same run
    have hclosed : ∀ text, Step.Trims n gap
        (.next (State.closePattern { s with cursor := s.cursor.skipWhile inRun }
          ⟨breaks, indent, s'.cursor.offset, text⟩ outer fs))
        (.next (State.closePattern { s' with cursor := s'.cursor.skipWhile inRun }
          ⟨breaks, indent, s'.cursor.offset, text⟩ (outer.map (PatternItem.clip n))
          (fs.map (Frame.mapItems (PatternItem.clip n))))) := by
      intro text
      refine .next (trims_closePattern { s with cursor := s.cursor.skipWhile inRun }
        { s' with cursor := s'.cursor.skipWhile inRun } hskip ?_ hset)
      simp only
      rw [h.items]
      exact dedent_run_clip rfl s.items
    -- both go on with the pattern behind the same run
    have hgoes : ∀ {d d' : Cursor} (text : List Char) (breaks' : Nat) (indent' : Option Nat), d.Trims n gap d' →
        d'.rest ≠ [] → State.Trims n gap
          ⟨d, .run ⟨breaks, indent, s'.cursor.offset, text⟩ :: s.items, .pattern outer breaks' indent' :: fs⟩
          ⟨d', .run ⟨breaks, indent, s'.cursor.offset, text⟩ :: s'.items,
            .pattern (outer.map (PatternItem.clip n)) breaks' indent' ::
              fs.map (Frame.mapItems (PatternItem.clip n))⟩ := by
      intro d d' text breaks' indent' hd hne
      refine ⟨hd, ?_, rfl, hset, fun hnil => absurd hnil hne⟩
      rw [h.items]
      rfl
    by_cases hbrace : y = '{'
    · subst hbrace
      rw [readText_brace hcons, readText_brace hcons', htext, hoffset]
      refine trims_openPlaceable hgap (hgoes _ 0 none hskip hrest) ?_ hrest
      intro f hf
      rcases List.mem_cons.1 hf with rfl | hf
      · exact ⟨rfl, rfl⟩
      · exact hset f hf
    by_cases hbreak : y = '\n'
    · subst hbreak
      rw [readText_newline hcons, readText_newline hcons', htext, hoffset, hskip.nextContent?]
      cases hl : Line.nextContent? (s'.cursor.skipWhile inRun).rest with
      | none => exact hclosed _
      | some l =>
        have hcontinues : (l.extend gap).continuesPattern = l.continuesPattern := rfl
        obtain ⟨hcontent, hne⟩ := hskip.toContent hl
        simp only [Option.map_some, Option.filter_some, hcontinues]
        by_cases hpattern : l.continuesPattern = true
        · rw [if_pos hpattern, if_pos hpattern]
          exact .next (hgoes _ _ _ hcontent hne)
        · rw [if_neg hpattern, if_neg hpattern]
          exact hclosed _
    · have hother : ∀ {x : Char}, y ≠ x → ∀ {zs : List Char}, ∀ xs, y :: zs ≠ x :: xs :=
        fun hne _ _ heq => hne (List.cons.inj heq).1
      rw [readText_otherwise (hcons ▸ hother hbrace) (hcons ▸ hother hbreak),
        readText_otherwise (hcons' ▸ hother hbrace) (hcons' ▸ hother hbreak), htext, hoffset]
      exact hclosed _

section Readers

variable {x : Char} {xs : List Char}

theorem Trims.rest_eq (h : s.Trims n gap s') (hrest : s'.cursor.rest = x :: xs) :
    s.cursor.rest = x :: (xs ++ gap) := by
  rw [(h.cursor.inside_of_ne_nil (by simp [hrest])).2.2, hrest]
  rfl

/-- Reading a token and going on with other constructs. -/
theorem trims_emit_frames (hgap : AllLayout gap) (h : s.Trims n gap s') (hset : AllSettled s.frames)
    (ht : t.isMarker = false) (hne : s'.cursor.rest ≠ []) (hm : m ≤ s'.cursor.rest.length) (hfs : AllSettled fs) :
    Step.Trims n gap (.next { s.emit t m with frames := fs })
      (.next { s'.emit t m with frames := fs.map (Frame.mapItems (PatternItem.clip n)) }) :=
  .next ((h.emit hgap hset ht hne hm).reframe hfs)

theorem allSettled_cons {f : Frame} (hf : f.Settled) (hfs : AllSettled fs) : AllSettled (f :: fs) := by
  intro g hg
  rcases List.mem_cons.1 hg with rfl | hg
  · exact hf
  · exact hfs g hg

theorem trims_readPlaceable (hgap : AllLayout gap) (h : s.Trims n gap s') (hset : AllSettled s.frames)
    (hrest : s'.cursor.rest = x :: xs) (hx : x ≠ '\n') (hfs : AllSettled fs) :
    Step.Trims n gap (s.readPlaceable limit fs)
      (s'.readPlaceable limit (fs.map (Frame.mapItems (PatternItem.clip n)))) := by
  have hrest' := h.rest_eq hrest
  have hne : s'.cursor.rest ≠ [] := by simp [hrest]
  have hlength : 1 ≤ s'.cursor.rest.length := by simp [hrest]
  by_cases hclose : x = '}'
  · subst hclose
    unfold readPlaceable
    rw [hrest, hrest']
    exact trims_emit_frames hgap h hset rfl hne hlength hfs
  by_cases hopen : x = '{'
  · subst hopen
    unfold readPlaceable
    rw [hrest, hrest']
    exact trims_openPlaceable hgap h hset hne
  by_cases hparen : x = '('
  · subst hparen
    unfold readPlaceable
    rw [hrest, hrest']
    exact trims_openArguments hgap h hset hne
  by_cases harrow : x = '-' ∧ ∃ ys, xs = '>' :: ys
  · obtain ⟨rfl, ys, rfl⟩ := harrow
    unfold readPlaceable
    rw [hrest, hrest']
    exact trims_emit_frames hgap h hset rfl hne (by simp [hrest]) (allSettled_cons trivial hfs)
  rw [readPlaceable_otherwise hrest' hclose hopen hparen,
    readPlaceable_otherwise hrest hclose hopen hparen fun hminus ys hys => harrow ⟨hminus, ys, hys⟩]
  · exact trims_emitScanned hgap h hset hrest hx
  · -- a dash at the end of the text makes no arrow with layout
    rintro rfl ys hys
    cases xs with
    | nil => exact hgap.ne_cons (by decide) ys hys
    | cons y zs => exact harrow ⟨rfl, zs, by rw [(List.cons.inj hys).1]⟩

theorem trims_readVariants (hgap : AllLayout gap) (h : s.Trims n gap s') (hset : AllSettled s.frames)
    (hrest : s'.cursor.rest = x :: xs) (hx : x ≠ '\n') (hfs : AllSettled fs) :
    Step.Trims n gap (s.readVariants fs) (s'.readVariants (fs.map (Frame.mapItems (PatternItem.clip n)))) := by
  have hrest' := h.rest_eq hrest
  have hne : s'.cursor.rest ≠ [] := by simp [hrest]
  have hlength : 1 ≤ s'.cursor.rest.length := by simp [hrest]
  by_cases hclose : x = '}'
  · subst hclose
    unfold readVariants
    rw [hrest, hrest']
    exact trims_emit_frames hgap h hset rfl hne hlength hfs
  by_cases hopen : x = '['
  · subst hopen
    unfold readVariants
    rw [hrest, hrest']
    simp only
    rw [h.frames]
    exact trims_emit_frames hgap h hset rfl hne hlength (allSettled_cons (f := .key false) trivial hset)
  rw [readVariants_otherwise hrest' hclose hopen, readVariants_otherwise hrest hclose hopen]
  exact trims_emitScanned hgap h hset hrest hx

theorem trims_readKey (hgap : AllLayout gap) (h : s.Trims n gap s') (hset : AllSettled s.frames)
    (hrest : s'.cursor.rest = x :: xs) (hx : x ≠ '\n') (hfs : AllSettled fs) {read : Bool} :
    Step.Trims n gap (s.readKey read fs) (s'.readKey read (fs.map (Frame.mapItems (PatternItem.clip n)))) := by
  have hrest' := h.rest_eq hrest
  have hne : s'.cursor.rest ≠ [] := by simp [hrest]
  have hlength : 1 ≤ s'.cursor.rest.length := by simp [hrest]
  by_cases hclose : x = ']'
  · subst hclose
    unfold readKey
    rw [hrest, hrest']
    exact .next (((h.emit hgap hset (t := .closeBracket) rfl hne hlength).reframe hfs).beginValue hgap hfs)
  rw [readKey_otherwise hrest' hclose, readKey_otherwise hrest hclose]
  cases read with
  | true => exact .next (h.reframe hfs)
  | false =>
    have hkey : AllSettled (.key true :: fs) := allSettled_cons trivial hfs
    exact trims_emitScanned hgap (h.reframe hkey) hkey hrest hx

theorem trims_readArguments (hgap : AllLayout gap) (h : s.Trims n gap s') (hset : AllSettled s.frames)
    (hrest : s'.cursor.rest = x :: xs) (hx : x ≠ '\n') (hfs : AllSettled fs) {positional atStart : Bool} :
    Step.Trims n gap (s.readArguments limit positional atStart fs)
      (s'.readArguments limit positional atStart (fs.map (Frame.mapItems (PatternItem.clip n)))) := by
  have hrest' := h.rest_eq hrest
  have hne : s'.cursor.rest ≠ [] := by simp [hrest]
  have hlength : 1 ≤ s'.cursor.rest.length := by simp [hrest]
  have hmark : ∀ b : Bool, State.Trims n gap (if b then s.mark .endPositional else s)
      (if b then s'.mark .endPositional else s') := by
    intro b
    cases b
    · exact h
    · exact h.mark rfl
  have harguments : ∀ b b' : Bool, AllSettled (.arguments b b' :: fs) :=
    fun _ _ => allSettled_cons trivial hfs
  by_cases hclose : x = ')'
  · subst hclose
    unfold readArguments
    rw [hrest, hrest']
    exact trims_emit_frames hgap (hmark positional) (by rwa [frames_markIf]) rfl (by rwa [cursor_markIf])
      (by rwa [cursor_markIf]) hfs
  by_cases hopen : x = '{'
  · subst hopen
    unfold readArguments
    rw [hrest, hrest']
    exact trims_openPlaceable hgap (h.reframe (harguments positional false)) (harguments positional false) hne
  by_cases hparen : x = '('
  · subst hparen
    unfold readArguments
    rw [hrest, hrest']
    exact trims_openArguments hgap (h.reframe (harguments positional false)) (harguments positional false) hne
  rw [readArguments_otherwise hrest' hclose hopen hparen, readArguments_otherwise hrest hclose hopen hparen,
    ← List.cons_append, namedArgumentAhead_trailing hgap]
  -- both sides look ahead alike, and from here on it does not matter what they saw
  generalize (positional && atStart && isIdentifierStart x && namedArgumentAhead (x :: xs)) = named
  rw [readArgument, readArgument]
  rcases scan_trailing hgap x xs with hscan | ⟨raw, hscan⟩
  · obtain ⟨⟨rest, hxs⟩, -, -⟩ := Token.scan_spelled xs hx
    have htaken : (Token.scan x xs).2.length + 1 ≤ s'.cursor.rest.length := by
      rw [hrest]
      conv_rhs => rw [hxs]
      simp
    rw [hscan]
    exact trims_emit_frames hgap (hmark named) (by rwa [frames_markIf]) (Token.isMarker_scan xs hx)
      (by rwa [cursor_markIf]) (by rwa [cursor_markIf]) (harguments _ _)
  · refine .unfinished ⟨⟨(Token.scan x (xs ++ gap)).1, _⟩, List.mem_cons_self, ?_⟩
    rw [hscan]
    rfl

/-- Past blanks, both read on at the same place, or neither does. -/
theorem trims_onContent (h : s.Trims n gap s') (hset : AllSettled s.frames) {read read' : State → Step}
    (hread : ∀ (t t' : State) (x : Char) (xs : List Char), t.Trims n gap t' → AllSettled t.frames →
      t'.cursor.rest = x :: xs → x ≠ '\n' → Step.Trims n gap (read t) (read' t')) :
    Step.Trims n gap (s.onContent read) (s'.onContent read') := by
  unfold onContent
  rcases h.cursor.skipBlank? with ⟨hnone, hnone'⟩ | ⟨c, c', hc, hc', hcursor⟩
  · rw [hnone, hnone']
    exact .stop h
  · obtain ⟨-, x, xs, -, -, hrest, hx, -⟩ := Cursor.over_skipBlank hc'
    rw [hc, hc']
    refine hread { s with cursor := c } { s' with cursor := c' } x xs (h.move hset hcursor) hset hrest ?_
    rintro rfl
    simp [isLayout] at hx

end Readers

/-- **A step in both texts.** It is the same in the text with layout behind it and in the text alone, but for the places
of markers in the layout, unless something is read that no entry has. -/
theorem trims_step (limit : Nat) (hgap : AllLayout gap) (h : s.Trims n gap s') :
    Step.Trims n gap (s.step limit) (s'.step limit) := by
  have hframes := h.frames
  have houter := h.outer
  unfold step
  cases hfs : s.frames with
  | nil =>
    rw [hfs] at hframes
    rw [hframes]
    exact trims_betweenAttributes hgap h hfs
  | cons f fs =>
    rw [hfs] at hframes houter
    rw [hframes]
    have hsettled : f.Settled → AllSettled s.frames := by
      intro hf
      rw [hfs]
      exact allSettled_cons hf houter
    cases f with
    | pattern outer breaks indent => exact trims_readText hgap h hfs
    | placeable =>
      exact trims_onContent h (hsettled trivial) fun t t' x xs ht hset hrest hx =>
        trims_readPlaceable hgap ht hset hrest hx houter
    | arguments positional atStart =>
      exact trims_onContent h (hsettled trivial) fun t t' x xs ht hset hrest hx =>
        trims_readArguments hgap ht hset hrest hx houter
    | variants =>
      exact trims_onContent h (hsettled trivial) fun t t' x xs ht hset hrest hx =>
        trims_readVariants hgap ht hset hrest hx houter
    | key read =>
      exact trims_onContent h (hsettled trivial) fun t t' x xs ht hset hrest hx =>
        trims_readKey hgap ht hset hrest hx houter

/-- **A run in both texts** ends alike, unless what no entry has was read: a line that is left over, or a string that is
not closed. -/
theorem trims_run (limit : Nat) (hgap : AllLayout gap) (h : s.Trims n gap s') :
    ((s'.run limit).1 = (s.run limit).1 ∧ (s.run limit).2.Trims n gap (s'.run limit).2) ∨
      (s.run limit).2.Unfinished := by
  fun_induction run limit s generalizing s' with
  | case1 s t hstep ih =>
    have htrims := trims_step limit hgap h
    rw [hstep] at htrims
    generalize hx : s'.step limit = x' at htrims
    cases htrims with
    | next ht =>
      rename_i t'
      have hrun : s'.run limit = t'.run limit := by
        rw [run, hx]
      rw [hrun]
      exact ih ht
    | unfinished hunfinished => exact .inr (hunfinished.onward (onward_run limit t))
  | case2 s e t hstep =>
    have htrims := trims_step limit hgap h
    rw [hstep] at htrims
    generalize hx : s'.step limit = x' at htrims
    cases htrims with
    | stop ht =>
      rename_i t'
      have hrun : s'.run limit = (e, t') := by
        rw [run, hx]
      rw [hrun]
      exact .inl ⟨rfl, ht⟩
    | unfinished hunfinished => exact .inr hunfinished

end State

end Fluent
