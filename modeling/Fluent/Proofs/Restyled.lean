import Fluent.Proofs.Matched
import Fluent.Proofs.Nesting

/-!
# Machines on lines in another style

A machine that reads an entry in another style of lines does what the machine on the text itself does: it reads the
same tokens, at other offsets, and the indentations of its lines are larger by the same number of spaces, which
dedenting takes away. Only a string that is not closed may take a carriage return, and no entry has one.

* `PatternItem.Restyled`, `Frame.Restyled`, `State.Restyled`: states on the text and on the text in another style.
* `State.restyled_step`, `State.restyled_run`: a step and a run in both styles.
* `State.Restyled.lexemes`: the tokens are the same.
* `State.restyled_run_ofHeader`: an entry in both styles.
-/

namespace Fluent

variable {y : LineStyle} {source : List Char} {x : Char} {xs : List Char}

/-! ## Items -/

/-- The same part of a pattern: a token elsewhere, or a run of text with more spaces in front of it if it begins a
line. -/
inductive PatternItem.Restyled (y : LineStyle) (source : List Char) : PatternItem → PatternItem → Prop
  | run {r r' : TextRun} : r'.breaks = r.breaks → r'.text = r.text → r'.indent = r.indent.map (· + y.spaces) →
      Restyled y source (.run r) (.run r')
  | lexeme {l l' : Lexeme} : l.Retold (y.matching source) l' → Restyled y source (.lexeme l) (.lexeme l')

/-- The same open construct. A pattern holds the same items, and the indentation that it has noted for the next of them
differs by the spaces of the style. -/
inductive Frame.Restyled (y : LineStyle) (source : List Char) : Frame → Frame → Prop
  | pattern {outer outer' : List PatternItem} {breaks : Nat} {indent : Option Nat} :
      List.Forall₂ (PatternItem.Restyled y source) outer outer' →
      Restyled y source (.pattern outer breaks indent) (.pattern outer' breaks (indent.map (· + y.spaces)))
  | placeable : Restyled y source .placeable .placeable
  | arguments (positional atStart : Bool) :
      Restyled y source (.arguments positional atStart) (.arguments positional atStart)
  | variants : Restyled y source .variants .variants
  | key (read : Bool) : Restyled y source (.key read) (.key read)

/-- The same state on the text in another style. Tokens differ in their places only, and runs of text also in their
indentations, all by the same number of spaces. -/
structure State.Restyled (y : LineStyle) (source : List Char) (s s' : State) : Prop where
  cursor : s.cursor.Restyled y source s'.cursor
  items : List.Forall₂ (PatternItem.Restyled y source) s.items s'.items
  frames : List.Forall₂ (Frame.Restyled y source) s.frames s'.frames

/-- The outcomes of a step in both styles; or a string was read that is not closed, which no entry has. -/
inductive Step.Restyled (y : LineStyle) (source : List Char) : Step → Step → Prop
  | next {s s' : State} : s.Restyled y source s' → Restyled y source (.next s) (.next s')
  | stop {s s' : State} {e e' : Ending} : s.Restyled y source s' → Restyled y source (.stop e s) (.stop e' s')
  | unfinished {x x' : Step} : y.returns = true → x.state.Unfinished → x'.state.Unfinished → Restyled y source x x'

/-- What the indentations of some lines have in common grows with them. -/
theorem commonIndent_map_add (k : Nat) {ns : List Nat} (h : ns ≠ []) :
    commonIndent (ns.map (· + k)) = commonIndent ns + k := by
  obtain ⟨n, ns, rfl⟩ := List.exists_cons_of_ne_nil h
  show (ns.map (· + k)).foldl min (n + k) = ns.foldl min n + k
  clear h
  induction ns generalizing n with
  | nil => rfl
  | cons m ns ih =>
    rw [List.map_cons, List.foldl_cons, List.foldl_cons, ← ih]
    congr 1
    omega

theorem PatternItem.Restyled.indent? {i i' : PatternItem} (h : i.Restyled y source i') :
    i'.indent? = i.indent?.map (· + y.spaces) := by
  cases h with
  | run hbreaks htext hindent => exact hindent
  | lexeme hl => rfl

theorem TextRun.value_restyled {r r' : TextRun} {common common' : Nat} (hbreaks : r'.breaks = r.breaks)
    (htext : r'.text = r.text) (hindent : r'.indent = r.indent.map (· + y.spaces))
    (hcommon : r.indent ≠ none → common' = common + y.spaces) : r'.value common' = r.value common := by
  have hspaces : r'.indent.getD common' - common' = r.indent.getD common - common := by
    rw [hindent]
    cases hr : r.indent with
    | none => simp
    | some n =>
      rw [hcommon (by simp [hr]), Option.map_some, Option.getD_some, Option.getD_some]
      omega
  rw [TextRun.value, TextRun.value, hbreaks, htext, hspaces]

theorem forall₂_settle {items items' : List PatternItem} {common common' : Nat}
    (h : List.Forall₂ (PatternItem.Restyled y source) items items')
    (hcommon : ∀ i ∈ items, i.indent? ≠ none → common' = common + y.spaces) :
    List.Forall₂ (Lexeme.Retold (y.matching source)) (items.filterMap (PatternItem.settle? common))
      (items'.filterMap (PatternItem.settle? common')) := by
  induction h with
  | nil => exact .nil
  | @cons i i' items items' hi _ ih =>
    have ih := ih fun i hi => hcommon i (List.mem_cons_of_mem _ hi)
    cases hi with
    | lexeme hl => exact .cons hl ih
    | @run r r' hbreaks htext hindent =>
      have hvalue := TextRun.value_restyled hbreaks htext hindent (hcommon _ List.mem_cons_self)
      rw [List.filterMap_cons, List.filterMap_cons]
      simp only [PatternItem.settle?, hvalue]
      cases r.value common with
      | nil => exact ih
      | cons z zs => exact .cons ⟨rfl, by rintro ⟨⟩, by rintro ⟨⟩, by rintro ⟨⟩⟩ ih

/-- **Dedenting** takes away what the indentations have in common, so it makes the same tokens in both styles. -/
theorem dedent_restyled {items items' : List PatternItem}
    (h : List.Forall₂ (PatternItem.Restyled y source) items items') :
    List.Forall₂ (Lexeme.Retold (y.matching source)) (dedent items) (dedent items') := by
  have hindents : items'.filterMap PatternItem.indent? = (items.filterMap PatternItem.indent?).map (· + y.spaces) := by
    induction h with
    | nil => rfl
    | @cons i i' items items' hi _ ih =>
      rw [List.filterMap_cons, List.filterMap_cons, hi.indent?, ih]
      cases i.indent? <;> rfl
  refine forall₂_settle h ?_
  intro i hi hsome
  obtain ⟨n, hn⟩ := Option.ne_none_iff_exists'.1 hsome
  rw [hindents, commonIndent_map_add]
  exact List.ne_nil_of_mem (List.mem_filterMap.2 ⟨i, hi, hn⟩)

theorem forall₂_map_lexeme {ls ls' : List Lexeme} (h : List.Forall₂ (Lexeme.Retold (y.matching source)) ls ls') :
    List.Forall₂ (PatternItem.Restyled y source) (ls.map .lexeme) (ls'.map .lexeme) := by
  induction h with
  | nil => exact .nil
  | cons hl _ ih => exact .cons (.lexeme hl) ih

namespace State

variable {s s' : State} {t : Token} {n limit : Nat} {fs fs' : List Frame}

theorem unwind_restyled {items items' : List PatternItem} (hfs : List.Forall₂ (Frame.Restyled y source) fs fs')
    (h : List.Forall₂ (PatternItem.Restyled y source) items items') :
    List.Forall₂ (Lexeme.Retold (y.matching source)) (unwind fs items) (unwind fs' items') := by
  induction hfs generalizing items items' with
  | nil => exact dedent_restyled h
  | cons hf _ ih =>
    cases hf with
    | pattern houter => exact ih (List.rel_append (forall₂_map_lexeme (dedent_restyled h)) houter)
    | placeable => exact ih h
    | arguments => exact ih h
    | variants => exact ih h
    | key => exact ih h

namespace Restyled

/-- **The tokens** of both states are the same. -/
theorem lexemes (h : s.Restyled y source s') :
    List.Forall₂ (Lexeme.Retold (y.matching source)) s.lexemes s'.lexemes :=
  List.rel_reverse (unwind_restyled h.frames h.items)

theorem depth (h : s.Restyled y source s') : s'.depth = s.depth := by
  have hframes := h.frames
  unfold State.depth
  generalize s.frames = fs at hframes
  generalize s'.frames = fs' at hframes
  induction hframes with
  | nil => rfl
  | cons hf _ ih =>
    rw [List.countP_cons, List.countP_cons, ih]
    cases hf <;> rfl

/-! ## Single moves -/

theorem move (h : s.Restyled y source s') {c c' : Cursor} (hc : c.Restyled y source c') :
    Restyled y source { s with cursor := c } { s' with cursor := c' } := ⟨hc, h.items, h.frames⟩

theorem reframe (h : s.Restyled y source s') (hfs : List.Forall₂ (Frame.Restyled y source) fs fs') :
    Restyled y source { s with frames := fs } { s' with frames := fs' } := ⟨h.cursor, h.items, hfs⟩

/-- A token whose place the grammar does not look at. -/
theorem put (h : s.Restyled y source s') (ht : t.touches = false) {c c' : Cursor} (hc : c.Restyled y source c')
    (span span' : Span) :
    Restyled y source ⟨c, .lexeme ⟨t, span⟩ :: s.items, s.frames⟩ ⟨c', .lexeme ⟨t, span'⟩ :: s'.items, s'.frames⟩ := by
  have hsign : t.isSign = false := by
    cases t <;> first | rfl | simp [Token.touches] at ht
  refine ⟨hc, .cons (.lexeme ⟨rfl, ?_, ?_, ?_⟩) h.items, h.frames⟩
  · simp [ht]
  · simp [ht]
  · simp [hsign]

theorem mark (h : s.Restyled y source s') (ht : t.touches = false) : (s.mark t).Restyled y source (s'.mark t) :=
  h.put ht h.cursor _ _

/-- A token within a line, which begins and ends at matching places. -/
theorem emit (h : s.Restyled y source s') (hcursor : s.cursor.Matches y source s'.cursor)
    (hn : '\n' ∉ s.cursor.rest.take n) (hsign : t.isSign = true → byteCount (s.cursor.rest.take n) = 1) :
    (s.emit t n).Restyled y source (s'.emit t n) ∧ (s.emit t n).cursor.Matches y source (s'.emit t n).cursor := by
  have hskip := hcursor.skip hn
  have htake : s'.cursor.rest.take n = s.cursor.rest.take n := by
    rw [hcursor.rest, LineStyle.take_inner hn]
  refine ⟨⟨hskip.restyled, .cons (.lexeme ⟨rfl, fun _ => hcursor.pairs, fun _ => hskip.pairs, ?_⟩) h.items, h.frames⟩,
    hskip⟩
  intro ht
  show s.cursor.offset + byteCount (s.cursor.rest.take n) = s.cursor.offset + 1 ∧
    s'.cursor.offset + byteCount (s'.cursor.rest.take n) = s'.cursor.offset + 1
  rw [htake, hsign ht]
  exact ⟨rfl, rfl⟩

theorem toLineEnd (h : s.Restyled y source s') : s.toLineEnd.Restyled y source s'.toLineEnd := h.move h.cursor.lineEnd.1

theorem emitUnfinished (h : s.Restyled y source s') : s.emitUnfinished.Restyled y source s'.emitUnfinished := by
  have hend (c : Cursor) : c.skip (Line.head c.rest).length = c.lineEnd := Cursor.skip_length_takeWhile _ c
  have hput := h.put (t := .unfinishedLine) rfl h.cursor.lineEnd.1
    ⟨s.cursor.offset, s.cursor.lineEnd.offset⟩ ⟨s'.cursor.offset, s'.cursor.lineEnd.offset⟩
  rw [← hend, ← hend] at hput
  exact hput

/-- Both stand at the end of the line. -/
theorem finishLine (h : s.Restyled y source s') :
    s.finishLine.Restyled y source s'.finishLine ∧
      s'.finishLine.cursor.rest = y.settled s.finishLine.cursor.rest := by
  have hend (c : Cursor) : c.skip (Line.head c.rest).length = c.lineEnd := Cursor.skip_length_takeWhile _ c
  unfold State.finishLine
  rw [h.cursor.near.isBlank]
  split
  · exact ⟨h.toLineEnd, h.cursor.lineEnd.2⟩
  · refine ⟨h.emitUnfinished, ?_⟩
    show (s'.cursor.skip _).rest = y.settled (s.cursor.skip _).rest
    rw [hend, hend]
    exact h.cursor.lineEnd.2

theorem emitAssignment (h : s.Restyled y source s') (hcursor : s.cursor.Matches y source s'.cursor)
    {a : Line.Assignment} (ha : Line.assignment? s.cursor.rest = some a) :
    (s.emitAssignment a).Restyled y source (s'.emitAssignment (y.restyle a)) := by
  obtain ⟨hname, hspaces, hequals⟩ := notMem_assignment (t := .identifier (String.ofList a.name)) ha
  obtain ⟨h₁, hcursor₁⟩ := h.emit (t := .identifier (String.ofList a.name)) hcursor hname (by rintro ⟨⟩)
  have hskip := hcursor₁.skip hspaces
  exact ((h₁.move hskip.restyled).emit (t := .equals) hskip hequals (by rintro ⟨⟩)).1

theorem openPattern (h : s.Restyled y source s') (indent : Option Nat) :
    (s.openPattern indent).Restyled y source (s'.openPattern (indent.map (· + y.spaces))) :=
  ⟨h.cursor, .nil, .cons (.pattern (h.mark (t := .patternStart) rfl).items) h.frames⟩

theorem beginValue (h : s.Restyled y source s') : s.beginValue.Restyled y source s'.beginValue := by
  have hspaces := h.move (h.cursor.skipWhile (p := (· == ' ')) rfl)
  unfold State.beginValue
  generalize s.cursor.skipWhile (· == ' ') = c at hspaces
  generalize s'.cursor.skipWhile (· == ' ') = c' at hspaces
  have hskipped := (hspaces.mark (t := .patternSkip) rfl).toLineEnd
  obtain ⟨hend, hsettled⟩ := hspaces.cursor.lineEnd
  have hnext := LineStyle.nextContent?_settled (y := y) c.lineEnd.rest
  simp only at hend hsettled hnext ⊢
  rw [← hsettled] at hnext
  rw [hspaces.cursor.near.isBlank]
  split
  · rcases hnext with ⟨hnone, hnone'⟩ | ⟨l, l', hl, hl', hrestyled⟩
    · rw [hnone, hnone']
      exact hskipped
    · rw [hl, hl']
      simp only [hrestyled.continuesPattern]
      split
      · rename_i hcontinues
        rw [hrestyled.indent_of_continuesPattern hcontinues]
        exact (hspaces.move (hend.toContent hl hl' hrestyled).restyled).openPattern (some l.indent)
      · exact hskipped
  · exact hspaces.openPattern none

end Restyled

/-- Both begin behind the same header. -/
theorem restyled_ofHeader {c c' : Cursor} {isTerm : Bool} {a : Line.Assignment} (h : c.Matches y source c')
    (ha : Line.entryHeader? c.rest = some (isTerm, a)) :
    (ofHeader c isTerm a).Restyled y source (ofHeader c' isTerm (y.restyle a)) := by
  have hstart : Restyled y source ⟨c, [], []⟩ ⟨c', [], []⟩ := ⟨h.restyled, .nil, .nil⟩
  obtain ⟨rfl, rest, hrest, hassign⟩ | ⟨rfl, hassign⟩ := Line.entryHeader?_eq_some ha
  · have hdash : c.rest.take 1 = ['-'] := by rw [hrest]; rfl
    obtain ⟨hminus, hcursor⟩ := hstart.emit (t := .minus) (n := 1) h (by simp [hdash]) (fun _ => by rw [hdash]; rfl)
    refine (hminus.emitAssignment hcursor ?_).beginValue
    show Line.assignment? (c.rest.drop 1) = some a
    rwa [hrest]
  · exact (hstart.emitAssignment h hassign).beginValue

/-! ## Steps -/

/-- Between attributes the next line with content is the same in both styles, and so is whether it is indented and
begins with a dot. -/
theorem restyled_betweenAttributes (h : s.Restyled y source s') :
    Step.Restyled y source s.betweenAttributes s'.betweenAttributes := by
  obtain ⟨hline, hsettled⟩ := h.finishLine
  unfold betweenAttributes
  generalize s.finishLine = u at hline hsettled
  generalize s'.finishLine = u' at hline hsettled
  have hnext := LineStyle.nextContent?_settled (y := y) u.cursor.rest
  rw [← hsettled] at hnext
  simp only
  rcases hnext with ⟨hnone, hnone'⟩ | ⟨l, l', hl, hl', hrestyled⟩
  · rw [hnone, hnone']
    exact .stop hline
  · rw [hl, hl']
    simp only [hrestyled.opensAttribute]
    split
    · have hmatches := hline.cursor.toContent hl hl' hrestyled
      have hcontent := hline.move hmatches.restyled
      have hheader := LineStyle.attributeHeader?_inner (y := y) (u.cursor.toContent l).rest
      rw [← hmatches.rest] at hheader
      rw [hheader]
      cases ha : Line.attributeHeader? (u.cursor.toContent l).rest with
      | none => exact .next hcontent.emitUnfinished
      | some a =>
        obtain ⟨hdot, hassign⟩ := Line.attributeHeader?_eq_some ha
        have hbreak : '\n' ∉ (u.cursor.toContent l).rest.take 1 := by
          rw [hdot]
          simp
        obtain ⟨hemit, hcursor⟩ := hcontent.emit (t := .dot) hmatches hbreak (by rintro ⟨⟩)
        have hname : Line.assignment? (State.emit { u with cursor := u.cursor.toContent l } .dot 1).cursor.rest =
            some a := by
          show Line.assignment? ((u.cursor.toContent l).rest.drop 1) = some a
          rw [List.drop_one]
          exact hassign
        exact .next (hemit.emitAssignment hcursor hname).beginValue
    · exact .stop hline

section Readers

/-- A construct that counts towards the limit is opened, or the line has no place in the entry. -/
theorem restyled_open (h : s.Restyled y source s') (hrest : s.cursor.rest = x :: xs) (hx : x ≠ '\n')
    (ht : t.isSign = false) {f : Frame} (hf : f.Restyled y source f) (e e' : Ending) :
    Step.Restyled y source
      (if s.depth < limit then .next { s.emit t 1 with frames := f :: s.frames } else .stop e s.emitUnfinished)
      (if s'.depth < limit then .next { s'.emit t 1 with frames := f :: s'.frames }
        else .stop e' s'.emitUnfinished) := by
  have hbreak : '\n' ∉ s.cursor.rest.take 1 := by
    rw [hrest]
    simpa using Ne.symm hx
  rw [h.depth]
  split
  · have hsign : t.isSign = true → byteCount (s.cursor.rest.take 1) = 1 := by simp [ht]
    have hemit := (h.emit (h.cursor.matches_of_cons hrest hx).1 hbreak hsign).1
    exact .next (hemit.reframe (.cons hf h.frames))
  · exact .stop h.emitUnfinished

/-- Whether a placeable may be opened depends on the frames alone, of which there are as many in both styles. -/
theorem restyled_openPlaceable (h : s.Restyled y source s') (hrest : s.cursor.rest = x :: xs) (hx : x ≠ '\n') :
    Step.Restyled y source (s.openPlaceable limit) (s'.openPlaceable limit) :=
  restyled_open (t := .openBrace) (f := .placeable) h hrest hx rfl .placeable _ _

theorem restyled_openArguments (h : s.Restyled y source s') (hrest : s.cursor.rest = x :: xs) (hx : x ≠ '\n') :
    Step.Restyled y source (s.openArguments limit) (s'.openArguments limit) :=
  restyled_open (t := .openParen) (f := .arguments true true) h hrest hx rfl (.arguments true true) _ _

/-- Where a pattern ends the common indentation is taken away from its lines. It has grown by the spaces of the style,
and so have all the indentations. -/
theorem restyled_closePattern (s s' : State) {run run' : TextRun} {outer outer' : List PatternItem}
    (hcursor : s.cursor.Restyled y source s'.cursor)
    (hitems : List.Forall₂ (PatternItem.Restyled y source) s.items s'.items)
    (hrun : PatternItem.Restyled y source (.run run.trimEnd) (.run run'.trimEnd))
    (houter : List.Forall₂ (PatternItem.Restyled y source) outer outer')
    (hfs : List.Forall₂ (Frame.Restyled y source) fs fs') :
    (s.closePattern run outer fs).Restyled y source (s'.closePattern run' outer' fs') := by
  have hinner := forall₂_map_lexeme (dedent_restyled (.cons hrun hitems))
  exact Restyled.mark ⟨hcursor, List.rel_append hinner houter, hfs⟩ rfl

section Text

variable {outer outer' : List PatternItem} {breaks : Nat} {indent : Option Nat}

/-- Only in front of a line feed the run takes a carriage return more, and there it is dropped. -/
theorem takeWhile_inRun (hfits : y.Fits source) {c c' : Cursor} (h : c.Restyled y source c') :
    Line.dropReturn (c'.rest.takeWhile inRun) = Line.dropReturn (c.rest.takeWhile inRun) ∧
      ((∀ xs, (c.skipWhile inRun).rest ≠ '\n' :: xs) → c'.rest.takeWhile inRun = c.rest.takeWhile inRun) := by
  rcases h.near.takeWhile_return (p := inRun) rfl rfl with htext | ⟨hy, htext, t, hbreak⟩
  · rw [htext]
    exact ⟨rfl, fun _ => rfl⟩
  · refine ⟨?_, fun hnone => absurd hbreak (hnone t)⟩
    have hreturn : '\r' ∉ c.rest.takeWhile inRun := fun hr =>
      hfits hy (h.inside.suffix.mem ((List.takeWhile_prefix _).mem hr))
    rw [htext, LineStyle.dropReturn_append, LineStyle.dropReturn_of_notMem hreturn]

/-- In a pattern the same text is read and the same line breaks are crossed; only at the end of a line may the run have
taken in a carriage return, which is trimmed away there. -/
theorem restyled_readText (hfits : y.Fits source) (h : s.Restyled y source s')
    (houter : List.Forall₂ (PatternItem.Restyled y source) outer outer')
    (hfs : List.Forall₂ (Frame.Restyled y source) fs fs') :
    Step.Restyled y source (s.readText limit outer breaks indent fs)
      (s'.readText limit outer' breaks (indent.map (· + y.spaces)) fs') := by
  have hafter := h.cursor.skipWhile (p := inRun) rfl
  have hsettled : (s'.cursor.skipWhile inRun).rest = y.settled (s.cursor.skipWhile inRun).rest :=
    h.cursor.near.dropWhile_return rfl rfl
  obtain ⟨hdropped, hsame⟩ := takeWhile_inRun hfits h.cursor
  have hrun {text text' : List Char} (ht : text' = text) : PatternItem.Restyled y source
      (.run ⟨breaks, indent, s.cursor.offset, text⟩)
      (.run ⟨breaks, indent.map (· + y.spaces), s'.cursor.offset, text'⟩) := .run rfl ht rfl
  have hclosed {text text' : List Char} (ht : text' = text) : Step.Restyled y source
      (.next (State.closePattern { s with cursor := s.cursor.skipWhile inRun }
        ⟨breaks, indent, s.cursor.offset, text⟩ outer fs))
      (.next (State.closePattern { s' with cursor := s'.cursor.skipWhile inRun }
        ⟨breaks, indent.map (· + y.spaces), s'.cursor.offset, text'⟩ outer' fs')) := by
    refine .next (restyled_closePattern _ _ hafter h.items ?_ houter hfs)
    subst ht
    exact .run rfl rfl rfl
  -- only in front of a line feed may the runs differ in a carriage return
  cases hrest : (s.cursor.skipWhile inRun).rest with
  | nil =>
    have hrest' : (s'.cursor.skipWhile inRun).rest = [] := by rw [hsettled, hrest]; rfl
    rw [readText_otherwise (by simp [hrest]) (by simp [hrest]),
      readText_otherwise (by simp [hrest']) (by simp [hrest'])]
    exact hclosed (hsame (by simp [hrest]))
  | cons x xs =>
    by_cases hbreak : x = '\n'
    · subst hbreak
      have hrest' : (s'.cursor.skipWhile inRun).rest = '\n' :: y.line xs := by rw [hsettled, hrest]; rfl
      rw [readText_newline hrest, readText_newline hrest', hsettled]
      rcases LineStyle.nextContent?_settled (y := y) (s.cursor.skipWhile inRun).rest with
        ⟨hnone, hnone'⟩ | ⟨l, l', hl, hl', hrestyled⟩
      · rw [hnone, hnone']
        exact hclosed hdropped
      · rw [hl, hl', Option.filter_some, Option.filter_some, hrestyled.continuesPattern]
        by_cases hcontinues : l.continuesPattern = true
        · have hcontent := (hafter.toContent hl (by rw [hsettled, hl']) hrestyled).restyled
          rw [if_pos hcontinues, if_pos hcontinues]
          simp only [hrestyled.breaks, hrestyled.indent_of_continuesPattern hcontinues]
          exact .next ⟨hcontent, .cons (hrun hdropped) h.items, .cons (.pattern houter) hfs⟩
        · rw [if_neg hcontinues, if_neg hcontinues]
          exact hclosed hdropped
    · obtain ⟨-, hrest'⟩ := hafter.matches_of_cons hrest hbreak
      have hsame := hsame fun t ht => hbreak (List.cons.inj (hrest.symm.trans ht)).1
      by_cases hbrace : x = '{'
      · subst hbrace
        rw [readText_brace hrest, readText_brace hrest']
        exact restyled_openPlaceable ⟨hafter, .cons (hrun hsame) h.items, .cons (.pattern houter) hfs⟩ hrest hbreak
      · rw [readText_otherwise (by simp [hrest, hbrace]) (by simp [hrest, hbreak]),
          readText_otherwise (by simp [hrest', hbrace]) (by simp [hrest', hbreak])]
        exact hclosed hsame

end Text

/-- The signs are tokens of one character. -/
theorem byteCount_of_isSign (hx : x ≠ '\n') (h : (Token.scan x xs).1.isSign = true) :
    byteCount ((x :: xs).take ((Token.scan x xs).2.length + 1)) = 1 := by
  obtain ⟨⟨rest, hrest⟩, hspelled, -⟩ := Token.scan_spelled xs hx
  generalize Token.scan x xs = r at h hrest hspelled
  obtain ⟨t, more⟩ := r
  obtain rfl : xs = more ++ rest := hrest
  rw [List.take_succ_cons, List.take_left]
  cases t <;> first | (obtain ⟨rfl, rfl⟩ := List.cons.inj hspelled; rfl) | simp [Token.isSign] at h

theorem restyled_emitScanned (h : s.Restyled y source s') (hrest : s.cursor.rest = x :: xs) (hx : x ≠ '\n') :
    Step.Restyled y source s.emitScanned s'.emitScanned := by
  obtain ⟨hmatches, hrest'⟩ := h.cursor.matches_of_cons hrest hx
  unfold emitScanned
  rw [hrest, hrest']
  simp only
  rcases LineStyle.scan_inner (y := y) hx xs with hscan | ⟨hy, hunfinished, hunfinished'⟩
  · rw [hscan]
    refine .next (h.emit hmatches ?_ ?_).1
    · rw [hrest]
      exact notMem_take_scan xs hx
    · rw [hrest]
      exact byteCount_of_isSign hx
  · exact .unfinished hy (unfinished_emit s hunfinished _) (unfinished_emit s' hunfinished' _)

/-- Reading a token of one character and going on with other constructs. -/
theorem restyled_emit_frames (h : s.Restyled y source s') (hrest : s.cursor.rest = x :: xs)
    (hn : '\n' ∉ (x :: xs).take n) (hx : x ≠ '\n') (ht : t.isSign = false)
    (hfs : List.Forall₂ (Frame.Restyled y source) fs fs') :
    Restyled y source { s.emit t n with frames := fs } { s'.emit t n with frames := fs' } := by
  have hsign : t.isSign = true → byteCount (s.cursor.rest.take n) = 1 := by simp [ht]
  rw [← hrest] at hn
  exact (h.emit (h.cursor.matches_of_cons hrest hx).1 hn hsign).1.reframe hfs

theorem restyled_readPlaceable (h : s.Restyled y source s') (hrest : s.cursor.rest = x :: xs) (hx : x ≠ '\n')
    (hfs : List.Forall₂ (Frame.Restyled y source) fs fs') :
    Step.Restyled y source (s.readPlaceable limit fs) (s'.readPlaceable limit fs') := by
  obtain ⟨-, hrest'⟩ := h.cursor.matches_of_cons hrest hx
  by_cases hclose : x = '}'
  · subst hclose
    unfold readPlaceable
    rw [hrest, hrest']
    exact .next (restyled_emit_frames h hrest (by simp) hx rfl hfs)
  by_cases hopen : x = '{'
  · subst hopen
    unfold readPlaceable
    rw [hrest, hrest']
    exact restyled_openPlaceable h hrest hx
  by_cases hparen : x = '('
  · subst hparen
    unfold readPlaceable
    rw [hrest, hrest']
    exact restyled_openArguments h hrest hx
  by_cases harrow : x = '-' ∧ ∃ ys, xs = '>' :: ys
  · obtain ⟨rfl, ys, rfl⟩ := harrow
    rw [LineStyle.inner_cons (by decide)] at hrest'
    unfold readPlaceable
    rw [hrest, hrest']
    exact .next (restyled_emit_frames h hrest (by simp) hx rfl (.cons .variants hfs))
  rw [readPlaceable_otherwise hrest hclose hopen hparen fun hminus ys hys => harrow ⟨hminus, ys, hys⟩,
    readPlaceable_otherwise hrest' hclose hopen hparen]
  · exact restyled_emitScanned h hrest hx
  · -- what follows the dash is no angle bracket in the other style either
    rintro rfl ys hys
    cases xs with
    | nil => cases hys
    | cons z zs =>
      by_cases hz : z = '\n'
      · subst hz
        rw [LineStyle.inner_newline] at hys
        rcases y.ending_eq with ⟨-, he⟩ | ⟨-, he⟩ <;> rw [he] at hys <;> cases hys
      · rw [LineStyle.inner_cons hz] at hys
        exact harrow ⟨rfl, zs, by rw [(List.cons.inj hys).1]⟩

theorem restyled_readVariants (h : s.Restyled y source s') (hrest : s.cursor.rest = x :: xs) (hx : x ≠ '\n')
    (hfs : List.Forall₂ (Frame.Restyled y source) fs fs') :
    Step.Restyled y source (s.readVariants fs) (s'.readVariants fs') := by
  obtain ⟨-, hrest'⟩ := h.cursor.matches_of_cons hrest hx
  by_cases hclose : x = '}'
  · subst hclose
    unfold readVariants
    rw [hrest, hrest']
    exact .next (restyled_emit_frames h hrest (by simp) hx rfl hfs)
  by_cases hopen : x = '['
  · subst hopen
    unfold readVariants
    rw [hrest, hrest']
    exact .next (restyled_emit_frames h hrest (by simp) hx rfl (.cons (.key false) h.frames))
  rw [readVariants_otherwise hrest hclose hopen, readVariants_otherwise hrest' hclose hopen]
  exact restyled_emitScanned h hrest hx

theorem restyled_readKey (h : s.Restyled y source s') (hrest : s.cursor.rest = x :: xs) (hx : x ≠ '\n')
    (hfs : List.Forall₂ (Frame.Restyled y source) fs fs') {read : Bool} :
    Step.Restyled y source (s.readKey read fs) (s'.readKey read fs') := by
  obtain ⟨-, hrest'⟩ := h.cursor.matches_of_cons hrest hx
  by_cases hclose : x = ']'
  · subst hclose
    unfold readKey
    rw [hrest, hrest']
    exact .next (restyled_emit_frames (t := .closeBracket) (n := 1) h hrest (by simp) hx rfl hfs).beginValue
  rw [readKey_otherwise hrest hclose, readKey_otherwise hrest' hclose]
  cases read with
  | true => exact .next (h.reframe hfs)
  | false => exact restyled_emitScanned (h.reframe (.cons (.key true) hfs)) hrest hx

theorem restyled_readArguments (h : s.Restyled y source s') (hrest : s.cursor.rest = x :: xs) (hx : x ≠ '\n')
    (hfs : List.Forall₂ (Frame.Restyled y source) fs fs') {positional atStart : Bool} :
    Step.Restyled y source (s.readArguments limit positional atStart fs)
      (s'.readArguments limit positional atStart fs') := by
  obtain ⟨-, hrest'⟩ := h.cursor.matches_of_cons hrest hx
  have hmark : ∀ b : Bool, State.Restyled y source (if b then s.mark .endPositional else s)
      (if b then s'.mark .endPositional else s') := by
    intro b
    cases b
    · exact h
    · exact h.mark rfl
  have hmarked : ∀ b : Bool, (if b then s.mark .endPositional else s).cursor.rest = x :: xs := by
    intro b
    rw [cursor_markIf, hrest]
  by_cases hclose : x = ')'
  · subst hclose
    unfold readArguments
    rw [hrest, hrest']
    exact .next (restyled_emit_frames (hmark positional) (hmarked positional) (by simp) hx rfl hfs)
  by_cases hopen : x = '{'
  · subst hopen
    unfold readArguments
    rw [hrest, hrest']
    exact restyled_openPlaceable (h.reframe (.cons (.arguments positional false) hfs)) hrest hx
  by_cases hparen : x = '('
  · subst hparen
    unfold readArguments
    rw [hrest, hrest']
    exact restyled_openArguments (h.reframe (.cons (.arguments positional false) hfs)) hrest hx
  rw [readArguments_otherwise hrest hclose hopen hparen, readArguments_otherwise hrest' hclose hopen hparen,
    ← LineStyle.inner_cons hx, LineStyle.namedArgumentAhead_inner]
  generalize (positional && atStart && isIdentifierStart x && namedArgumentAhead (x :: xs)) = named
  rcases LineStyle.scan_inner (y := y) hx xs with hscan | ⟨hy, hunfinished, hunfinished'⟩
  · rw [readArgument, readArgument, hscan]
    have hmatches := ((hmark named).cursor.matches_of_cons (hmarked named) hx).1
    have hemit := ((hmark named).emit (t := (Token.scan x xs).1) (n := (Token.scan x xs).2.length + 1) hmatches
      (by rw [hmarked]; exact notMem_take_scan xs hx) (by rw [hmarked]; exact byteCount_of_isSign hx)).1
    exact .next (hemit.reframe (.cons (.arguments _ _) hfs))
  · exact .unfinished hy ⟨_, List.mem_cons_self, hunfinished⟩ ⟨_, List.mem_cons_self, hunfinished'⟩

/-- Past blanks, both read on at the same place, or neither does. -/
theorem restyled_onContent (h : s.Restyled y source s') {read read' : State → Step}
    (hread : ∀ (u u' : State) (x : Char) (xs : List Char), u.Restyled y source u' → u.cursor.rest = x :: xs →
      x ≠ '\n' → Step.Restyled y source (read u) (read' u')) :
    Step.Restyled y source (s.onContent read) (s'.onContent read') := by
  unfold onContent
  rcases h.cursor.skipBlank? with ⟨hnone, hnone'⟩ | ⟨c, c', hc, hc', hcursor⟩
  · rw [hnone, hnone']
    exact .stop h
  · obtain ⟨-, x, xs, -, -, hrest, hx, -⟩ := Cursor.over_skipBlank hc
    rw [hc, hc']
    refine hread { s with cursor := c } { s' with cursor := c' } x xs (h.move hcursor) hrest ?_
    rintro rfl
    simp [isLayout] at hx

end Readers

/-- **A step in both styles.** It reads the same token or crosses the same line breaks, and both states go on or both
stop; only a string that is not closed may take in the carriage return. -/
theorem restyled_step (limit : Nat) (hfits : y.Fits source) (h : s.Restyled y source s') :
    Step.Restyled y source (s.step limit) (s'.step limit) := by
  have hframes := h.frames
  unfold step
  generalize s.frames = frames at hframes
  generalize s'.frames = frames' at hframes
  cases hframes with
  | nil => exact restyled_betweenAttributes h
  | cons hf hfs =>
    cases hf with
    | pattern houter => exact restyled_readText hfits h houter hfs
    | placeable => exact restyled_onContent h fun _ _ _ _ hu hrest hx => restyled_readPlaceable hu hrest hx hfs
    | arguments => exact restyled_onContent h fun _ _ _ _ hu hrest hx => restyled_readArguments hu hrest hx hfs
    | variants => exact restyled_onContent h fun _ _ _ _ hu hrest hx => restyled_readVariants hu hrest hx hfs
    | key => exact restyled_onContent h fun _ _ _ _ hu hrest hx => restyled_readKey hu hrest hx hfs

/-- **A run in both styles** ends at the same state, unless both read a string that is not closed. -/
theorem restyled_run (limit : Nat) (hfits : y.Fits source) (h : s.Restyled y source s') :
    (s.run limit).2.Restyled y source (s'.run limit).2 ∨
      y.returns = true ∧ (s.run limit).2.Unfinished ∧ (s'.run limit).2.Unfinished := by
  fun_induction run limit s generalizing s' with
  | case1 s u hstep ih =>
    have hrestyled := restyled_step limit hfits h
    have honward := onward_run_step limit s'
    rw [hstep] at hrestyled
    generalize hx : s'.step limit = x' at hrestyled honward
    cases hrestyled with
    | next hu =>
      rw [run_of_next hx]
      exact ih hu
    | unfinished hy hunfinished hunfinished' =>
      exact .inr ⟨hy, hunfinished.onward (onward_run limit u), hunfinished'.onward honward⟩
  | case2 s e u hstep =>
    have hrestyled := restyled_step limit hfits h
    have honward := onward_run_step limit s'
    rw [hstep] at hrestyled
    generalize hx : s'.step limit = x' at hrestyled honward
    cases hrestyled with
    | stop hu =>
      rw [run_of_stop hx]
      exact .inl hu
    | unfinished hy hunfinished hunfinished' => exact .inr ⟨hy, hunfinished, hunfinished'.onward honward⟩

/-- **An entry in both styles.** -/
theorem restyled_run_ofHeader (limit : Nat) (hfits : y.Fits source) {c c' : Cursor} {isTerm : Bool}
    {a : Line.Assignment} (h : c.SameLine y source c') (ha : Line.entryHeader? c.rest = some (isTerm, a)) :
    ((ofHeader c isTerm a).run limit).2.Restyled y source ((ofHeader c' isTerm (y.restyle a)).run limit).2 ∨
      y.returns = true ∧ ((ofHeader c isTerm a).run limit).2.Unfinished ∧
        ((ofHeader c' isTerm (y.restyle a)).run limit).2.Unfinished :=
  restyled_run limit hfits (restyled_ofHeader (h.matches_of_line (LineStyle.line_of_entryHeader ha)) ha)

end State

end Fluent
