import Fluent.Proofs.Behind
import Fluent.Proofs.Onward
import Fluent.Proofs.Primed

/-!
# Moved machines

A machine that reads a text further on in a source, with something else behind it, makes the same moves at other
offsets. Two things can happen otherwise. It goes on behind the text, where a line goes on with the entry. Or it takes
the name at the end of the text, with which an argument begins, for the name of that argument, since a colon stands
behind; the machine that has only the text takes it for a positional argument. Neither happens in front of a header.

* `State.move k u`: a state in a text that stands `k` bytes further on and has `u` behind it.
* `Step.Moves`: a moved state leads to the moved outcome. `Step.Follows`: or it leaves the text, or is misled.
* `State.Misled`: one machine has read the name of a named argument, the other a positional argument.
* `State.follows_step`, `State.follows_run`: a step and a run follow.
* `RunFollows.moves_of_headed`: in front of a header, a moved run ends as the other does.
-/

namespace Fluent

def Span.move (k : Nat) (s : Span) : Span := ⟨s.start + k, s.stop + k⟩

def Lexeme.move (k : Nat) (l : Lexeme) : Lexeme := ⟨l.token, l.span.move k⟩

def TextRun.move (k : Nat) (r : TextRun) : TextRun := { r with start := r.start + k }

def PatternItem.move (k : Nat) : PatternItem → PatternItem
  | run r => run (r.move k)
  | lexeme l => lexeme (l.move k)

/-- The same construct with other items in front of it. -/
def Frame.mapItems (g : PatternItem → PatternItem) : Frame → Frame
  | pattern outer breaks indent => pattern (outer.map g) breaks indent
  | f => f

def Frame.move (k : Nat) : Frame → Frame := Frame.mapItems (PatternItem.move k)

def Ending.move (k : Nat) : Ending → Ending
  | tooDeep offset => tooDeep (offset + k)
  | e => e

/-- The state in a text that stands `k` bytes further on and has `u` behind it. -/
def State.move (k : Nat) (u : List Char) (s : State) : State :=
  ⟨s.cursor.move k u, s.items.map (PatternItem.move k), s.frames.map (Frame.move k)⟩

/-- The outcome in a text that stands `k` bytes further on and has `u` behind it. -/
def Step.move (k : Nat) (u : List Char) : Step → Step
  | next s => next (s.move k u)
  | stop e s => stop (e.move k) (s.move k u)

/-- What the outcome leaves to be read ends its line, or nothing is behind it. So the condition under which a moved
state follows is kept from step to step. -/
def Step.Ended (u : List Char) : Step → Prop
  | next s | stop _ s => Fluent.Ended u s.cursor.rest

/-- A moved state leads to the moved outcome, and what is left does not run into `u`. -/
def Step.Moves (k : Nat) (u : List Char) (x x' : Step) : Prop := x' = x.move k u ∧ x.Ended u

/-- The cursor is behind the text, where a line goes on with the entry. The entry is then longer than the text, and no
such text is compared. -/
def State.Enters (u : List Char) (s : State) : Prop := GoesOn u ∧ s.cursor.rest <:+ u

/-- Two lists of tokens that end with the same name, at the start of an argument. They are alike but for the marker of
named arguments, which the second one has in front of the name. -/
inductive Parted (k : Nat) (name : String) (span : Span) : List Lexeme → List Lexeme → Prop
  | intro {front : List Lexeme} {l : Lexeme} : l.OpensArgument →
      Parted k name span (front ++ [l, ⟨.identifier name, span⟩])
        ((front ++ [l]).map (Lexeme.move k) ++
          [⟨.endPositional, .at (span.start + k)⟩, ⟨.identifier name, span.move k⟩])

namespace Parted

variable {k : Nat} {name : String} {span : Span} {ls ls' : List Lexeme}

theorem eq_append (h : Parted k name span ls ls') :
    ∃ front l, l.OpensArgument ∧ ls = front ++ [l, ⟨.identifier name, span⟩] := by
  cases h with
  | intro hl => exact ⟨_, _, hl, rfl⟩

theorem getLast?_right (h : Parted k name span ls ls') : ls'.getLast? = some ⟨.identifier name, span.move k⟩ := by
  cases h
  rw [List.getLast?_append_of_ne_nil _ (List.cons_ne_nil _ _)]
  rfl

end Parted

/-- A name with which an argument begins was read last, and only spaces and line breaks are left of the text. Since a
colon stands behind the text, the moved state has taken the name for that of a named argument. The other one has taken
it for a positional argument: it sees no colon. -/
structure State.Misled (k : Nat) (u : List Char) (s s' : State) : Prop where
  cursor : s'.cursor = s.cursor.move k u
  ended : Ended u s.cursor.rest
  gap : ∀ y ∈ s.cursor.rest, isGap y = true
  colon : ColonAhead u
  frame : ∃ fs, s.frames = .arguments true false :: fs
  frame' : ∃ fs, s'.frames = .arguments false false :: fs
  lexemes : ∃ name span, span.stop = s.cursor.offset ∧ Parted k name span s.lexemes s'.lexemes

/-- A moved state leads to the moved outcome, or leaves the text, or is misled by a colon behind it. -/
inductive Step.Follows (k : Nat) (u : List Char) (x x' : Step) : Prop
  | moves : x.Moves k u x' → Follows k u x x'
  | enters : x'.state.Enters u → Follows k u x x'
  | misled {s s' : State} : x = .next s → x' = .next s' → s.Misled k u s' → Follows k u x x'

/-! ## Items -/

variable {k : Nat} {u : List Char}

@[simp] theorem PatternItem.indent?_move (i : PatternItem) : (i.move k).indent? = i.indent? := by
  cases i <;> rfl

theorem PatternItem.settle?_move (common : Nat) (i : PatternItem) :
    (i.move k).settle? common = (i.settle? common).map (Lexeme.move k) := by
  cases i with
  | lexeme l => rfl
  | run r =>
    have hvalue : (r.move k).value common = r.value common := rfl
    simp only [move, settle?, hvalue]
    split
    · rfl
    · simp [Lexeme.move, Span.move, TextRun.move, Nat.add_right_comm]

/-- Dedenting asks for no offset. -/
theorem dedent_move (items : List PatternItem) :
    dedent (items.map (PatternItem.move k)) = (dedent items).map (Lexeme.move k) := by
  have hindents : PatternItem.indent? ∘ PatternItem.move k = PatternItem.indent? :=
    funext PatternItem.indent?_move
  unfold dedent
  rw [List.filterMap_map, List.filterMap_map, List.map_filterMap, hindents]
  exact congrArg (fun f => items.filterMap f) (funext (PatternItem.settle?_move _))

theorem map_lexeme_map {g : PatternItem → PatternItem} {f : Lexeme → Lexeme}
    (hg : ∀ l, g (.lexeme l) = .lexeme (f l)) (ls : List Lexeme) :
    (ls.map f).map PatternItem.lexeme = (ls.map PatternItem.lexeme).map g := by
  rw [List.map_map, List.map_map]
  exact List.map_congr_left fun l _ => (hg l).symm

theorem map_lexeme_move (ls : List Lexeme) :
    (ls.map (Lexeme.move k)).map PatternItem.lexeme =
      (ls.map PatternItem.lexeme).map (PatternItem.move k) := map_lexeme_map (fun _ => rfl) ls

namespace State

variable {s : State} {n : Nat} {t : Token}

/-- What dedenting commutes with, the tokens of a state do. -/
theorem unwind_map {g : PatternItem → PatternItem} {f : Lexeme → Lexeme} (hg : ∀ l, g (.lexeme l) = .lexeme (f l))
    (hdedent : ∀ is, dedent (is.map g) = (dedent is).map f) (fs : List Frame) (is : List PatternItem) :
    unwind (fs.map (Frame.mapItems g)) (is.map g) = (unwind fs is).map f := by
  induction fs generalizing is with
  | nil => exact hdedent is
  | cons fr fs ih =>
    cases fr with
    | pattern outer breaks indent =>
      simp only [List.map_cons, Frame.mapItems, unwind]
      rw [hdedent, map_lexeme_map hg, ← List.map_append, ih]
    | placeable => exact ih is
    | arguments => exact ih is
    | variants => exact ih is
    | key => exact ih is

theorem lexemes_map {g : PatternItem → PatternItem} {f : Lexeme → Lexeme} (hg : ∀ l, g (.lexeme l) = .lexeme (f l))
    (hdedent : ∀ is, dedent (is.map g) = (dedent is).map f) (s : State) (c : Cursor) :
    lexemes ⟨c, s.items.map g, s.frames.map (Frame.mapItems g)⟩ = s.lexemes.map f := by
  rw [lexemes, lexemes, List.map_reverse]
  exact congrArg List.reverse (unwind_map hg hdedent s.frames s.items)

/-- The tokens of a moved state are the moved tokens. A pattern that is still open is closed with the same common
indentation, since moving leaves that alone. -/
theorem lexemes_move (s : State) : (s.move k u).lexemes = s.lexemes.map (Lexeme.move k) :=
  lexemes_map (fun _ => rfl) dedent_move s _

/-- A token that was read is kept in front of those before it. -/
theorem unwind_lexeme (l : Lexeme) (fs : List Frame) (is : List PatternItem) :
    unwind fs (.lexeme l :: is) = l :: unwind fs is := by
  have hdedent : ∀ is : List PatternItem, dedent (.lexeme l :: is) = l :: dedent is := fun _ => rfl
  induction fs generalizing is with
  | nil => exact hdedent is
  | cons f fs ih =>
    cases f with
    | pattern outer breaks indent =>
      rw [unwind, unwind, hdedent, List.map_cons, List.cons_append]
      exact ih _
    | placeable => exact ih is
    | arguments => exact ih is
    | variants => exact ih is
    | key => exact ih is

/-- The items do not count towards the nesting limit. -/
theorem countP_mapItems (g : PatternItem → PatternItem) (fs : List Frame) :
    (fs.map (Frame.mapItems g)).countP Frame.nests = fs.countP Frame.nests := by
  rw [List.countP_map]
  congr 1
  funext f
  cases f <;> rfl

theorem depth_move (s : State) : (s.move k u).depth = s.depth := countP_mapItems _ s.frames

/-! ## Single moves -/

theorem ended_emit (h : Ended u s.cursor.rest) (hn : '\n' ∉ s.cursor.rest.take n) :
    Ended u (s.emit t n).cursor.rest := Cursor.ended_skip h hn

/-- A moved state puts the same token on the stack, moved, if the token ends within its line. -/
theorem move_emit (h : Ended u s.cursor.rest) (hn : '\n' ∉ s.cursor.rest.take n) :
    (s.move k u).emit t n = (s.emit t n).move k u := by
  have hskip : (s.move k u).cursor.skip n = (s.cursor.skip n).move k u := Cursor.move_skip h hn
  simp only [emit, hskip]
  rfl

theorem move_toLineEnd (h : Ended u s.cursor.rest) : (s.move k u).toLineEnd = s.toLineEnd.move k u := by
  have hend : (s.move k u).cursor.lineEnd = s.cursor.lineEnd.move k u := Cursor.move_lineEnd h
  rw [toLineEnd, hend]
  rfl

theorem notMem_take_head (s : State) : '\n' ∉ s.cursor.rest.take (Line.head s.cursor.rest).length := by
  rw [Line.take_length_head]
  exact Line.newline_notMem_head _

theorem ended_emitUnfinished (h : Ended u s.cursor.rest) : Ended u s.emitUnfinished.cursor.rest :=
  ended_emit h s.notMem_take_head

theorem move_emitUnfinished (h : Ended u s.cursor.rest) :
    (s.move k u).emitUnfinished = s.emitUnfinished.move k u := by
  have hhead : Line.head (s.move k u).cursor.rest = Line.head s.cursor.rest := h.head
  rw [emitUnfinished, hhead, move_emit h s.notMem_take_head]
  rfl

theorem ended_finishLine (h : Ended u s.cursor.rest) : Ended u s.finishLine.cursor.rest := by
  unfold finishLine
  split
  · exact Cursor.ended_lineEnd h
  · exact ended_emitUnfinished h

theorem move_finishLine (h : Ended u s.cursor.rest) : (s.move k u).finishLine = s.finishLine.move k u := by
  have hblank : Line.isBlank (s.move k u).cursor.rest = Line.isBlank s.cursor.rest := h.isBlank
  unfold finishLine
  rw [hblank, move_toLineEnd h, move_emitUnfinished h]
  split <;> rfl

/-- The parts of a header are on one line. -/
theorem notMem_assignment {a : Line.Assignment} (ha : Line.assignment? s.cursor.rest = some a) :
    '\n' ∉ s.cursor.rest.take a.name.length ∧ '\n' ∉ (s.emit t a.name.length).cursor.rest.take a.spaces ∧
      '\n' ∉ ((s.emit t a.name.length).cursor.skip a.spaces).rest.take 1 := by
  obtain ⟨hrest, -, hname⟩ := Line.assignment?_eq_some ha
  have hrest₁ : (s.emit t a.name.length).cursor.rest = List.replicate a.spaces ' ' ++ '=' :: a.rest := by
    show s.cursor.rest.drop a.name.length = _
    rw [hrest, List.drop_left]
  have hrest₂ : ((s.emit t a.name.length).cursor.skip a.spaces).rest = '=' :: a.rest := by
    show (s.emit t a.name.length).cursor.rest.drop a.spaces = _
    rw [hrest₁, List.drop_left' List.length_replicate]
  refine ⟨?_, ?_, ?_⟩
  · rw [hrest, List.take_left]
    exact hname
  · rw [hrest₁, List.take_left' List.length_replicate]
    simp
  · simp [hrest₂]

theorem ended_emitAssignment (h : Ended u s.cursor.rest) {a : Line.Assignment}
    (ha : Line.assignment? s.cursor.rest = some a) : Ended u (s.emitAssignment a).cursor.rest := by
  obtain ⟨hname, hspaces, hequals⟩ := notMem_assignment (t := .identifier (String.ofList a.name)) ha
  exact Cursor.ended_skip (Cursor.ended_skip (ended_emit h hname) hspaces) hequals

theorem move_emitAssignment (h : Ended u s.cursor.rest) {a : Line.Assignment}
    (ha : Line.assignment? s.cursor.rest = some a) :
    (s.move k u).emitAssignment (a.extend u) = (s.emitAssignment a).move k u := by
  obtain ⟨hname, hspaces, hequals⟩ := notMem_assignment (t := .identifier (String.ofList a.name)) ha
  have h₁ := ended_emit (t := .identifier (String.ofList a.name)) h hname
  have hskip := Cursor.move_skip (k := k) h₁ hspaces
  have hlast := move_emit (k := k) (t := .equals)
    (s := { s.emit (.identifier (String.ofList a.name)) a.name.length with
      cursor := (s.emit (.identifier (String.ofList a.name)) a.name.length).cursor.skip a.spaces })
    (Cursor.ended_skip h₁ hspaces) hequals
  rw [emitAssignment, emitAssignment, ← hlast, Line.Assignment.extend]
  simp only
  rw [move_emit h hname]
  congr 1
  exact congrArg (fun c => State.mk c _ _) hskip

theorem ended_beginValue (h : Ended u s.cursor.rest) : Ended u s.beginValue.cursor.rest := by
  have hspaces := Cursor.ended_skipWhile (p := (· == ' ')) h rfl
  have hend := Cursor.ended_lineEnd hspaces
  have hvalue := s.valueBegins
  generalize s.beginValue = t at hvalue ⊢
  cases hvalue with
  | inline => exact hspaces
  | below _ hl => exact hend.of_nextContent? hl
  | missing => exact hend

/-- A value begins where it did, or behind the text. -/
theorem move_beginValue (h : Ended u s.cursor.rest) :
    (s.move k u).beginValue = s.beginValue.move k u ∨ (s.move k u).beginValue.Enters u := by
  have hspaces := Cursor.ended_skipWhile (p := (· == ' ')) h rfl
  have hskip : (s.move k u).cursor.skipWhile (· == ' ') = (s.cursor.skipWhile (· == ' ')).move k u :=
    Cursor.move_skipWhile h rfl
  unfold beginValue
  rw [hskip]
  generalize s.cursor.skipWhile (· == ' ') = c at hspaces
  have hblank : Line.isBlank (c.move k u).rest = Line.isBlank c.rest := hspaces.isBlank
  simp only
  rw [hblank, Cursor.move_lineEnd hspaces]
  have hend := Cursor.ended_lineEnd hspaces
  by_cases hb : Line.isBlank c.rest = true
  · rw [if_pos hb, if_pos hb]
    have hskipped := move_toLineEnd (k := k) (s := (State.mk c s.items s.frames).mark .patternSkip) hspaces
    rcases hend.nextContent? with hsame | ⟨hnone, l, hl, hcontent, hgoes⟩
    · left
      rw [show (c.lineEnd.move k u).rest = c.lineEnd.rest ++ u from rfl, hsame]
      cases Line.nextContent? c.lineEnd.rest with
      | none => exact hskipped
      | some l =>
        have hcontinues : (l.extend u).continuesPattern = l.continuesPattern := rfl
        simp only [Option.map_some]
        rw [hcontinues, Cursor.move_toContent]
        by_cases hl : l.continuesPattern = true
        · rw [if_pos hl, if_pos hl]
          rfl
        · rw [if_neg hl, if_neg hl]
          exact hskipped
    · rw [show (c.lineEnd.move k u).rest = c.lineEnd.rest ++ u from rfl, hnone, hl]
      simp only
      by_cases hl : l.continuesPattern = true
      · right
        rw [if_pos hl]
        exact ⟨hgoes (.inl (Line.indent_pos_of_continuesPattern hl)), hcontent⟩
      · left
        rw [if_neg hl]
        exact hskipped
  · left
    rw [if_neg hb, if_neg hb]
    rfl

/-! ## Steps -/

variable {limit : Nat} {frames : List Frame}

/-- Where an attribute may stand, a moved state finds the same. -/
theorem follows_attribute (h : Ended u s.cursor.rest) :
    Step.Follows k u
      (match Line.attributeHeader? s.cursor.rest with
        | some a => .next ((s.emit .dot 1).emitAssignment a).beginValue
        | none => .next s.emitUnfinished)
      (match Line.attributeHeader? (s.move k u).cursor.rest with
        | some a => .next (((s.move k u).emit .dot 1).emitAssignment a).beginValue
        | none => .next (s.move k u).emitUnfinished) := by
  rw [show (s.move k u).cursor.rest = s.cursor.rest ++ u from rfl, h.attributeHeader?]
  cases ha : Line.attributeHeader? s.cursor.rest with
  | none => exact .moves ⟨congrArg Step.next (move_emitUnfinished h), ended_emitUnfinished h⟩
  | some a =>
    obtain ⟨hdot, hassign⟩ := Line.attributeHeader?_eq_some ha
    have hn : '\n' ∉ s.cursor.rest.take 1 := by
      rw [hdot]
      simp
    have hname : Line.assignment? (s.emit .dot 1).cursor.rest = some a := by
      show Line.assignment? (s.cursor.rest.drop 1) = some a
      rw [List.drop_one]
      exact hassign
    have h₁ := ended_emit (t := .dot) h hn
    have h₂ := ended_emitAssignment h₁ hname
    simp only [Option.map_some]
    rw [move_emit h hn, move_emitAssignment h₁ hname]
    rcases move_beginValue (k := k) h₂ with hsame | henters
    · exact .moves ⟨congrArg Step.next hsame, ended_beginValue h₂⟩
    · exact .enters henters

/-- Between attributes the moved state follows, unless nothing more stands in the text: then the first line behind it
may hold an attribute, and the moved state goes on there. -/
theorem follows_betweenAttributes (h : Ended u s.cursor.rest) :
    Step.Follows k u s.betweenAttributes (s.move k u).betweenAttributes := by
  have hline := ended_finishLine h
  unfold betweenAttributes
  rw [move_finishLine h]
  generalize s.finishLine = s at hline
  simp only
  rw [show (s.move k u).cursor.rest = s.cursor.rest ++ u from rfl]
  rcases hline.nextContent? with hsame | ⟨hnone, l, hl, hsuffix, hgoes⟩
  · rw [hsame]
    cases hl : Line.nextContent? s.cursor.rest with
    | none => exact .moves ⟨rfl, hline⟩
    | some l =>
      have hcontent := hline.of_nextContent? hl
      have hopens : (l.extend u).opensAttribute = l.opensAttribute := rfl
      simp only [Option.map_some]
      rw [hopens, show (s.move k u).cursor.toContent (l.extend u) = (s.cursor.toContent l).move k u from
        Cursor.move_toContent s.cursor l]
      by_cases hl : l.opensAttribute = true
      · rw [if_pos hl, if_pos hl]
        exact follows_attribute (s := ⟨s.cursor.toContent l, s.items, s.frames⟩) hcontent
      · rw [if_neg hl, if_neg hl]
        exact .moves ⟨rfl, hline⟩
  · rw [hnone, hl]
    simp only
    by_cases hopens : l.opensAttribute = true
    · rw [if_pos hopens]
      have hattribute := onward_attribute { s.move k u with cursor := (s.move k u).cursor.toContent l }
      exact .enters ⟨hgoes (.inl (Line.indent_pos_of_opensAttribute hopens)), hattribute.rest.trans hsuffix⟩
    · rw [if_neg hopens]
      exact .moves ⟨rfl, hline⟩

/-- A construct that counts towards the limit is opened, or the machine stops. -/
theorem moves_open (h : Ended u s.cursor.rest) (hn : '\n' ∉ s.cursor.rest.take 1) (t : Token) {f : Frame}
    (hf : f.move k = f) (e : Ending) :
    Step.Moves k u
      (if s.depth < limit then .next { s.emit t 1 with frames := f :: s.frames }
      else .stop e s.emitUnfinished)
      (if (s.move k u).depth < limit then
        .next { (s.move k u).emit t 1 with frames := f :: (s.move k u).frames }
      else .stop (e.move k) (s.move k u).emitUnfinished) := by
  rw [depth_move, move_emit h hn, move_emitUnfinished h]
  by_cases hdepth : s.depth < limit
  · rw [if_pos hdepth, if_pos hdepth]
    refine ⟨?_, ended_emit (t := t) h hn⟩
    show Step.next ⟨_, _, f :: _⟩ = .next ⟨_, _, f.move k :: _⟩
    rw [hf]
    rfl
  · rw [if_neg hdepth, if_neg hdepth]
    exact ⟨rfl, ended_emitUnfinished h⟩

/-- Whether a placeable may be opened depends on the frames alone, and these are as many in both states. -/
theorem moves_openPlaceable (h : Ended u s.cursor.rest) (hn : '\n' ∉ s.cursor.rest.take 1) :
    Step.Moves k u (s.openPlaceable limit) ((s.move k u).openPlaceable limit) :=
  moves_open h hn .openBrace rfl (.tooDeep s.cursor.offset)

theorem moves_openArguments (h : Ended u s.cursor.rest) (hn : '\n' ∉ s.cursor.rest.take 1) :
    Step.Moves k u (s.openArguments limit) ((s.move k u).openArguments limit) :=
  moves_open h hn .openParen rfl .cutShort

theorem move_closePattern (s : State) (run : TextRun) (outer : List PatternItem) (frames : List Frame) :
    (s.move k u).closePattern (run.move k) (outer.map (PatternItem.move k)) (frames.map (Frame.move k)) =
      (s.closePattern run outer frames).move k u := by
  have hinner := dedent_move (k := k) (.run run.trimEnd :: s.items)
  unfold closePattern
  simp only [mark, move, List.map_cons, List.map_append, ← map_lexeme_move, ← hinner]
  rfl

/-- In a pattern the moved state follows, unless the text is at its end: then the pattern may go on behind it. -/
theorem follows_readText (h : Ended u s.cursor.rest) {outer : List PatternItem} {breaks : Nat}
    {indent : Option Nat} :
    Step.Follows k u (s.readText limit outer breaks indent frames)
      ((s.move k u).readText limit (outer.map (PatternItem.move k)) breaks indent
        (frames.map (Frame.move k))) := by
  -- the run stops at the line feed, if not before, and so it is the same
  have hrun : (s.move k u).cursor.rest.takeWhile inRun = s.cursor.rest.takeWhile inRun := h.takeWhile rfl
  have hskip : (s.move k u).cursor.skipWhile inRun = (s.cursor.skipWhile inRun).move k u := Cursor.move_skipWhile h rfl
  have hafter : Ended u (s.cursor.skipWhile inRun).rest := Cursor.ended_skipWhile h rfl
  have hrest : ((s.move k u).cursor.skipWhile inRun).rest = (s.cursor.skipWhile inRun).rest ++ u :=
    congrArg Cursor.rest hskip
  -- wherever the pattern ends, both machines close it behind the same run
  have hclosed : ∀ run : TextRun, Step.Moves k u
      (.next ((State.mk (s.cursor.skipWhile inRun) s.items s.frames).closePattern run outer frames))
      (.next (((State.mk (s.cursor.skipWhile inRun) s.items s.frames).move k u).closePattern (run.move k)
        (outer.map (PatternItem.move k)) (frames.map (Frame.move k)))) :=
    fun run => ⟨congrArg Step.next (move_closePattern _ run outer frames), hafter⟩
  by_cases hbrace : ∃ xs, (s.cursor.skipWhile inRun).rest = '{' :: xs
  · obtain ⟨xs, hxs⟩ := hbrace
    have hn : '\n' ∉ (s.cursor.skipWhile inRun).rest.take 1 := by simp [hxs]
    rw [hxs, List.cons_append] at hrest
    rw [readText_brace hxs, readText_brace hrest, hskip, hrun]
    exact .moves (moves_openPlaceable (s := ⟨s.cursor.skipWhile inRun,
      .run ⟨breaks, indent, s.cursor.offset, s.cursor.rest.takeWhile inRun⟩ :: s.items,
      .pattern outer 0 none :: frames⟩) hafter hn)
  by_cases hbreak : ∃ xs, (s.cursor.skipWhile inRun).rest = '\n' :: xs
  · obtain ⟨xs, hxs⟩ := hbreak
    have hxs' : ((s.move k u).cursor.skipWhile inRun).rest = '\n' :: (xs ++ u) := by
      rw [hrest, hxs, List.cons_append]
    rw [readText_newline hxs, readText_newline hxs', hrest, hskip, hrun]
    have hends := hclosed ⟨breaks, indent, s.cursor.offset, Line.dropReturn (s.cursor.rest.takeWhile inRun)⟩
    rcases hafter.nextContent? with hsame | ⟨hnone, l, hl, hcontent, hgoes⟩
    · rw [hsame]
      cases hl : Line.nextContent? (s.cursor.skipWhile inRun).rest with
      | none => exact .moves hends
      | some l =>
        have hcontinues : (l.extend u).continuesPattern = l.continuesPattern := rfl
        simp only [Option.map_some, Option.filter_some, hcontinues]
        by_cases hpattern : l.continuesPattern = true
        · rw [if_pos hpattern, if_pos hpattern]
          dsimp only
          rw [Cursor.move_toContent]
          exact .moves ⟨rfl, hafter.of_nextContent? hl⟩
        · rw [if_neg hpattern, if_neg hpattern]
          exact .moves hends
    · rw [hnone, hl]
      simp only [Option.filter_none, Option.filter_some]
      by_cases hpattern : l.continuesPattern = true
      · rw [if_pos hpattern]
        exact .enters ⟨hgoes (.inl (Line.indent_pos_of_continuesPattern hpattern)), hcontent⟩
      · rw [if_neg hpattern]
        exact .moves hends
  · have hother : ∀ {x : Char}, (¬ ∃ xs, (s.cursor.skipWhile inRun).rest = x :: xs) →
        ∀ xs, ((s.move k u).cursor.skipWhile inRun).rest ≠ x :: xs := by
      intro x hx xs hxs
      rw [hrest] at hxs
      cases hcons : (s.cursor.skipWhile inRun).rest with
      | nil =>
        rw [hcons] at hxs hafter
        rw [hafter.eq_nil] at hxs
        cases hxs
      | cons y ys =>
        rw [hcons] at hxs
        exact hx ⟨ys, by rw [hcons, (List.cons.inj hxs).1]⟩
    rw [readText_otherwise (not_exists.1 hbrace) (not_exists.1 hbreak),
      readText_otherwise (hother hbrace) (hother hbreak), hskip, hrun]
    exact .moves (hclosed ⟨breaks, indent, s.cursor.offset, s.cursor.rest.takeWhile inRun⟩)

theorem notMem_take_scan {c : Char} (cs : List Char) (hc : c ≠ '\n') :
    '\n' ∉ (c :: cs).take ((Token.scan c cs).2.length + 1) := by
  obtain ⟨⟨rest, hrest⟩, -, hmem⟩ := Token.scan_spelled cs hc
  rw [List.take_succ_cons]
  generalize (Token.scan c cs).2 = more at hrest hmem
  rwa [hrest, List.take_left]

/-- The next token is the same in both states, since a token ends within its line. -/
theorem moves_emitScanned (h : Ended u s.cursor.rest) {c : Char} {cs : List Char}
    (hrest : s.cursor.rest = c :: cs) (hc : c ≠ '\n') :
    Step.Moves k u s.emitScanned (s.move k u).emitScanned := by
  have hn := notMem_take_scan cs hc
  rw [← hrest] at hn
  have hrest' : (s.move k u).cursor.rest = c :: (cs ++ u) := by
    show s.cursor.rest ++ u = _
    rw [hrest]
    rfl
  unfold emitScanned
  rw [hrest, hrest']
  rw [hrest] at h
  simp only
  rw [h.scan hc]
  rw [← hrest] at h
  rw [move_emit h hn]
  exact ⟨rfl, ended_emit h hn⟩

/-! ### Readers in front of a character that means nothing to them -/

section Otherwise

variable {x : Char} {xs : List Char}

/-- In a placeable, what is no brace, no parenthesis and no arrow is a token of its own. With these equations the cases
are the same for both states. -/
theorem readPlaceable_otherwise (hrest : s.cursor.rest = x :: xs) (hclose : x ≠ '}') (hopen : x ≠ '{')
    (hparen : x ≠ '(') (harrow : x = '-' → ∀ ys, xs ≠ '>' :: ys) :
    s.readPlaceable limit frames = s.emitScanned := by
  unfold readPlaceable
  rw [hrest]
  split <;> rename_i heq <;> first | rfl | skip
  · exact absurd (List.cons.inj heq).1 hclose
  · exact absurd (List.cons.inj heq).1 hopen
  · exact absurd (List.cons.inj heq).1 hparen
  · exact absurd (List.cons.inj heq).2 (harrow (List.cons.inj heq).1 _)

theorem readVariants_otherwise (hrest : s.cursor.rest = x :: xs) (hclose : x ≠ '}') (hopen : x ≠ '[') :
    s.readVariants frames = s.emitScanned := by
  unfold readVariants
  rw [hrest]
  split <;> rename_i heq <;> first | rfl | skip
  · exact absurd (List.cons.inj heq).1 hclose
  · exact absurd (List.cons.inj heq).1 hopen

theorem readKey_otherwise {read : Bool} (hrest : s.cursor.rest = x :: xs) (hclose : x ≠ ']') :
    s.readKey read frames = if read then .next { s with frames := frames }
      else { s with frames := .key true :: frames }.emitScanned := by
  unfold readKey
  rw [hrest]
  split <;> rename_i heq <;> first | rfl | skip
  exact absurd (List.cons.inj heq).1 hclose

/-- A token in the arguments of a call, and the marker in front of it if a name begins the named ones. -/
def readArgument (s : State) (named positional : Bool) (frames : List Frame) (x : Char) (xs : List Char) : State :=
  { (if named then s.mark .endPositional else s).emit (Token.scan x xs).1 ((Token.scan x xs).2.length + 1) with
    frames := .arguments (positional && !named) ((Token.scan x xs).1 == .comma) :: frames }

theorem readArguments_otherwise {positional atStart : Bool} (hrest : s.cursor.rest = x :: xs) (hclose : x ≠ ')')
    (hopen : x ≠ '{') (hparen : x ≠ '(') :
    s.readArguments limit positional atStart frames =
      .next (s.readArgument (positional && atStart && isIdentifierStart x && namedArgumentAhead (x :: xs))
        positional frames x xs) := by
  unfold readArguments
  rw [hrest]
  split
  · rename_i heq
    exact absurd heq (List.cons_ne_nil _ _)
  · rename_i heq
    exact absurd (List.cons.inj heq).1 hclose
  · rename_i heq
    exact absurd (List.cons.inj heq).1 hopen
  · rename_i heq
    exact absurd (List.cons.inj heq).1 hparen
  · rename_i heq
    obtain ⟨rfl, rfl⟩ := List.cons.inj heq
    rfl

end Otherwise

/-- Reading one token and going on with other frames. -/
theorem moves_emit_frames {n : Nat} {t : Token} (fs : List Frame) (h : Ended u s.cursor.rest)
    (hn : '\n' ∉ s.cursor.rest.take n) :
    Step.Moves k u (.next { s.emit t n with frames := fs })
      (.next { (s.move k u).emit t n with frames := fs.map (Frame.move k) }) := by
  refine ⟨?_, ended_emit (t := t) h hn⟩
  rw [move_emit h hn]
  rfl

section Readers

variable {o : Nat} {x : Char} {xs : List Char} {items : List PatternItem} {fs : List Frame}

/-- What the two machines have in front of them. -/
theorem rest_move : ((State.mk ⟨o, x :: xs⟩ items fs).move k u).cursor.rest = x :: (xs ++ u) := rfl

theorem notMem_take_one (hx : x ≠ '\n') : '\n' ∉ (x :: xs).take 1 := by
  simpa using hx.symm

theorem moves_readPlaceable (h : Ended u (x :: xs)) (hx : x ≠ '\n') :
    Step.Moves k u (readPlaceable limit ⟨⟨o, x :: xs⟩, items, fs⟩ frames)
      (readPlaceable limit ((State.mk ⟨o, x :: xs⟩ items fs).move k u) (frames.map (Frame.move k))) := by
  have hn : '\n' ∉ (x :: xs).take 1 := notMem_take_one hx
  by_cases hclose : x = '}'
  · subst hclose
    exact moves_emit_frames (s := ⟨⟨o, '}' :: xs⟩, items, fs⟩) frames h hn
  by_cases hopen : x = '{'
  · subst hopen
    exact moves_openPlaceable (s := ⟨⟨o, '{' :: xs⟩, items, fs⟩) h hn
  by_cases hparen : x = '('
  · subst hparen
    exact moves_openArguments (s := ⟨⟨o, '(' :: xs⟩, items, fs⟩) h hn
  by_cases harrow : x = '-' ∧ ∃ ys, xs = '>' :: ys
  · obtain ⟨rfl, ys, rfl⟩ := harrow
    exact moves_emit_frames (s := ⟨⟨o, '-' :: '>' :: ys⟩, items, fs⟩) (.variants :: frames) h
      (by simp)
  -- every other character begins a token of its own, with the same look-ahead
  rw [readPlaceable_otherwise rfl hclose hopen hparen fun hminus ys hys => harrow ⟨hminus, ys, hys⟩,
    readPlaceable_otherwise rest_move hclose hopen hparen]
  · exact moves_emitScanned (s := ⟨⟨o, x :: xs⟩, items, fs⟩) h rfl hx
  · -- a dash at the end of the text makes no arrow with what is behind it
    rintro rfl ys hys
    cases xs with
    | nil =>
      rw [(h.tail (by decide)).eq_nil] at hys
      simp at hys
    | cons y zs => exact harrow ⟨rfl, zs, by rw [(List.cons.inj hys).1]⟩

theorem moves_readVariants (h : Ended u (x :: xs)) (hx : x ≠ '\n') :
    Step.Moves k u (readVariants ⟨⟨o, x :: xs⟩, items, fs⟩ frames)
      (readVariants ((State.mk ⟨o, x :: xs⟩ items fs).move k u) (frames.map (Frame.move k))) := by
  have hn : '\n' ∉ (x :: xs).take 1 := notMem_take_one hx
  by_cases hclose : x = '}'
  · subst hclose
    exact moves_emit_frames (s := ⟨⟨o, '}' :: xs⟩, items, fs⟩) frames h hn
  by_cases hopen : x = '['
  · subst hopen
    exact moves_emit_frames (s := ⟨⟨o, '[' :: xs⟩, items, fs⟩) (.key false :: fs) h hn
  rw [readVariants_otherwise rfl hclose hopen, readVariants_otherwise rest_move hclose hopen]
  exact moves_emitScanned (s := ⟨⟨o, x :: xs⟩, items, fs⟩) h rfl hx

theorem follows_readKey (h : Ended u (x :: xs)) (hx : x ≠ '\n') {read : Bool} :
    Step.Follows k u (readKey ⟨⟨o, x :: xs⟩, items, fs⟩ read frames)
      (readKey ((State.mk ⟨o, x :: xs⟩ items fs).move k u) read (frames.map (Frame.move k))) := by
  have hn : '\n' ∉ (x :: xs).take 1 := notMem_take_one hx
  by_cases hclose : x = ']'
  · subst hclose
    have hemit := move_emit (k := k) (t := .closeBracket) (s := ⟨⟨o, ']' :: xs⟩, items, frames⟩) h hn
    have hended := ended_emit (t := .closeBracket) (s := ⟨⟨o, ']' :: xs⟩, items, frames⟩) h hn
    have hvalue := move_beginValue (k := k) hended
    rw [← hemit] at hvalue
    rcases hvalue with hsame | henters
    · exact .moves ⟨congrArg Step.next hsame, ended_beginValue hended⟩
    · exact .enters henters
  rw [readKey_otherwise rfl hclose, readKey_otherwise rest_move hclose]
  cases read with
  | true => exact .moves ⟨rfl, h⟩
  | false => exact .moves (moves_emitScanned (s := ⟨⟨o, x :: xs⟩, items, .key true :: frames⟩) h rfl hx)

/-- The tokens of two states that have read the same name behind the same token, one of them with a marker in front. -/
theorem parted_lexemes {c c' : Cursor} {l : Lexeme} {is : List PatternItem} {name : String} {o p : Nat} {a b : Bool}
    (hl : l.OpensArgument) : Parted k name ⟨o, p⟩
      (lexemes ⟨c, .lexeme ⟨.identifier name, ⟨o, p⟩⟩ :: .lexeme l :: is, .arguments true a :: frames⟩)
      (lexemes ⟨c', .lexeme ⟨.identifier name, ⟨o + k, p + k⟩⟩ :: .lexeme ⟨.endPositional, .at (o + k)⟩ ::
        .lexeme (l.move k) :: is.map (PatternItem.move k), .arguments false b :: frames.map (Frame.move k)⟩) := by
  have hbefore := lexemes_move (k := k) (u := []) ⟨c, is, frames⟩
  simp only [lexemes, move] at hbefore
  simp only [lexemes, unwind, unwind_lexeme, List.reverse_cons, List.append_assoc, List.singleton_append, hbefore]
  have hparted : Parted k name ⟨o, p⟩ ((unwind frames is).reverse ++ [l, ⟨.identifier name, ⟨o, p⟩⟩]) _ := .intro hl
  simpa only [List.map_append, List.map_cons, List.map_nil, List.append_assoc, List.cons_append, List.nil_append,
    Span.move] using hparted

/-- The name at the end of the text, read as a positional argument and as the name of a named one. -/
theorem misled_readArgument (h : Ended u (x :: xs)) (hstart : isIdentifierStart x = true) (hcolon : ColonAhead u)
    (hgap : ∀ y ∈ (x :: xs).dropWhile isIdentifierChar, isGap y = true) {l : Lexeme} {is : List PatternItem}
    (hl : l.OpensArgument) :
    State.Misled k u (readArgument ⟨⟨o, x :: xs⟩, .lexeme l :: is, fs⟩ false true frames x xs)
      (readArgument ((State.mk ⟨o, x :: xs⟩ (.lexeme l :: is) fs).move k u) true true (frames.map (Frame.move k)) x xs) := by
  have hchar := isIdentifierChar_of_isIdentifierStart hstart
  have hrest : ((Cursor.mk o (x :: xs)).skip ((xs.takeWhile isIdentifierChar).length + 1)).rest =
      (x :: xs).dropWhile isIdentifierChar := by
    rw [List.dropWhile_cons_of_pos hchar, ← drop_length_takeWhile]
    rfl
  have hn : '\n' ∉ (x :: xs).take ((xs.takeWhile isIdentifierChar).length + 1) := by
    have hn := notMem_take_scan xs (identifierStart_ne_newline hstart)
    rwa [Token.scan_of_isIdentifierStart xs hstart] at hn
  have hmove := Cursor.move_skip (k := k) (c := ⟨o, x :: xs⟩) h hn
  have hended := Cursor.ended_skip (c := ⟨o, x :: xs⟩) h hn
  rw [readArgument, readArgument, Token.scan_of_isIdentifierStart xs hstart]
  generalize String.ofList (x :: xs.takeWhile isIdentifierChar) = name
  generalize (xs.takeWhile isIdentifierChar).length + 1 = n at hrest hmove hended
  -- behind the name both stand at the same place
  show State.Misled k u
    ⟨(Cursor.mk o (x :: xs)).skip n,
      .lexeme ⟨.identifier name, ⟨o, ((Cursor.mk o (x :: xs)).skip n).offset⟩⟩ :: .lexeme l :: is,
      .arguments true false :: frames⟩
    ⟨((Cursor.mk o (x :: xs)).move k u).skip n,
      .lexeme ⟨.identifier name, ⟨o + k, (((Cursor.mk o (x :: xs)).move k u).skip n).offset⟩⟩ ::
        .lexeme ⟨.endPositional, .at (o + k)⟩ :: .lexeme (l.move k) :: is.map (PatternItem.move k),
      .arguments false false :: frames.map (Frame.move k)⟩
  rw [hmove]
  generalize (Cursor.mk o (x :: xs)).skip n = d at hrest hended
  exact ⟨rfl, hended, by rwa [hrest], hcolon, ⟨_, rfl⟩, ⟨_, rfl⟩, name, ⟨o, d.offset⟩, rfl, parted_lexemes hl⟩

/-- **In arguments, a moved state follows, or it is misled.** That takes a name that begins an argument and ends the
text, but for spaces and line breaks; `hopens` is what the machine read in front of an argument. -/
theorem follows_readArguments (h : Ended u (x :: xs)) (hx : x ≠ '\n') {positional atStart : Bool}
    (hopens : atStart = true → ∃ l is, items = .lexeme l :: is ∧ l.OpensArgument) :
    Step.Follows k u (readArguments limit ⟨⟨o, x :: xs⟩, items, fs⟩ positional atStart frames)
      (readArguments limit ((State.mk ⟨o, x :: xs⟩ items fs).move k u) positional atStart
        (frames.map (Frame.move k))) := by
  have hn : '\n' ∉ (x :: xs).take 1 := notMem_take_one hx
  have hmark : ∀ b : Bool, (if b then ((State.mk ⟨o, x :: xs⟩ items fs).move k u).mark .endPositional
      else (State.mk ⟨o, x :: xs⟩ items fs).move k u) =
      (if b then (State.mk ⟨o, x :: xs⟩ items fs).mark .endPositional
        else ⟨⟨o, x :: xs⟩, items, fs⟩).move k u := by
    intro b
    cases b <;> rfl
  by_cases hclose : x = ')'
  · subst hclose
    have hmoves := moves_emit_frames (k := k) (t := .closeParen) (n := 1)
      (s := if positional then (State.mk ⟨o, ')' :: xs⟩ items fs).mark .endPositional
        else ⟨⟨o, ')' :: xs⟩, items, fs⟩) frames (by rw [cursor_markIf]; exact h) (by rw [cursor_markIf]; exact hn)
    rw [← hmark] at hmoves
    exact .moves hmoves
  by_cases hopen : x = '{'
  · subst hopen
    exact .moves (moves_openPlaceable
      (s := ⟨⟨o, '{' :: xs⟩, items, .arguments positional false :: frames⟩) h hn)
  by_cases hparen : x = '('
  · subst hparen
    exact .moves (moves_openArguments
      (s := ⟨⟨o, '(' :: xs⟩, items, .arguments positional false :: frames⟩) h hn)
  -- the token is the same, whatever stands behind
  rw [readArguments_otherwise rfl hclose hopen hparen, readArguments_otherwise rest_move hclose hopen hparen,
    ← List.cons_append]
  have hscan : ∀ named, readArgument ((State.mk ⟨o, x :: xs⟩ items fs).move k u) named positional
      (frames.map (Frame.move k)) x (xs ++ u) = readArgument ((State.mk ⟨o, x :: xs⟩ items fs).move k u) named
        positional (frames.map (Frame.move k)) x xs := by
    intro named
    rw [readArgument, h.scan hx]
    rfl
  -- with the same answer of the look-ahead both go on alike
  have hsame : ∀ named : Bool, Step.Moves k u
      (.next (readArgument ⟨⟨o, x :: xs⟩, items, fs⟩ named positional frames x xs))
      (.next (readArgument ((State.mk ⟨o, x :: xs⟩ items fs).move k u) named positional
        (frames.map (Frame.move k)) x xs)) := by
    intro named
    rw [readArgument, readArgument, hmark]
    exact moves_emit_frames
      (s := if named then (State.mk ⟨o, x :: xs⟩ items fs).mark .endPositional
        else ⟨⟨o, x :: xs⟩, items, fs⟩)
      (.arguments (positional && !named) ((Token.scan x xs).1 == .comma) :: frames)
      (by rw [cursor_markIf]; exact h) (by rw [cursor_markIf]; exact notMem_take_scan xs hx)
  rw [hscan]
  rcases h.namedArgumentAhead with hahead | ⟨hahead', hahead, hcolon, hgap⟩
  · rw [hahead]
    exact .moves (hsame _)
  by_cases hname : (positional && atStart && isIdentifierStart x) = true
  · -- only the moved machine takes the name for that of an argument
    rw [hname, hahead, hahead']
    simp only [Bool.and_eq_true] at hname
    obtain ⟨⟨rfl, rfl⟩, hstart⟩ := hname
    obtain ⟨l, is, rfl, hl⟩ := hopens rfl
    exact .misled rfl rfl (misled_readArgument h hstart hcolon hgap hl)
  · rw [Bool.not_eq_true] at hname
    rw [hname, Bool.false_and, Bool.false_and]
    exact .moves (hsame false)

/-- Past blanks, a moved state follows as it does where both have arrived. -/
theorem follows_onContent {s : State} (h : Ended u s.cursor.rest) {read read' : State → Step}
    (hread : ∀ (o : Nat) (x : Char) (xs : List Char), Ended u (x :: xs) → x ≠ '\n' →
      Step.Follows k u (read ⟨⟨o, x :: xs⟩, s.items, s.frames⟩)
        (read' ((State.mk ⟨o, x :: xs⟩ s.items s.frames).move k u)))
    (honward : ∀ d : Cursor, State.Onward { s.move k u with cursor := d }
      (read' { s.move k u with cursor := d }).state) :
    Step.Follows k u (s.onContent read) ((s.move k u).onContent read') := by
  have hskip : (s.move k u).cursor.skipBlank? = s.cursor.skipBlank?.map (Cursor.move k u) ∨
      GoesOn u ∧ ∃ d, (s.move k u).cursor.skipBlank? = some d ∧ d.rest <:+ u := Cursor.move_skipBlank? h
  unfold onContent
  rcases hskip with hskip | ⟨hgoes, henters⟩
  · rw [hskip]
    cases hd : s.cursor.skipBlank? with
    | none => exact .moves ⟨rfl, h⟩
    | some d =>
      obtain ⟨-, x, xs, -, -, hrest, hx, -⟩ := Cursor.over_skipBlank hd
      have hended := Cursor.ended_skipBlank? h hd
      obtain ⟨o, rest⟩ := d
      obtain rfl : rest = x :: xs := hrest
      have hbreak : x ≠ '\n' := by
        rintro rfl
        simp [isLayout] at hx
      exact hread o x xs hended hbreak
  · obtain ⟨d, hd, hsuffix⟩ := henters
    rw [hd]
    exact .enters ⟨hgoes, (honward d).rest.trans hsuffix⟩

end Readers

/-- **A moved state follows.** From a state on a text and the same state further on, with more behind the text, a step
leads to such states again, unless the text is at its end: then the moved state may go on behind it, or has taken a name
for that of a named argument. -/
theorem follows_step (limit : Nat) (hs : s.Primed) (h : Ended u s.cursor.rest) :
    Step.Follows k u (s.step limit) ((s.move k u).step limit) := by
  obtain ⟨c, items, frames⟩ := s
  unfold step
  cases frames with
  | nil => exact follows_betweenAttributes (s := ⟨c, items, []⟩) h
  | cons f frames =>
    cases f with
    | pattern outer breaks indent =>
      exact follows_readText (s := ⟨c, items, .pattern outer breaks indent :: frames⟩) h
    | placeable =>
      exact follows_onContent (s := ⟨c, items, .placeable :: frames⟩) h
        (fun _ _ _ h hx => .moves (moves_readPlaceable h hx)) fun _ => onward_readPlaceable rfl
    | arguments positional atStart =>
      exact follows_onContent (s := ⟨c, items, .arguments positional atStart :: frames⟩) h
        (fun _ _ _ h hx => follows_readArguments h hx fun hstart => hs.opensArgument (by rw [hstart]))
        fun _ => onward_readArguments rfl
    | variants =>
      exact follows_onContent (s := ⟨c, items, .variants :: frames⟩) h
        (fun _ _ _ h hx => .moves (moves_readVariants h hx)) fun _ => onward_readVariants rfl
    | key read =>
      exact follows_onContent (s := ⟨c, items, .key read :: frames⟩) h
        (fun _ _ _ h hx => follows_readKey h hx) fun _ => onward_readKey rfl

/-! ## Runs -/

/-- A moved run ends as the other does, or it leaves the text, or both end behind the name that misled the moved one. -/
inductive RunFollows (k : Nat) (u : List Char) (y y' : Ending × State) : Prop
  | moves : y' = (y.1.move k, y.2.move k u) → Ended u y.2.cursor.rest → RunFollows k u y y'
  | leaves : GoesOn u ∨ ColonAhead u → y'.2.cursor.rest <:+ u → RunFollows k u y y'
  | misled : y.2.Misled k u y'.2 → RunFollows k u y y'

/-- Layout that is skipped in front of something else reaches at least to the end of a gap. -/
theorem suffix_of_gap {gap skipped rest : List Char} {x : Char} (h : gap ++ u = skipped ++ x :: rest)
    (hgap : ∀ y ∈ gap, isGap y = true) (hx : isLayout x = false) : x :: rest <:+ u := by
  obtain ⟨more, rfl, hu⟩ | ⟨more, hgap', hu⟩ := List.append_eq_append_iff.1 h
  · exact ⟨more, hu.symm⟩
  · cases more with
    | nil => exact ⟨[], by simpa using hu⟩
    | cons y ys =>
      -- what is skipped would end within the gap, in front of layout
      obtain rfl : x = y := (List.cons.inj hu).1
      have hy : isGap x = true := hgap x (by simp [hgap'])
      simp only [isGap, Bool.or_eq_true, beq_iff_eq] at hy
      simp only [isLayout, Line.isBlankChar, Bool.or_eq_false_iff, beq_eq_false_iff_ne] at hx
      tauto

/-- Where nothing goes on with the arguments of a call, the machine stops. -/
theorem run_of_arguments {positional atStart : Bool} {fs : List Frame}
    (hframes : s.frames = .arguments positional atStart :: fs) (hnone : s.cursor.skipBlank? = none) :
    s.run limit = (.cutShort, s) := by
  have hstop : s.step limit = .stop .cutShort s := by
    rw [step, hframes]
    simp only [onContent, hnone]
  rw [run, hstop]

/-- A misled machine stops with the name that it read, or it leaves the text. -/
theorem run_of_misled (limit : Nat) {s' : State} (h : s.Misled k u s') :
    (s.run limit).2 = s ∧ ((s'.run limit).2 = s' ∨ (s'.run limit).2.cursor.rest <:+ u) := by
  have hskip : ∀ {v : List Char} {t : State} {d : Cursor}, t.cursor.rest = s.cursor.rest ++ v →
      t.cursor.skipBlank? = some d → d.rest <:+ v := by
    intro v t d ht hd
    obtain ⟨skipped, x, rest, -, hover, hrestd, hx, -⟩ := Cursor.over_skipBlank hd
    have hsplit : s.cursor.rest ++ v = skipped ++ x :: rest := by rw [← ht, hover.rest, hrestd]
    exact hrestd ▸ suffix_of_gap hsplit h.gap hx
  obtain ⟨fs, hframes⟩ := h.frame
  obtain ⟨fs', hframes'⟩ := h.frame'
  constructor
  · cases hd : s.cursor.skipBlank? with
    | none => rw [run_of_arguments hframes hd]
    | some d =>
      obtain ⟨-, x, rest, -, -, hrestd, -⟩ := Cursor.over_skipBlank hd
      have hnil := List.suffix_nil.1 (hskip (v := []) (List.append_nil _).symm hd)
      exact absurd (hrestd.symm.trans hnil) (List.cons_ne_nil x rest)
  · cases hd : s'.cursor.skipBlank? with
    | none =>
      left
      rw [run_of_arguments hframes' hd]
    | some d =>
      right
      have hd' : d.rest <:+ u := hskip (by rw [h.cursor]; rfl) hd
      have hstep : s'.step limit = readArguments limit { s' with cursor := d } false false fs' := by
        rw [step, hframes']
        simp only [onContent, hd, hframes']
      have hread : State.Onward { s' with cursor := d }
          (readArguments limit { s' with cursor := d } false false fs').state := onward_readArguments hframes'
      have honward := onward_run_step limit s'
      rw [hstep] at honward
      exact honward.rest.trans (hread.rest.trans hd')

/-- A run goes on from the state that its first step leads to. -/
theorem run_of_next {t : State} (h : s.step limit = .next t) : s.run limit = t.run limit := by
  rw [run, h]

/-- **A moved run follows.** The induction is on the run in the text alone. As long as both machines make the same moves,
both stay primed, so that the step at which the moved one is misled reads a name behind a parenthesis or a comma; that
step is the last one of either, or the moved machine has left the text. -/
theorem follows_run (limit : Nat) (hs : s.Primed) (h : Ended u s.cursor.rest) :
    RunFollows k u (s.run limit) ((s.move k u).run limit) := by
  fun_induction run limit s with
  | case1 s t hstep ih =>
    have hprimed := primed_step limit hs
    have hfollows := follows_step (k := k) limit hs h
    rw [hstep] at hprimed hfollows
    cases hfollows with
    | moves hmoves =>
      rw [run_of_next hmoves.1]
      exact ih hprimed hmoves.2
    | enters henters => exact .leaves (.inl henters.1) ((onward_run_step limit _).rest.trans henters.2)
    | @misled t₁ t' ht ht' hmisled =>
      obtain rfl := Step.next.inj ht
      obtain ⟨hrun, hrun' | hrest⟩ := run_of_misled limit hmisled
      · refine .misled ?_
        rwa [run_of_next ht', hrun, hrun']
      · refine .leaves (.inr hmisled.colon) ?_
        rwa [run_of_next ht']
  | case2 s e t hstep =>
    have hfollows := follows_step (k := k) limit hs h
    rw [hstep] at hfollows
    cases hfollows with
    | moves hmoves =>
      refine .moves ?_ hmoves.2
      rw [run, hmoves.1]
      rfl
    | enters henters => exact .leaves (.inl henters.1) ((onward_run_step limit _).rest.trans henters.2)
    | misled ht => exact Step.noConfusion ht

/-- In front of a header no run leaves the text, and no name misleads it. -/
theorem RunFollows.moves_of_headed {y y' : Ending × State} (h : RunFollows k u y y') (hu : Headed u) :
    y' = (y.1.move k, y.2.move k u) ∧ Ended u y.2.cursor.rest := by
  cases h with
  | moves hmoves hend => exact ⟨hmoves, hend⟩
  | leaves hleaves =>
    rcases hleaves with hgoes | hcolon
    · exact absurd hgoes hu.not_goesOn
    · exact absurd hcolon hu.not_colonAhead
  | misled hmisled => exact absurd hmisled.colon hu.not_colonAhead

end State

end Fluent
