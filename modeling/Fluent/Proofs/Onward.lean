import Fluent.Proofs.Machine

/-!
# The machine only goes on

A step never moves the cursor back, and it loses no token that was read: tokens are only put behind others, or,
when a pattern closes, next to those read before it.

* `State.Onward s s'`: the cursor of `s'` is further on, and it still has the tokens of `s`.
* `State.onward_step`, `State.onward_run`: a step and a run go on.
* `State.mem_lexemes`: what a state holds is among its tokens.
-/

namespace Fluent

/-- The state that a step leads to or stops at. -/
def Step.state : Step → State
  | next s | stop _ s => s

namespace Cursor

variable {c d : Cursor}

theorem Over.suffix {text : List Char} (h : c.Over text d) : d.rest <:+ c.rest := ⟨text, h.rest.symm⟩

theorem suffix_skip (n : Nat) (c : Cursor) : (c.skip n).rest <:+ c.rest := (over_skip n c).suffix

theorem suffix_skipWhile (p : Char → Bool) (c : Cursor) : (c.skipWhile p).rest <:+ c.rest :=
  (over_skipWhile p c).suffix

theorem suffix_toContent {l : Line.Next} (h : Line.nextContent? c.rest = some l) :
    (c.toContent l).rest <:+ c.rest := by
  obtain ⟨_, -, hover⟩ := over_toContent h
  exact hover.suffix

theorem suffix_skipBlank? (h : c.skipBlank? = some d) : d.rest <:+ c.rest := by
  obtain ⟨_, _, _, -, hover, -⟩ := over_skipBlank h
  exact hover.suffix

end Cursor

namespace State

/-- The items of a state, those of the constructs around the innermost one included. -/
def held (s : State) : List PatternItem := s.items ++ Reads.outerItems s.frames

/-- One state comes after another: the cursor is further on, and no token is lost. Items may still be moved, and runs of
text become tokens later. -/
structure Onward (s s' : State) : Prop where
  rest : s'.cursor.rest <:+ s.cursor.rest
  held : ∀ l, .lexeme l ∈ s.held → .lexeme l ∈ s'.held

namespace Onward

variable {s s' s'' : State}

theorem refl (s : State) : s.Onward s := ⟨List.suffix_refl _, fun _ hl => hl⟩

theorem trans (h : s.Onward s') (h' : s'.Onward s'') : s.Onward s'' :=
  ⟨h'.rest.trans h.rest, fun l hl => h'.held l (h.held l hl)⟩

/-- Moving the cursor on. -/
theorem move {d : Cursor} (h : d.rest <:+ s.cursor.rest) : s.Onward { s with cursor := d } :=
  ⟨h, fun _ hl => hl⟩

/-- Exchanging the open constructs for others that hold the same items. -/
theorem reframe {fs : List Frame} (h : Reads.outerItems fs = Reads.outerItems s.frames) :
    s.Onward { s with frames := fs } := by
  refine ⟨List.suffix_refl _, ?_⟩
  intro l hl
  rwa [State.held, h]

theorem emit (s : State) (t : Token) (n : Nat) : s.Onward (s.emit t n) :=
  ⟨Cursor.suffix_skip n s.cursor, fun _ hl => List.mem_cons_of_mem _ hl⟩

theorem mark (s : State) (t : Token) : s.Onward (s.mark t) :=
  ⟨List.suffix_refl _, fun _ hl => List.mem_cons_of_mem _ hl⟩

end Onward

variable {s : State} {limit : Nat} {fs : List Frame}

theorem onward_emitUnfinished (s : State) : s.Onward s.emitUnfinished := .emit s _ _

theorem onward_toLineEnd (s : State) : s.Onward s.toLineEnd := .move (Cursor.suffix_skipWhile _ _)

theorem onward_finishLine (s : State) : s.Onward s.finishLine := by
  unfold finishLine
  split
  · exact onward_toLineEnd s
  · exact onward_emitUnfinished s

theorem onward_emitAssignment (s : State) (a : Line.Assignment) : s.Onward (s.emitAssignment a) :=
  (Onward.emit s _ _).trans ((Onward.move (Cursor.suffix_skip _ _)).trans (.emit _ _ _))

/-- A pattern that opens holds what was read before it. -/
theorem onward_openPattern (s : State) (indent : Option Nat) : s.Onward (s.openPattern indent) := by
  refine (Onward.mark s .patternStart).trans ⟨List.suffix_refl _, ?_⟩
  intro l hl
  simpa [openPattern, State.held, Reads.outerItems] using hl

theorem onward_beginValue (s : State) : s.Onward s.beginValue := by
  have hspaces := Cursor.suffix_skipWhile (· == ' ') s.cursor
  have hvalue := s.valueBegins
  generalize s.beginValue = t at hvalue ⊢
  cases hvalue with
  | inline => exact (Onward.move hspaces).trans (onward_openPattern _ _)
  | below _ hl =>
    have hend := (Cursor.suffix_skipWhile (· != '\n') (s.cursor.skipWhile (· == ' '))).trans hspaces
    exact (Onward.move ((Cursor.suffix_toContent hl).trans hend)).trans (onward_openPattern _ _)
  | missing => exact (Onward.move hspaces).trans ((Onward.mark _ _).trans (onward_toLineEnd _))

/-- Dedenting loses no token. -/
theorem lexeme_mem_dedent {is : List PatternItem} {l : Lexeme} (h : .lexeme l ∈ is) : l ∈ dedent is :=
  List.mem_filterMap.2 ⟨.lexeme l, h, rfl⟩

theorem onward_closePattern (run : TextRun) {outer : List PatternItem}
    (houter : Reads.outerItems s.frames = outer ++ Reads.outerItems fs) :
    s.Onward (s.closePattern run outer fs) := by
  refine ⟨List.suffix_refl _, ?_⟩
  intro l hl
  apply List.mem_cons_of_mem
  show PatternItem.lexeme l ∈ (dedent (.run run.trimEnd :: s.items)).map .lexeme ++ outer ++ Reads.outerItems fs
  rw [State.held, houter, List.mem_append] at hl
  rcases hl with hitem | houter
  · have hdedent := lexeme_mem_dedent (List.mem_cons_of_mem (.run run.trimEnd) hitem)
    simpa using .inl hdedent
  · simpa using .inr (List.mem_append.1 houter)

/-! ## Steps -/

theorem onward_attribute (s : State) :
    s.Onward (match Line.attributeHeader? s.cursor.rest with
      | some a => Step.next ((s.emit .dot 1).emitAssignment a).beginValue
      | none => .next s.emitUnfinished).state := by
  split
  · exact (Onward.emit _ _ _).trans ((onward_emitAssignment _ _).trans (onward_beginValue _))
  · exact onward_emitUnfinished s

/-- What follows an attribute is looked for from the end of its line on. -/
theorem onward_finishLine_betweenAttributes (s : State) : s.finishLine.Onward s.betweenAttributes.state := by
  unfold betweenAttributes
  generalize s.finishLine = t
  simp only
  split
  · rename_i l hl
    split
    · have hcontent : t.Onward { t with cursor := t.cursor.toContent l } := .move (Cursor.suffix_toContent hl)
      exact hcontent.trans (onward_attribute _)
    · exact .refl t
  · exact .refl t

/-- Between attributes the machine moves on to the next line with content, or stops at the end of its line. -/
theorem onward_betweenAttributes (s : State) : s.Onward s.betweenAttributes.state :=
  (onward_finishLine s).trans (onward_finishLine_betweenAttributes s)

/-- A construct that holds no items is opened, or the rest of the line is read. -/
theorem onward_open {f : Frame} (hf : Reads.outerItems [f] = []) (t : Token) (e : Ending) :
    s.Onward (if s.depth < limit then Step.next { s.emit t 1 with frames := f :: s.frames }
      else .stop e s.emitUnfinished).state := by
  split
  · refine (Onward.emit s t 1).trans (.reframe ?_)
    rw [Reads.outerItems_cons, hf]
    rfl
  · exact onward_emitUnfinished s

theorem onward_openPlaceable (s : State) : s.Onward (s.openPlaceable limit).state := onward_open rfl _ _

theorem onward_openArguments (s : State) : s.Onward (s.openArguments limit).state := onward_open rfl _ _

/-- In a pattern no token is lost, also where it ends: its items become tokens, and are put on those of the pattern
around it. -/
theorem onward_readText {outer : List PatternItem} {breaks : Nat} {indent : Option Nat}
    (hfs : s.frames = .pattern outer breaks indent :: fs) :
    s.Onward (s.readText limit outer breaks indent fs).state := by
  have houter : Reads.outerItems s.frames = outer ++ Reads.outerItems fs := by
    rw [hfs]
    rfl
  -- a run of text is added, and the pattern goes on
  have hrun : ∀ (d : Cursor) (r : TextRun) (breaks : Nat) (indent : Option Nat), d.rest <:+ s.cursor.rest →
      s.Onward ⟨d, .run r :: s.items, .pattern outer breaks indent :: fs⟩ := by
    intro d r breaks indent hd
    refine ⟨hd, ?_⟩
    intro l hl
    rw [State.held, houter] at hl
    exact List.mem_cons_of_mem _ hl
  have hread := s.textReads limit outer breaks indent fs
  generalize s.readText limit outer breaks indent fs = step at hread ⊢
  cases hread with
  | placeable hover => exact (hrun _ _ 0 none hover.suffix).trans (onward_openPlaceable _)
  | below hover _ _ hl => exact hrun _ _ _ _ ((Cursor.suffix_toContent hl).trans hover.suffix)
  | last hover => exact (Onward.move hover.suffix).trans (onward_closePattern _ houter)

theorem onward_emitScanned (s : State) : s.Onward s.emitScanned.state := by
  unfold emitScanned
  split
  · exact .refl s
  · exact .emit s _ _

theorem onward_readPlaceable (hfs : s.frames = .placeable :: fs) :
    s.Onward (s.readPlaceable limit fs).state := by
  have houter := Reads.outerItems_of_frames hfs rfl
  have hreads := s.placeableReads limit fs
  generalize s.readPlaceable limit fs = r at hreads
  cases hreads with
  | close => exact (Onward.emit s _ _).trans (.reframe houter)
  | placeable => exact onward_openPlaceable s
  | arguments => exact onward_openArguments s
  | arrow => exact (Onward.emit s _ _).trans (.reframe houter)
  | token => exact onward_emitScanned s

theorem onward_readArguments {positional atStart : Bool} (hfs : s.frames = .arguments positional atStart :: fs) :
    s.Onward (s.readArguments limit positional atStart fs).state := by
  have houter := Reads.outerItems_of_frames hfs rfl
  have hmark : ∀ b : Bool, s.Onward (if b then s.mark .endPositional else s) := by
    intro b
    cases b
    · exact .refl s
    · exact .mark s _
  have hreframe : s.Onward { s with frames := .arguments positional false :: fs } := .reframe houter
  have hreads := s.argumentsReads limit positional atStart fs
  generalize s.readArguments limit positional atStart fs = r at hreads
  cases hreads with
  | nothing => exact .refl s
  | close =>
    refine (hmark positional).trans ((Onward.emit _ _ _).trans (.reframe ?_))
    exact houter.trans (congrArg Reads.outerItems (frames_markIf s positional _).symm)
  | placeable => exact hreframe.trans (onward_openPlaceable _)
  | arguments => exact hreframe.trans (onward_openArguments _)
  | token =>
    refine (hmark _).trans ((Onward.emit _ _ _).trans (.reframe ?_))
    exact houter.trans (congrArg Reads.outerItems (frames_markIf s _ _).symm)

theorem onward_readVariants (hfs : s.frames = .variants :: fs) : s.Onward (s.readVariants fs).state := by
  have houter := Reads.outerItems_of_frames hfs rfl
  have hreads := s.variantsReads fs
  generalize s.readVariants fs = r at hreads
  cases hreads with
  | close => exact (Onward.emit s _ _).trans (.reframe houter)
  | key => exact (Onward.emit s _ _).trans (.reframe rfl)
  | token => exact onward_emitScanned s

theorem onward_readKey {read : Bool} (hfs : s.frames = .key read :: fs) : s.Onward (s.readKey read fs).state := by
  have houter := Reads.outerItems_of_frames hfs rfl
  have hreads := s.keyReads read fs
  generalize s.readKey read fs = r at hreads
  cases hreads with
  | close =>
    exact (Onward.emit s _ _).trans ((Onward.reframe (s := s.emit .closeBracket 1) houter).trans
      (onward_beginValue _))
  | unclosed => exact .reframe houter
  | token =>
    have hreframe : s.Onward { s with frames := .key true :: fs } := .reframe houter
    exact hreframe.trans (onward_emitScanned _)

/-- Passing layout and then reading is to go on, if reading is. -/
theorem onward_onContent {read : State → Step}
    (hread : ∀ d : Cursor, State.Onward { s with cursor := d } (read { s with cursor := d }).state) :
    s.Onward (s.onContent read).state := by
  unfold onContent
  split
  · exact .refl s
  · rename_i d hd
    exact (Onward.move (Cursor.suffix_skipBlank? hd)).trans (hread d)

/-- **A step goes on.** It takes nothing back: the cursor is where it was or further on, and the tokens that were read
are kept. -/
theorem onward_step (limit : Nat) (s : State) : s.Onward (s.step limit).state := by
  have hreads := s.stepReads limit
  generalize s.step limit = r at hreads
  cases hreads with
  | outside => exact onward_betweenAttributes s
  | pattern hfs => exact onward_readText hfs
  | placeable hfs => exact onward_onContent fun _ => onward_readPlaceable hfs
  | arguments hfs => exact onward_onContent fun _ => onward_readArguments hfs
  | variants hfs => exact onward_onContent fun _ => onward_readVariants hfs
  | key hfs => exact onward_onContent fun _ => onward_readKey hfs

/-- **A run goes on**, already behind its first step. So what this step reads is among the tokens in the end. -/
theorem onward_run_step (limit : Nat) (s : State) : (s.step limit).state.Onward (s.run limit).2 := by
  fun_induction run limit s with
  | case1 s t hstep ih =>
    rw [hstep]
    exact (onward_step limit t).trans ih
  | case2 s e t hstep =>
    rw [hstep]
    exact .refl t

theorem onward_run (limit : Nat) (s : State) : s.Onward (s.run limit).2 :=
  (onward_step limit s).trans (onward_run_step limit s)

/-- The items of open patterns become tokens. -/
theorem mem_unwind {l : Lexeme} (fs : List Frame) (is : List PatternItem)
    (h : .lexeme l ∈ is ++ Reads.outerItems fs) : l ∈ unwind fs is := by
  induction fs generalizing is with
  | nil => exact lexeme_mem_dedent (by simpa [Reads.outerItems] using h)
  | cons f fs ih =>
    cases f with
    | pattern outer breaks indent =>
      apply ih
      have hsplit : PatternItem.lexeme l ∈ is ∨ .lexeme l ∈ outer ++ Reads.outerItems fs := List.mem_append.1 h
      rcases hsplit with hitem | houter
      · have hdedent := lexeme_mem_dedent hitem
        simpa using .inl hdedent
      · simpa using .inr (List.mem_append.1 houter)
    | placeable => exact ih is h
    | arguments => exact ih is h
    | variants => exact ih is h
    | key => exact ih is h

/-- What a state holds is among its tokens. -/
theorem mem_lexemes {l : Lexeme} (h : .lexeme l ∈ s.held) : l ∈ s.lexemes :=
  List.mem_reverse.2 (mem_unwind s.frames s.items h)

end State

end Fluent
