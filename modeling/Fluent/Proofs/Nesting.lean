import Fluent.Proofs.Depth
import Fluent.Proofs.Kept

/-!
# The nesting limit

The machine keeps the constructs that are open as frames, and they are those that the tokens it has read leave open.
So it knows the depth of a placeable or an argument list before it opens it. Where the limit does not allow that, the
machine stops at a line that belongs nowhere, and no entry holds such a line. So a lower limit takes away exactly the
entries that go deeper, and leaves the others as they are.

* `State.Walks s ds s'`: the tokens read between two states lead from the open constructs of one to those of the
  other, and reach the depths `ds`.
* `State.walks_step`, `State.walks_run`: a step and a run walk, and reach no depth beyond the limit.
* `State.agrees_step`, `State.agrees_run`: under a lower limit the machine does the same, or stops where the other one
  goes deeper.
* `entryAt_limit`, `keptFrom_limit`: what a header line opens, and what a body keeps, under a lower limit.
* `parse_nesting`: **the messages and terms under a lower limit**.
-/

namespace Fluent

/-! ## Frames and tokens -/

/-- The open construct that a frame stands for. Once the key is read, the brackets around it mean nothing more. -/
def Frame.open? : Frame → Option Open
  | pattern .. => some .value
  | placeable => some .placeable
  | arguments .. => some .arguments
  | variants => some .variants
  | key false => some .key
  | key true => none

def openOf (fs : List Frame) : List Open := fs.filterMap Frame.open?

def PatternItem.sign? : PatternItem → Option Token
  | run _ => none
  | lexeme l => l.sign?

/-- The brackets, each of which is a token of its own. -/
def Token.bracket? : Token → Option Char
  | openBrace => some '{'
  | closeBrace => some '}'
  | openBracket => some '['
  | closeBracket => some ']'
  | openParen => some '('
  | closeParen => some ')'
  | _ => none

/-- A bracket that is read stands there. -/
theorem Token.eq_of_scan {x y : Char} {xs : List Char} (h : (scan x xs).1.bracket? = some y) : x = y := by
  have hscans := scans x xs
  generalize (scan x xs).1 = t, (scan x xs).2 = more at hscans h
  cases hscans with
  | sign =>
    unfold ofChar at h
    split at h <;> first | exact Option.some.inj h | cases h
  | _ => cases h

/-- So does an arrow. -/
theorem Token.arrow_of_scan {x : Char} {xs : List Char} (h : (scan x xs).1 = .arrow) :
    ∃ ys, x :: xs = '-' :: '>' :: ys := by
  have hscans := scans x xs
  generalize (scan x xs).1 = t, (scan x xs).2 = more at hscans h
  cases hscans with
  | arrow hx hxs => exact ⟨_, by rw [hx, hxs]⟩
  | sign =>
    unfold ofChar at h
    split at h <;> cases h
  | _ => cases h

/-- An expression token is neither text nor one of the markers around it. -/
theorem Token.sign?_scan (x : Char) (xs : List Char) (span : Span) :
    Lexeme.sign? ⟨(scan x xs).1, span⟩ = some (scan x xs).1 ∧ (scan x xs).1 ≠ .patternStart ∧
      (scan x xs).1 ≠ .patternEnd := by
  have hscans := scans x xs
  generalize (scan x xs).1 = t, (scan x xs).2 = more at hscans ⊢
  cases hscans with
  | sign =>
    unfold ofChar
    split <;> exact ⟨rfl, nofun, nofun⟩
  | _ => exact ⟨rfl, nofun, nofun⟩

/-- The brackets that mean something for a construct. -/
def Open.brackets : Open → List Char
  | value => ['{']
  | placeable => ['{', '}', '(']
  | arguments => ['{', '(', ')']
  | variants => ['[', '}']
  | key => []

/-- Other expression tokens change nothing, but for the arrow of a placeable, and the key itself. -/
theorem stackAfter_scan {x : Char} {xs : List Char} {c : Open} (st : List Open) (hx : x ∉ c.brackets)
    (harrow : c = .placeable → ∀ ys, x :: xs ≠ '-' :: '>' :: ys) (hkey : c ≠ .key) :
    stackAfter (Token.scan x xs).1 (c :: st) = c :: st := by
  have hbracket : ∀ y ∈ c.brackets, (Token.scan x xs).1.bracket? ≠ some y := by
    rintro y hy hscan
    rw [Token.eq_of_scan hscan] at hx
    exact hx hy
  have hnoArrow : c = .placeable → (Token.scan x xs).1 ≠ .arrow := by
    intro hc hscan
    obtain ⟨ys, hys⟩ := Token.arrow_of_scan hscan
    exact harrow hc ys hys
  obtain ⟨-, hstart, hend⟩ := Token.sign?_scan x xs default
  generalize (Token.scan x xs).1 = t at *
  rw [stackAfter, if_neg hstart]
  cases c <;> cases t <;> simp_all [Open.after, Open.brackets, Token.bracket?]

namespace State

/-- The constructs that are open. -/
def opens (s : State) : List Open := openOf s.frames

/-- The tokens read so far, but for text. -/
def signs (s : State) : List Token := (s.held.filterMap PatternItem.sign?).reverse

variable {s s' s'' : State} {t : Token} {n : Nat} {ds es : List Nat} {fs : List Frame} {limit : Nat}

/-- The depth that the machine counts on its frames is that of the constructs its tokens leave open. -/
theorem depth_eq (s : State) : s.depth = openDepth s.opens := by
  rw [depth, openDepth, opens, openOf, List.countP_filterMap]
  congr 1
  funext f
  cases f with
  | key read => cases read <;> rfl
  | _ => rfl

section

variable {β : Type} {f : PatternItem → Option β}

/-- What is read off some items, if nothing is read off text, is read off their tokens. -/
theorem filterMap_dedent (hrun : ∀ r, f (.run r) = none) (htext : ∀ text span, f (.lexeme ⟨.pureText text, span⟩) = none)
    (is : List PatternItem) : ((dedent is).map .lexeme).filterMap f = is.filterMap f := by
  rw [dedent, List.filterMap_map, List.filterMap_filterMap]
  congr 1
  funext i
  cases i with
  | lexeme l => rfl
  | run r =>
    rw [PatternItem.settle?, hrun]
    split
    · rfl
    · exact htext _ _

theorem filterMap_unwind (hrun : ∀ r, f (.run r) = none) (htext : ∀ text span, f (.lexeme ⟨.pureText text, span⟩) = none)
    (fs : List Frame) (is : List PatternItem) :
    ((unwind fs is).map .lexeme).filterMap f = (is ++ Reads.outerItems fs).filterMap f := by
  induction fs generalizing is with
  | nil => rw [unwind, filterMap_dedent hrun htext, Reads.outerItems, List.flatMap_nil, List.append_nil]
  | cons g fs ih =>
    cases g with
    | pattern outer breaks indent =>
      rw [unwind, ih]
      simp only [Reads.outerItems, List.flatMap_cons, List.filterMap_append, filterMap_dedent hrun htext,
        List.append_assoc]
    | _ => exact ih is

end

theorem signs_map_lexeme (ls : List Lexeme) :
    (ls.map PatternItem.lexeme).filterMap PatternItem.sign? = ls.filterMap Lexeme.sign? := by
  rw [List.filterMap_map]
  rfl

theorem signs_dedent (is : List PatternItem) :
    ((dedent is).map .lexeme).filterMap PatternItem.sign? = is.filterMap PatternItem.sign? :=
  filterMap_dedent (fun _ => rfl) (fun _ _ => rfl) is

/-- The tokens of a state, but for text. -/
theorem signs_lexemes (s : State) : s.lexemes.filterMap Lexeme.sign? = s.signs := by
  rw [lexemes, List.filterMap_reverse, ← signs_map_lexeme, filterMap_unwind (fun _ => rfl) fun _ _ => rfl]
  rfl

/-- The tokens read between two states lead from the open constructs of one to those of the other, and reach some
depths. So the depths of an entry can be told from its tokens alone. -/
def Walks (s : State) (ds : List Nat) (s' : State) : Prop :=
  ∃ ts, s'.signs = s.signs ++ ts ∧ stackBehind s.opens ts = s'.opens ∧ depthsFrom s.opens ts = ds

namespace Walks

/-- Nothing is read. -/
theorem of_eq (hsigns : s'.signs = s.signs) (hopens : s'.opens = s.opens) : s.Walks [] s' :=
  ⟨[], by rw [hsigns, List.append_nil], hopens.symm, rfl⟩

theorem refl (s : State) : s.Walks [] s := of_eq rfl rfl

theorem trans (h : s.Walks ds s') (h' : s'.Walks es s'') : s.Walks (ds ++ es) s'' := by
  obtain ⟨ts, hsigns, hopens, hdepths⟩ := h
  obtain ⟨us, hsigns', hopens', hdepths'⟩ := h'
  refine ⟨ts ++ us, ?_, ?_, ?_⟩
  · rw [hsigns', hsigns, List.append_assoc]
  · rw [stackBehind, List.foldl_append, ← stackBehind, ← stackBehind, hopens, hopens']
  · rw [depthsFrom_append, hdepths, hopens, hdepths']

/-- One token is read. -/
theorem sign (hsigns : s'.signs = s.signs ++ [t]) (hopens : s'.opens = stackAfter t s.opens) :
    s.Walks (reached s.opens s'.opens) s' :=
  ⟨[t], hsigns, hopens.symm, by rw [depthsFrom, depthsFrom, List.append_nil, hopens]⟩

/-- One token is read, and nothing deeper is opened. -/
theorem pass (hsigns : s'.signs = s.signs ++ [t]) (hopens : s'.opens = stackAfter t s.opens)
    (hle : openDepth s'.opens ≤ openDepth s.opens) : s.Walks [] s' := by
  have hsign := sign hsigns hopens
  rwa [reached_of_le hle] at hsign

end Walks

/-- The items around an emitted token stay. -/
theorem signs_emit (s : State) (n : Nat) (ht : ∀ span, Lexeme.sign? ⟨t, span⟩ = some t) :
    (s.emit t n).signs = s.signs ++ [t] := by
  simp [signs, held, emit, PatternItem.sign?, ht]

theorem signs_mark (s : State) (ht : ∀ span, Lexeme.sign? ⟨t, span⟩ = some t) : (s.mark t).signs = s.signs ++ [t] := by
  simp [signs, held, mark, PatternItem.sign?, ht]

theorem signs_reframe (s : State) (h : Reads.outerItems fs = Reads.outerItems s.frames) :
    State.signs { s with frames := fs } = s.signs := by
  rw [signs, signs, held, held, h]

/-- A token that leaves the open constructs as they are. -/
theorem walks_emit (ht : ∀ span, Lexeme.sign? ⟨t, span⟩ = some t) (hst : stackAfter t s.opens = s.opens) :
    s.Walks [] (s.emit t n) := .pass (signs_emit s n ht) hst.symm (Nat.le_refl _)

theorem walks_mark (ht : ∀ span, Lexeme.sign? ⟨t, span⟩ = some t) (hst : stackAfter t s.opens = s.opens) :
    s.Walks [] (s.mark t) := .pass (signs_mark s ht) hst.symm (Nat.le_refl _)

/-- A token that closes or exchanges the innermost construct. -/
theorem walks_emit_reframe (ht : ∀ span, Lexeme.sign? ⟨t, span⟩ = some t)
    (hitems : Reads.outerItems fs = Reads.outerItems s.frames) (hst : stackAfter t s.opens = openOf fs)
    (hle : openDepth (openOf fs) ≤ openDepth s.opens) : s.Walks [] { s.emit t n with frames := fs } := by
  refine .pass (t := t) ?_ hst.symm hle
  rw [← signs_emit s n ht]
  exact signs_reframe (s.emit t n) hitems

/-! ## Values and attributes -/

theorem walks_openPattern (s : State) (indent : Option Nat) : s.Walks [] (s.openPattern indent) := by
  refine .pass (t := .patternStart) ?_ rfl (Nat.le_refl _)
  rw [← signs_mark s fun _ => rfl]
  rfl

theorem walks_beginValue (hkey : s.opens.head? ≠ some .key) : s.Walks [] s.beginValue := by
  have hvalue := s.valueBegins
  generalize s.beginValue = t at hvalue ⊢
  cases hvalue with
  | inline => exact walks_openPattern { s with cursor := _ } none
  | below => exact walks_openPattern { s with cursor := _ } _
  | missing =>
    exact .pass (signs_mark { s with cursor := _ } fun _ => rfl) (stackAfter_patternSkip hkey).symm (Nat.le_refl _)

/-- Outside of values a token opens nothing, but for the marker of a value. -/
theorem walks_emit_outside (hs : s.opens = []) (ht : ∀ span, Lexeme.sign? ⟨t, span⟩ = some t)
    (hstart : t ≠ .patternStart) : s.Walks [] (s.emit t n) := by
  refine walks_emit ht ?_
  rw [hs, stackAfter, if_neg hstart]

theorem walks_emitAssignment (hs : s.opens = []) (a : Line.Assignment) : s.Walks [] (s.emitAssignment a) := by
  have hname : s.Walks [] (s.emit (.identifier (String.ofList a.name)) a.name.length) :=
    walks_emit_outside hs (fun _ => rfl) nofun
  exact hname.trans (walks_emit_outside (s := { s.emit (.identifier (String.ofList a.name)) a.name.length with
    cursor := _ }) hs (fun _ => rfl) nofun)

/-- Between attributes nothing is opened that counts: only the dot, the name and the sign are read, and a value
begins. -/
theorem walks_betweenAttributes (hs : s.opens = []) : s.Walks [] s.betweenAttributes.state := by
  have hfinish : s.Walks [] s.finishLine ∧ s.finishLine.opens = [] := by
    unfold finishLine
    split
    · exact ⟨.of_eq rfl rfl, hs⟩
    · exact ⟨walks_emit_outside hs (fun _ => rfl) nofun, hs⟩
  obtain ⟨hwalks, ht⟩ := hfinish
  refine hwalks.trans ?_
  have hfollows := s.attributeFollows
  generalize s.finishLine = t, s.betweenAttributes = step at ht hfollows ⊢
  cases hfollows with
  | @header l a =>
    have hdot : t.Walks [] (State.emit { t with cursor := t.cursor.toContent l } .dot 1) :=
      walks_emit_outside (s := { t with cursor := t.cursor.toContent l }) ht (fun _ => rfl) nofun
    have hassignment := walks_emitAssignment (s := State.emit { t with cursor := t.cursor.toContent l } .dot 1) ht a
    refine hdot.trans (hassignment.trans (walks_beginValue ?_))
    have hopens : ((State.emit { t with cursor := t.cursor.toContent l } .dot 1).emitAssignment a).opens = [] := ht
    simp [hopens]
  | unfinished => exact walks_emit_outside (s := { t with cursor := t.cursor.toContent _ }) ht (fun _ => rfl) nofun
  | stop => exact .refl t

/-! ## Opening -/

/-- A construct that counts towards the depth is opened, or the rest of the line is read. -/
theorem walks_open {f : Frame} {o : Open} (hf : f.open? = some o) (ho : o.nests = true)
    (hitems : Reads.outerItems [f] = []) (ht : ∀ span, Lexeme.sign? ⟨t, span⟩ = some t)
    (hst : stackAfter t s.opens = o :: s.opens) :
    s.Walks [s.depth + 1] { s.emit t 1 with frames := f :: s.frames } := by
  have hopens : openOf (f :: s.frames) = stackAfter t s.opens := by
    rw [hst, openOf, List.filterMap_cons_some hf]
    rfl
  have hsigns : State.signs { s.emit t 1 with frames := f :: s.frames } = s.signs ++ [t] := by
    rw [← signs_emit s 1 ht]
    refine signs_reframe (s.emit t 1) ?_
    rw [Reads.outerItems_cons, hitems]
    rfl
  have hwalks := Walks.sign (s := s) hsigns hopens
  have hreached : reached s.opens (State.opens { s.emit t 1 with frames := f :: s.frames }) = [s.depth + 1] := by
    have hstack : State.opens { s.emit t 1 with frames := f :: s.frames } = o :: s.opens := hopens.trans hst
    rw [hstack, reached_cons _ ho, depth_eq]
  rwa [hreached] at hwalks

/-- A placeable is opened one deeper than what is around it, and only if that is within the limit. -/
theorem walks_openPlaceable (hs : ∃ c st, s.opens = c :: st ∧ c.holdsPlaceable = true) :
    ∃ ds, s.Walks ds (s.openPlaceable limit).state ∧ ∀ d ∈ ds, d ≤ limit := by
  obtain ⟨c, st, hopens, hc⟩ := hs
  unfold openPlaceable
  split
  · rename_i hlimit
    refine ⟨[s.depth + 1], walks_open rfl rfl rfl (fun _ => rfl) ?_, by simpa using hlimit⟩
    rw [hopens, stackAfter_openBrace hc]
  · refine ⟨[], walks_emit (fun _ => rfl) ?_, by simp⟩
    rw [hopens]
    cases c <;> first | rfl | cases hc

theorem walks_openArguments (hs : ∃ c st, s.opens = c :: st ∧ c.holdsExpression = true) :
    ∃ ds, s.Walks ds (s.openArguments limit).state ∧ ∀ d ∈ ds, d ≤ limit := by
  obtain ⟨c, st, hopens, hc⟩ := hs
  unfold openArguments
  split
  · rename_i hlimit
    refine ⟨[s.depth + 1], walks_open rfl rfl rfl (fun _ => rfl) ?_, by simpa using hlimit⟩
    rw [hopens, stackAfter_openParen hc]
  · refine ⟨[], walks_emit (fun _ => rfl) ?_, by simp⟩
    rw [hopens]
    cases c <;> first | rfl | cases hc

/-- What reaches no depth stays below the limit. -/
theorem walks_nil (h : s.Walks [] s') : ∃ ds, s.Walks ds s' ∧ ∀ d ∈ ds, d ≤ limit := ⟨[], h, by simp⟩

theorem walks_after (h : s.Walks [] s') (h' : ∃ ds, s'.Walks ds s'' ∧ ∀ d ∈ ds, d ≤ limit) :
    ∃ ds, s.Walks ds s'' ∧ ∀ d ∈ ds, d ≤ limit := by
  obtain ⟨ds, hwalks, hds⟩ := h'
  exact ⟨ds, h.trans hwalks, hds⟩

/-! ## Steps -/

/-- A run of text is put behind what was read of its pattern. -/
theorem walks_run_item {outer : List PatternItem} {breaks : Nat} {indent : Option Nat}
    (hfs : s.frames = .pattern outer breaks indent :: fs) (c : Cursor) (r : TextRun) (breaks' : Nat)
    (indent' : Option Nat) : s.Walks [] ⟨c, .run r :: s.items, .pattern outer breaks' indent' :: fs⟩ := by
  have hheld : s.held = s.items ++ (outer ++ Reads.outerItems fs) := by
    rw [held, hfs]
    rfl
  refine .of_eq ?_ ?_
  · rw [signs, signs, hheld]
    rfl
  · rw [opens, opens, hfs]
    rfl

/-- In a pattern the tokens go on at the same depth, up to a brace that opens a placeable or to the end of the
pattern. -/
theorem walks_readText {outer : List PatternItem} {breaks : Nat} {indent : Option Nat}
    (hfs : s.frames = .pattern outer breaks indent :: fs) :
    ∃ ds, s.Walks ds (s.readText limit outer breaks indent fs).state ∧ ∀ d ∈ ds, d ≤ limit := by
  have hopens : s.opens = .value :: openOf fs := by
    rw [opens, hfs]
    rfl
  have houter : Reads.outerItems s.frames = outer ++ Reads.outerItems fs := by
    rw [hfs]
    rfl
  have hclosed : ∀ (c : Cursor) (r : TextRun), s.Walks [] (State.closePattern { s with cursor := c } r outer fs) := by
    intro c r
    refine .pass (t := .patternEnd) ?_ (by rw [hopens]; rfl) ?_
    · have hinner : (State.signs ⟨c, (dedent (.run r.trimEnd :: s.items)).map .lexeme ++ outer, fs⟩) = s.signs := by
        simp only [signs, held, houter, List.filterMap_append, signs_dedent, List.append_assoc]
        rfl
      rw [← hinner]
      exact signs_mark _ fun _ => rfl
    · rw [hopens]
      exact (List.sublist_cons_self _ (openOf fs)).countP_le
  have hread := s.textReads limit outer breaks indent fs
  generalize s.readText limit outer breaks indent fs = step at hread ⊢
  cases hread with
  | placeable =>
    exact walks_after (walks_run_item hfs _ _ 0 none) (walks_openPlaceable ⟨.value, openOf fs, rfl, rfl⟩)
  | below => exact walks_nil (walks_run_item hfs _ _ _ _)
  | last => exact walks_nil (hclosed _ _)

section Readers

variable {x : Char} {xs : List Char}

/-- An expression token that leaves the open constructs as they are. -/
theorem walks_emitScanned (hrest : s.cursor.rest = x :: xs)
    (hst : stackAfter (Token.scan x xs).1 s.opens = s.opens) : s.Walks [] s.emitScanned.state := by
  unfold emitScanned
  rw [hrest]
  exact walks_emit (fun span => (Token.sign?_scan x xs span).1) hst

theorem walks_readPlaceable (hfs : s.frames = .placeable :: fs) (hrest : s.cursor.rest = x :: xs) :
    ∃ ds, s.Walks ds (s.readPlaceable limit fs).state ∧ ∀ d ∈ ds, d ≤ limit := by
  have hopens : s.opens = .placeable :: openOf fs := by
    rw [opens, hfs]
    rfl
  have hitems := Reads.outerItems_of_frames hfs rfl
  have hreads := s.placeableReads limit fs
  generalize s.readPlaceable limit fs = r at hreads
  cases hreads with
  | close =>
    exact walks_nil (walks_emit_reframe (fun _ => rfl) hitems (by rw [hopens]; rfl)
      (by rw [hopens]; exact (List.sublist_cons_self _ (openOf fs)).countP_le))
  | placeable => exact walks_openPlaceable ⟨.placeable, openOf fs, hopens, rfl⟩
  | arguments => exact walks_openArguments ⟨.placeable, openOf fs, hopens, rfl⟩
  | arrow => exact walks_nil (walks_emit_reframe (fun _ => rfl) hitems (by rw [hopens]; rfl) (by rw [hopens]; rfl))
  | token hbrackets harrow =>
    rw [hrest] at hbrackets harrow
    refine walks_nil (walks_emitScanned hrest ?_)
    rw [hopens]
    exact stackAfter_scan _ (hbrackets x rfl) (fun _ => harrow) nofun

theorem walks_readArguments {positional atStart : Bool} (hfs : s.frames = .arguments positional atStart :: fs) :
    ∃ ds, s.Walks ds (s.readArguments limit positional atStart fs).state ∧ ∀ d ∈ ds, d ≤ limit := by
  have hopens : s.opens = .arguments :: openOf fs := by
    rw [opens, hfs]
    rfl
  have hitems := Reads.outerItems_of_frames hfs rfl
  have hreframe : s.Walks [] { s with frames := .arguments positional false :: fs } :=
    .of_eq (signs_reframe s hitems) hopens.symm
  have hmark : ∀ b : Bool, s.Walks [] (if b then s.mark .endPositional else s) := by
    intro b
    cases b
    · exact .refl s
    · exact walks_mark (fun _ => rfl) (by rw [hopens]; rfl)
  have hmarked : ∀ b : Bool, (if b then s.mark .endPositional else s).opens = .arguments :: openOf fs := by
    intro b
    rw [opens, frames_markIf, ← hopens, opens]
  have hreads := s.argumentsReads limit positional atStart fs
  generalize s.readArguments limit positional atStart fs = r at hreads
  cases hreads with
  | nothing => exact walks_nil (.refl s)
  | close =>
    refine walks_nil ((hmark positional).trans (walks_emit_reframe (fun _ => rfl) ?_ ?_ ?_))
    · rw [frames_markIf, hitems]
    · rw [hmarked]
      rfl
    · rw [hmarked]
      exact (List.sublist_cons_self _ (openOf fs)).countP_le
  | placeable => exact walks_after hreframe (walks_openPlaceable ⟨.arguments, openOf fs, rfl, rfl⟩)
  | arguments => exact walks_after hreframe (walks_openArguments ⟨.arguments, openOf fs, rfl, rfl⟩)
  | @token y ys _ _ hbrackets =>
    refine walks_nil ((hmark _).trans (walks_emit_reframe (fun span => (Token.sign?_scan y ys span).1) ?_ ?_ ?_))
    · rw [frames_markIf, ← hitems]
      rfl
    · rw [hmarked]
      exact stackAfter_scan _ hbrackets nofun nofun
    · rw [hmarked]
      exact Nat.le_refl _

theorem walks_readVariants (hfs : s.frames = .variants :: fs) (hrest : s.cursor.rest = x :: xs) :
    s.Walks [] (s.readVariants fs).state := by
  have hopens : s.opens = .variants :: openOf fs := by
    rw [opens, hfs]
    rfl
  have hitems := Reads.outerItems_of_frames hfs rfl
  have hreads := s.variantsReads fs
  generalize s.readVariants fs = r at hreads
  cases hreads with
  | close =>
    exact walks_emit_reframe (fun _ => rfl) hitems (by rw [hopens]; rfl)
      (by rw [hopens]; exact (List.sublist_cons_self _ (openOf fs)).countP_le)
  | key =>
    refine walks_emit_reframe (fun _ => rfl) rfl ?_ (Nat.le_refl _)
    rw [hopens, openOf, hfs]
    rfl
  | token hbrackets =>
    rw [hrest] at hbrackets
    refine walks_emitScanned hrest ?_
    rw [hopens]
    exact stackAfter_scan _ (hbrackets x rfl) nofun nofun

/-- The brackets around a key stand among variants. -/
theorem walks_readKey {read : Bool} (hfs : s.frames = .key read :: fs) (hkeys : KeysInVariants s.frames)
    (hrest : s.cursor.rest = x :: xs) : s.Walks [] (s.readKey read fs).state := by
  rw [hfs] at hkeys
  obtain ⟨gs, hgs⟩ := List.head?_eq_some_iff.1 hkeys.1
  have hinner : openOf fs = .variants :: openOf gs := by
    rw [hgs]
    rfl
  have hopens : s.opens = if read then openOf fs else .key :: openOf fs := by
    rw [opens, hfs]
    cases read <;> rfl
  have hitems := Reads.outerItems_of_frames hfs rfl
  have hreads := s.keyReads read fs
  generalize s.readKey read fs = r at hreads
  cases hreads with
  | close =>
    have hclose : s.Walks [] { s.emit .closeBracket 1 with frames := fs } := by
      refine walks_emit_reframe (fun _ => rfl) hitems ?_ ?_
      · rw [hopens, hinner]
        cases read <;> rfl
      · rw [hopens, hinner]
        cases read <;> exact Nat.le_refl _
    refine hclose.trans (walks_beginValue ?_)
    show (openOf fs).head? ≠ some .key
    rw [hinner]
    simp
  | unclosed => exact .of_eq (signs_reframe s hitems) hopens.symm
  | token =>
    simp only [Bool.false_eq_true, if_false] at hopens
    -- the key takes the place of what was open for it
    have hemit : ∀ n, s.Walks [] { s.emit (Token.scan x xs).1 n with frames := .key true :: fs } := by
      intro n
      obtain ⟨-, hstart, -⟩ := Token.sign?_scan x xs default
      refine walks_emit_reframe (fun span => (Token.sign?_scan x xs span).1) (hitems ▸ rfl) ?_ ?_
      · rw [hopens, stackAfter, if_neg hstart]
        rfl
      · rw [hopens]
        exact Nat.le_refl _
    unfold emitScanned
    simp only [hrest]
    exact hemit _

/-- Layout in front of the next token reaches no depth, so a step reaches those of what is read at the content. -/
theorem walks_onContent {read : State → Step}
    (hread : ∀ (d : Cursor) (x : Char) (xs : List Char), d.rest = x :: xs →
      ∃ ds, State.Walks { s with cursor := d } ds (read { s with cursor := d }).state ∧ ∀ d ∈ ds, d ≤ limit) :
    ∃ ds, s.Walks ds (s.onContent read).state ∧ ∀ d ∈ ds, d ≤ limit := by
  unfold onContent
  split
  · exact walks_nil (.refl s)
  · rename_i d hd
    obtain ⟨_, x, xs, -, -, hrest, -, -⟩ := Cursor.over_skipBlank hd
    exact hread d x xs hrest

end Readers

/-- **A step walks, and opens nothing beyond the limit.** A construct is opened only where the frames leave room for one
more, and these are the constructs that the tokens leave open. -/
theorem walks_step (limit : Nat) (hkeys : KeysInVariants s.frames) :
    ∃ ds, s.Walks ds (s.step limit).state ∧ ∀ d ∈ ds, d ≤ limit := by
  have hreads := s.stepReads limit
  generalize s.step limit = r at hreads
  cases hreads with
  | outside hfs =>
    refine walks_nil (walks_betweenAttributes ?_)
    rw [opens, hfs]
    rfl
  | pattern hfs => exact walks_readText hfs
  | placeable hfs => exact walks_onContent fun _ _ _ hrest => walks_readPlaceable hfs hrest
  | arguments hfs => exact walks_onContent fun _ _ _ _ => walks_readArguments hfs
  | variants hfs => exact walks_onContent fun _ _ _ hrest => walks_nil (walks_readVariants hfs hrest)
  | key hfs => exact walks_onContent fun _ _ _ hrest => walks_nil (walks_readKey hfs hkeys hrest)

/-- **A run walks, and opens nothing beyond the limit.** So the tokens of an entry reach no depth that the limit does
not allow. -/
theorem walks_run (limit : Nat) {c : Cursor} {w : List Char} (hsound : s.Sound c w) :
    ∃ ds, s.Walks ds (s.run limit).2 ∧ ∀ d ∈ ds, d ≤ limit := by
  fun_induction run limit s generalizing w with
  | case1 s t hstep ih =>
    have hwalks := walks_step limit hsound.keys
    have hnext := sound_step hsound limit
    rw [hstep] at hwalks hnext
    obtain ⟨ds, hds, hle⟩ := hwalks
    obtain ⟨_, hnext⟩ := hnext
    obtain ⟨es, hes, hle'⟩ := ih hnext
    exact ⟨ds ++ es, hds.trans hes, List.forall_mem_append.2 ⟨hle, hle'⟩⟩
  | case2 s e t hstep =>
    have hwalks := walks_step limit hsound.keys
    rwa [hstep] at hwalks

/-! ## Two limits -/

/-- What a step does under the limit `n` and under a higher one: the same, unless the latter goes deeper than `n`. -/
inductive Agrees (n : Nat) (s : State) : Step → Step → Prop
  | same (x : Step) : Agrees n s x x
  | deeper {e : Ending} {t u : State} {ds : List Nat} : t.Unfinished → s.Walks ds u → (∃ d ∈ ds, n < d) →
      Agrees n s (.stop e t) (.next u)

variable {m : Nat}

theorem Agrees.after {x y : Step} (h : s.Walks [] s') (h' : s'.Agrees n x y) : s.Agrees n x y := by
  cases h' with
  | same => exact .same _
  | deeper hunfinished hwalks hdeep => exact .deeper hunfinished (h.trans hwalks) hdeep

/-- Where a construct is opened the two limits agree, unless its depth is beyond the lower one: then the one machine
stops, and the other goes deeper. -/
theorem agrees_open (hnm : n ≤ m) {u : State} (e : Ending) (hu : s.Walks [s.depth + 1] u) :
    s.Agrees n (if s.depth < n then .next u else .stop e s.emitUnfinished)
      (if s.depth < m then .next u else .stop e s.emitUnfinished) := by
  by_cases hn : s.depth < n
  · rw [if_pos hn, if_pos (Nat.lt_of_lt_of_le hn hnm)]
    exact .same _
  · rw [if_neg hn]
    split
    · exact .deeper (unfinished_emit s rfl _) hu ⟨_, List.mem_singleton_self _, by omega⟩
    · exact .same _

theorem agrees_openPlaceable (hnm : n ≤ m) (hs : ∃ c st, s.opens = c :: st ∧ c.holdsPlaceable = true) :
    s.Agrees n (s.openPlaceable n) (s.openPlaceable m) := by
  obtain ⟨c, st, hopens, hc⟩ := hs
  refine agrees_open hnm _ (walks_open rfl rfl rfl (fun _ => rfl) ?_)
  rw [hopens, stackAfter_openBrace hc]

theorem agrees_openArguments (hnm : n ≤ m) (hs : ∃ c st, s.opens = c :: st ∧ c.holdsExpression = true) :
    s.Agrees n (s.openArguments n) (s.openArguments m) := by
  obtain ⟨c, st, hopens, hc⟩ := hs
  refine agrees_open hnm _ (walks_open rfl rfl rfl (fun _ => rfl) ?_)
  rw [hopens, stackAfter_openParen hc]

theorem agrees_readText (hnm : n ≤ m) {outer : List PatternItem} {breaks : Nat} {indent : Option Nat}
    (hfs : s.frames = .pattern outer breaks indent :: fs) :
    s.Agrees n (s.readText n outer breaks indent fs) (s.readText m outer breaks indent fs) := by
  unfold readText
  simp only
  split
  · exact .after (walks_run_item hfs _ _ 0 none) (agrees_openPlaceable hnm ⟨.value, openOf fs, rfl, rfl⟩)
  · exact .same _
  · exact .same _

theorem agrees_readPlaceable (hnm : n ≤ m) (hfs : s.frames = .placeable :: fs) :
    s.Agrees n (s.readPlaceable n fs) (s.readPlaceable m fs) := by
  have hopens : s.opens = .placeable :: openOf fs := by
    rw [opens, hfs]
    rfl
  unfold readPlaceable
  split
  · exact .same _
  · exact agrees_openPlaceable hnm ⟨.placeable, openOf fs, hopens, rfl⟩
  · exact agrees_openArguments hnm ⟨.placeable, openOf fs, hopens, rfl⟩
  · exact .same _
  · exact .same _

theorem agrees_readArguments (hnm : n ≤ m) {positional atStart : Bool}
    (hfs : s.frames = .arguments positional atStart :: fs) :
    s.Agrees n (s.readArguments n positional atStart fs) (s.readArguments m positional atStart fs) := by
  have hreframe : s.Walks [] { s with frames := .arguments positional false :: fs } := by
    refine .of_eq (signs_reframe s ?_) ?_
    · rw [hfs]
      rfl
    · rw [opens, opens, hfs]
      rfl
  unfold readArguments
  split
  · exact .same _
  · exact .same _
  · exact .after hreframe (agrees_openPlaceable hnm ⟨.arguments, openOf fs, rfl, rfl⟩)
  · exact .after hreframe (agrees_openArguments hnm ⟨.arguments, openOf fs, rfl, rfl⟩)
  · exact .same _

/-- Under two limits the same layout is passed, so the steps agree as far as what is read at the content does. -/
theorem agrees_onContent {read read' : State → Step}
    (hread : ∀ d : Cursor, State.Agrees n { s with cursor := d } (read { s with cursor := d })
      (read' { s with cursor := d })) :
    s.Agrees n (s.onContent read) (s.onContent read') := by
  unfold onContent
  split
  · exact .same _
  · rename_i d _
    have hmove : s.Walks [] { s with cursor := d } := .of_eq rfl rfl
    exact .after hmove (hread d)

/-- **A step under two limits.** It is the same under both, or under the lower one the machine stops with a line left
over, where under the higher one it goes deeper than the lower allows. -/
theorem agrees_step (hnm : n ≤ m) (s : State) : s.Agrees n (s.step n) (s.step m) := by
  unfold step
  split
  · exact .same _
  · rename_i hfs
    exact agrees_readText hnm hfs
  · rename_i hfs
    exact agrees_onContent fun _ => agrees_readPlaceable hnm hfs
  · rename_i hfs
    exact agrees_onContent fun _ => agrees_readArguments hnm hfs
  · exact .same _
  · exact .same _

theorem run_of_stop {e : Ending} (h : s.step limit = .stop e s') : s.run limit = (e, s') := by
  rw [run, h]

/-- **A run under two limits**: it ends in the same way, unless the one under the higher limit goes deeper. -/
theorem agrees_run (hnm : n ≤ m) {c : Cursor} {w : List Char} (hsound : s.Sound c w) :
    s.run n = s.run m ∨
      (s.run n).2.Unfinished ∧ ∃ ds, s.Walks ds (s.run m).2 ∧ ∃ d ∈ ds, n < d := by
  fun_induction run m s generalizing w with
  | case1 s t hstep ih =>
    have hagrees := agrees_step hnm s
    obtain ⟨ds, hds, -⟩ := walks_step m hsound.keys
    have hnext := sound_step hsound m
    rw [hstep] at hagrees hds hnext
    obtain ⟨_, hnext⟩ := hnext
    generalize hx : s.step n = x at hagrees
    cases hagrees with
    | same =>
      rw [run_of_next hx]
      refine (ih hnext).imp_right ?_
      rintro ⟨hunfinished, es, hes, d, hd, hdeep⟩
      exact ⟨hunfinished, ds ++ es, hds.trans hes, d, List.mem_append_right _ hd, hdeep⟩
    | @deeper e u _ ds' hunfinished hds' hdeep =>
      obtain ⟨es, hes, -⟩ := walks_run m hnext
      obtain ⟨d, hd, hdeep⟩ := hdeep
      rw [run_of_stop hx]
      exact .inr ⟨hunfinished, ds' ++ es, hds'.trans hes, d, List.mem_append_left _ hd, hdeep⟩
  | case2 s e t hstep =>
    have hagrees := agrees_step hnm s
    rw [hstep] at hagrees
    generalize hx : s.step n = x at hagrees
    cases hagrees with
    | same => exact .inl (run_of_stop hx)

theorem walks_ofHeader {c : Cursor} {isTerm : Bool} (a : Line.Assignment) :
    State.Walks ⟨c, [], []⟩ [] (ofHeader c isTerm a) := by
  have hdash : State.Walks ⟨c, [], []⟩ [] (if isTerm then State.emit ⟨c, [], []⟩ .minus 1 else ⟨c, [], []⟩) := by
    split
    · exact walks_emit_outside rfl (fun _ => rfl) nofun
    · exact .refl _
  have hopens : State.opens (if isTerm then State.emit ⟨c, [], []⟩ .minus 1 else ⟨c, [], []⟩) = [] := by
    split <;> rfl
  refine hdash.trans ((walks_emitAssignment hopens a).trans (walks_beginValue ?_))
  have houtside :
      (State.emitAssignment (if isTerm then State.emit ⟨c, [], []⟩ .minus 1 else ⟨c, [], []⟩) a).opens = [] := hopens
  simp [houtside]

/-- The depths that the tokens of a run reach are those of the run. -/
theorem depths_run_ofHeader {c : Cursor} {isTerm : Bool} {a : Line.Assignment}
    (h : (ofHeader c isTerm a).Walks ds s') : depthsFrom [] (s'.lexemes.filterMap Lexeme.sign?) = ds := by
  obtain ⟨ts, hsigns, -, hdepths⟩ := (walks_ofHeader a).trans h
  rw [signs_lexemes, hsigns]
  exact hdepths

end State

/-! ## Entries -/

section

variable {n m : Nat} {lines : LineMap} {s : Source} {c : Cursor}

/-- A message or a term. -/
def Entry.isDefinition : Entry → Bool
  | message _ | term _ => true
  | comment _ | junk _ => false

/-- No placeable and no argument list of an entry is deeper than the limit. -/
def Entry.within (n : Nat) (e : Entry) : Bool := e.depths.all (· ≤ n)

/-- An entry lies within a limit exactly if none of its placeables and argument lists is deeper. -/
theorem Entry.within_iff {e : Entry} : e.within n = true ↔ ∀ d ∈ e.depths, d ≤ n := by
  simp [within]

/-- An entry holds no unfinished line, and its depths are those that its tokens reach. -/
theorem depths_of_entryOf {ls : List Lexeme} {e : Entry} (h : entryOf lines ls = some e) :
    e.depths = depthsFrom [] (ls.filterMap Lexeme.sign?) ∧ ∀ l ∈ ls, l.token.isUnfinished = false := by
  have hderived := derived_entry (entryOf_eq_some (f := ⟨lines, 0, .nothing⟩).1 h)
  exact ⟨hderived.depths_eq, fun l hl => hderived.finished hl⟩

/-- A line that is left unread is part of no entry. -/
theorem State.Unfinished.entryOf_eq_none {u : State} (h : u.Unfinished) : entryOf lines u.lexemes = none := by
  obtain ⟨l, hl, hunfinished⟩ := h
  rw [Option.eq_none_iff_forall_not_mem]
  intro e he
  have hfinished := (depths_of_entryOf he).2 l (State.mem_lexemes hl)
  rw [hunfinished] at hfinished
  cases hfinished

/-- **A header line under a lower limit** opens the same entry if that is not too deep, and none otherwise. -/
theorem entryAt_limit (hnm : n ≤ m) : entryAt n lines c = (entryAt m lines c).filter (Entry.within n) := by
  unfold entryAt
  cases ha : Line.entryHeader? c.rest with
  | none => rfl
  | some b =>
    obtain ⟨isTerm, a⟩ := b
    simp only [Option.bind_some]
    obtain ⟨w, hsound⟩ := State.sound_ofHeader ha
    rcases State.agrees_run hnm hsound with hsame | ⟨hunfinished, ds, hwalks, d, hd, hdeep⟩
    · obtain ⟨ds, hwalks, hle⟩ := State.walks_run n hsound
      rw [hsame] at hwalks ⊢
      cases he : entryOf lines ((State.ofHeader c isTerm a).run m).2.lexemes with
      | none => rfl
      | some e =>
        have hwithin : e.within n = true := by
          rw [Entry.within_iff, (depths_of_entryOf he).1, State.depths_run_ofHeader hwalks]
          exact hle
        rw [Option.filter_some, if_pos hwithin]
    · -- under the lower limit a line is left unread, and the entry under the higher limit is too deep
      rw [hunfinished.entryOf_eq_none]
      cases he : entryOf lines ((State.ofHeader c isTerm a).run m).2.lexemes with
      | none => rfl
      | some e =>
        have hwithin : ¬ e.within n = true := by
          rw [Entry.within_iff, (depths_of_entryOf he).1, State.depths_run_ofHeader hwalks]
          intro hle
          exact absurd (hle d hd) (Nat.not_le.2 hdeep)
        rw [Option.filter_some, if_neg hwithin]

theorem Entry.within_document (comment : Comment) (e : Entry) : (e.document comment).within n = e.within n := by
  cases e <;> rfl

/-- What a header line opens is a message or a term. -/
theorem isDefinition_of_entryAt {e : Entry} (h : entryAt n lines c = some e) :
    e.isDefinition = true ∧ ∀ comment, (e.document comment).isDefinition = true := by
  obtain ⟨_, _, he⟩ := Option.bind_eq_some_iff.1 h
  cases derived_entry (entryOf_eq_some (f := ⟨lines, 0, .nothing⟩).1 he) with
  | message => exact ⟨rfl, fun _ => rfl⟩
  | term => exact ⟨rfl, fun _ => rfl⟩

/-- A line that opens no entry holds none, comments aside. -/
theorem keptFrom_nextLine {e : Entry} (hn : entryAt n s.lines c = none) (hm : entryAt m s.lines c = some e) :
    keptFrom n s c = keptFrom n s c.nextLine := by
  obtain ⟨⟨isTerm, a⟩, ha, -⟩ := Option.bind_eq_some_iff.1 hm
  rw [keptFrom_of_line (Line.commentLevel?_of_entryHeader ha), hn]
  rfl

/-- **What a body keeps under a lower limit**, comments aside. -/
theorem keptFrom_limit (hnm : n ≤ m) (s : Source) (c : Cursor) :
    (keptFrom n s c).filter Entry.isDefinition =
      ((keptFrom m s c).filter Entry.isDefinition).filter (Entry.within n) := by
  have hcomment (comment : Comment) : ¬ (Entry.comment comment).isDefinition = true := nofun
  fun_induction keptFrom m s c with
  | case1 c hnil =>
    rw [keptFrom_of_nil hnil]
    rfl
  | case2 c _ _ _ level hlevel lines comment e he ih =>
    obtain rfl : level = .comment := by
      by_contra hlowest
      simp [hlowest] at he
    simp only [dif_pos] at he
    have hentry : entryAt n s.lines lines.2 = _ := entryAt_limit hnm
    rw [he, Option.filter_some] at hentry
    have hdocumented := (isDefinition_of_entryAt he).2 comment
    rw [keptFrom_of_commentLevel hlevel]
    subst lines comment
    by_cases hwithin : e.within n = true
    · rw [if_pos hwithin] at hentry
      have hdocumentedWithin := (Entry.within_document (joinComment s (commentLine .comment c)
        (commentLines .comment c.nextLine).1) e).trans hwithin
      simp only [if_true, hentry]
      rw [List.filter_cons_of_pos hdocumented, List.filter_cons_of_pos hdocumented,
        List.filter_cons_of_pos hdocumentedWithin, ih]
    · -- the comment stands alone where its entry is too deep
      rw [if_neg hwithin] at hentry
      have hdeep : ¬ (e.document (joinComment s (commentLine .comment c)
        (commentLines .comment c.nextLine).1)).within n = true := by rwa [Entry.within_document]
      simp only [if_true, hentry]
      rw [List.filter_cons_of_pos hdocumented, List.filter_cons_of_neg hdeep, List.filter_cons_of_neg (hcomment _),
        keptFrom_nextLine hentry he, ih]
  | case3 c _ _ _ level hlevel lines comment hnone ih =>
    have hnone' : (if level = .comment then entryAt n s.lines lines.2 else none) = none := by
      split
      · rename_i hlowest
        simp only [dif_pos hlowest] at hnone
        rw [entryAt_limit hnm, hnone]
        rfl
      · rfl
    rw [keptFrom_of_commentLevel hlevel]
    subst lines comment
    simp only [hnone']
    rw [List.filter_cons_of_neg (hcomment _), List.filter_cons_of_neg (hcomment _), ih]
  | case4 c _ _ _ hlevel ih =>
    rw [keptFrom_of_line hlevel, entryAt_limit hnm]
    cases he : entryAt m s.lines c with
    | none => exact ih
    | some e =>
      have hdefinition := (isDefinition_of_entryAt he).1
      rw [Option.filter_some, Option.toList_some, List.singleton_append, List.filter_cons_of_pos hdefinition]
      by_cases hwithin : e.within n = true
      · rw [if_pos hwithin, List.filter_cons_of_pos hwithin, ← ih]
        exact List.filter_cons_of_pos hdefinition
      · rw [if_neg hwithin, List.filter_cons_of_neg hwithin, ← ih]
        rfl

/-- A message or a term is no junk. -/
theorem filter_isDefinition (es : List Entry) :
    (es.filter (·.junk?.isNone)).filter Entry.isDefinition = es.filter Entry.isDefinition := by
  rw [List.filter_filter]
  congr 1
  funext e
  cases e <;> rfl

/-- **A lower nesting limit** takes away exactly the messages and terms that have a placeable or an argument list
deeper than the limit, and leaves the others as they are, in order. -/
theorem parse_nesting (hnm : n ≤ m) (source : String) :
    (parse ⟨.preserve, n⟩ source).body.filter Entry.isDefinition =
      ((parse ⟨.preserve, m⟩ source).body.filter Entry.isDefinition).filter (Entry.within n) := by
  have hkept (limit : Nat) : (parse ⟨.preserve, limit⟩ source).body.filter Entry.isDefinition =
      (keptFrom limit (.ofString source) (.ofChars source.toList)).filter Entry.isDefinition := by
    rw [← filter_body, filter_isDefinition]
    rfl
  rw [hkept, hkept]
  exact keptFrom_limit hnm _ _

/-- A message with a placeable in a placeable, and one without, under a limit of one and of two. -/
theorem parse_nesting_inner :
    1 ≤ 2 ∧ (parse ⟨.preserve, 1⟩ "a = { { $b } }\nc = { $d }\n").body.filter Entry.isDefinition =
      ((parse ⟨.preserve, 2⟩ "a = { { $b } }\nc = { $d }\n").body.filter
        Entry.isDefinition).filter (Entry.within 1) :=
  ⟨by decide, parse_nesting (by decide) _⟩

end

end Fluent
