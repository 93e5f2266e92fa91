import Fluent.Proofs.Checked.Flat

/-!
# An entry to its end, with checks

* `State.Grounded`: no run of text lies outside all patterns; every step keeps that.
* `unwind?_flat`: the patterns that are still open when an entry is cut short are filled in, the innermost first, and no
  check fails.
* `run?_flat`: the run of the machine with checks from the flat form of a state.
-/

namespace Fluent

namespace State

/-- No run of text lies outside all patterns. Where the last pattern is closed, all runs have become tokens. -/
def Grounded : List Frame → List PatternItem → Prop
  | [], items => ∀ r, .run r ∉ items
  | .pattern outer _ _ :: fs, _ => Grounded fs outer
  | _ :: fs, items => Grounded fs items

variable {s : State} {fs : List Frame} {is : List PatternItem} {limit : Nat}

namespace Grounded

/-- The next item may be any token. -/
theorem lexeme (h : Grounded fs is) (l : Lexeme) : Grounded fs (.lexeme l :: is) := by
  induction fs with
  | nil =>
    intro r hr
    rcases List.mem_cons.1 hr with hlexeme | hr
    · cases hlexeme
    · exact h r hr
  | cons f fs ih =>
    cases f with
    | pattern => exact h
    | _ => exact ih h

theorem lexemes (h : Grounded fs is) (ls : List Lexeme) : Grounded fs (ls.map .lexeme ++ is) := by
  induction ls with
  | nil => exact h
  | cons l ls ih => exact ih.lexeme l

theorem emit (h : Grounded s.frames s.items) (t : Token) (n : Nat) : Grounded (s.emit t n).frames (s.emit t n).items :=
  h.lexeme _

theorem emitUnfinished (h : Grounded s.frames s.items) : Grounded s.emitUnfinished.frames s.emitUnfinished.items :=
  h.lexeme _

theorem finishLine (h : Grounded s.frames s.items) : Grounded s.finishLine.frames s.finishLine.items := by
  unfold State.finishLine
  split
  · exact h
  · exact h.lexeme _

theorem emitAssignment (h : Grounded s.frames s.items) (a : Line.Assignment) :
    Grounded (s.emitAssignment a).frames (s.emitAssignment a).items := (h.lexeme _).lexeme _

theorem beginValue (h : Grounded s.frames s.items) : Grounded s.beginValue.frames s.beginValue.items := by
  have hvalue := s.valueBegins
  generalize s.beginValue = t at hvalue ⊢
  cases hvalue with
  | _ => exact h.lexeme _

end Grounded

end State

/-- No run of text lies outside all patterns behind a step. -/
def Step.Grounded (s : Step) : Prop := State.Grounded s.state.frames s.state.items

namespace State

variable {s : State} {fs : List Frame} {limit : Nat}

theorem grounded_betweenAttributes (h : Grounded s.frames s.items) : s.betweenAttributes.Grounded := by
  have hfinish := h.finishLine
  have hfollows := s.attributeFollows
  generalize s.finishLine = t, s.betweenAttributes = step at hfinish hfollows ⊢
  cases hfollows with
  | header =>
    exact ((Grounded.emit (s := { t with cursor := t.cursor.toContent _ }) hfinish .dot 1).emitAssignment _).beginValue
  | unfinished => exact Grounded.emitUnfinished (s := { t with cursor := t.cursor.toContent _ }) hfinish
  | stop => exact hfinish

theorem grounded_openPlaceable (h : Grounded s.frames s.items) : (s.openPlaceable limit).Grounded := by
  unfold openPlaceable
  split <;> exact h.lexeme _

theorem grounded_openArguments (h : Grounded s.frames s.items) : (s.openArguments limit).Grounded := by
  unfold openArguments
  split <;> exact h.lexeme _

theorem grounded_closePattern {outer : List PatternItem} (h : Grounded fs outer) (r : TextRun) :
    Grounded (s.closePattern r outer fs).frames (s.closePattern r outer fs).items :=
  (h.lexemes _).lexeme _

/-- Text is put on the items of the pattern, and where this ends its runs are settled before the items around come to
light. -/
theorem grounded_readText {outer : List PatternItem} (h : Grounded fs outer) (breaks : Nat) (indent : Option Nat) :
    (s.readText limit outer breaks indent fs).Grounded := by
  have hread := s.textReads limit outer breaks indent fs
  generalize s.readText limit outer breaks indent fs = step at hread ⊢
  cases hread with
  | placeable => exact grounded_openPlaceable h
  | below => exact h
  | last => exact grounded_closePattern h _

theorem grounded_emitScanned (h : Grounded s.frames s.items) : s.emitScanned.Grounded := by
  unfold emitScanned
  split
  · exact h
  · exact h.lexeme _

theorem grounded_readPlaceable (h : Grounded s.frames s.items) (hfs : s.frames = .placeable :: fs) :
    (s.readPlaceable limit fs).Grounded := by
  have hinner : Grounded fs s.items := by rwa [hfs] at h
  have hreads := s.placeableReads limit fs
  generalize s.readPlaceable limit fs = r at hreads
  cases hreads with
  | close => exact hinner.lexeme _
  | placeable => exact grounded_openPlaceable h
  | arguments => exact grounded_openArguments h
  | arrow => exact hinner.lexeme _
  | token => exact grounded_emitScanned h

theorem grounded_readArguments {positional atStart : Bool} (h : Grounded s.frames s.items)
    (hfs : s.frames = .arguments positional atStart :: fs) : (s.readArguments limit positional atStart fs).Grounded := by
  have hinner : Grounded fs s.items := by rwa [hfs] at h
  have hmark (b : Bool) : Grounded fs (if b then s.mark .endPositional else s).items := by
    cases b
    · exact hinner
    · exact hinner.lexeme _
  have hreads := s.argumentsReads limit positional atStart fs
  generalize s.readArguments limit positional atStart fs = r at hreads
  cases hreads with
  | nothing => exact h
  | close => exact (hmark _).lexeme _
  | placeable => exact grounded_openPlaceable (s := { s with frames := .arguments positional false :: fs }) hinner
  | arguments => exact grounded_openArguments (s := { s with frames := .arguments positional false :: fs }) hinner
  | token => exact (hmark _).lexeme _

theorem grounded_readVariants (h : Grounded s.frames s.items) (hfs : s.frames = .variants :: fs) :
    (s.readVariants fs).Grounded := by
  have hinner : Grounded fs s.items := by rwa [hfs] at h
  have hreads := s.variantsReads fs
  generalize s.readVariants fs = r at hreads
  cases hreads with
  | close => exact hinner.lexeme _
  | key => exact h.lexeme _
  | token => exact grounded_emitScanned h

theorem grounded_readKey {read : Bool} (h : Grounded s.frames s.items) (hfs : s.frames = .key read :: fs) :
    (s.readKey read fs).Grounded := by
  have hinner : Grounded fs s.items := by rwa [hfs] at h
  have hreads := s.keyReads read fs
  generalize s.readKey read fs = r at hreads
  cases hreads with
  | close => exact Grounded.beginValue (s := { s.emit .closeBracket 1 with frames := fs }) (hinner.lexeme _)
  | unclosed => exact hinner
  | token => exact grounded_emitScanned (s := { s with frames := .key true :: fs }) hinner

theorem grounded_onContent (h : Grounded s.frames s.items) {read : State → Step}
    (hread : ∀ d : Cursor, (read { s with cursor := d }).Grounded) : (s.onContent read).Grounded := by
  unfold onContent
  split
  · exact h
  · exact hread _

/-- **A step leaves no run of text outside all patterns**, since text is read only in a pattern and the runs are settled
where it ends. -/
theorem grounded_step (limit : Nat) (h : Grounded s.frames s.items) : (s.step limit).Grounded := by
  have hreads := s.stepReads limit
  generalize s.step limit = r at hreads
  cases hreads with
  | outside => exact grounded_betweenAttributes h
  | pattern hfs => exact grounded_readText (by rwa [hfs] at h) _ _
  | placeable hfs => exact grounded_onContent h fun _ => grounded_readPlaceable h hfs
  | arguments hfs => exact grounded_onContent h fun _ => grounded_readArguments h hfs
  | variants hfs => exact grounded_onContent h fun _ => grounded_readVariants h hfs
  | key hfs => exact grounded_onContent h fun _ => grounded_readKey h hfs

theorem grounded_ofHeader (c : Cursor) (isTerm : Bool) (a : Line.Assignment) :
    Grounded (ofHeader c isTerm a).frames (ofHeader c isTerm a).items := by
  have hempty : Grounded [] [] := fun _ => List.not_mem_nil
  refine Grounded.beginValue (Grounded.emitAssignment ?_ a)
  cases isTerm
  · exact hempty
  · exact hempty.lexeme _

/-! ## Open patterns -/

/-- Tokens among the items have their places. -/
theorem filterMap_hold?_lexemes (ls : List Lexeme) (is : List PatternItem) :
    (ls.map PatternItem.lexeme ++ is).filterMap PatternItem.hold? = ls ++ is.filterMap PatternItem.hold? := by
  rw [List.filterMap_append, List.filterMap_map]
  exact congrArg (· ++ _) (List.filterMap_some)

/-- Without runs there is nothing to dedent. -/
theorem hold?_eq_dedent (h : ∀ r, .run r ∉ is) : is.filterMap PatternItem.hold? = dedent is := by
  refine List.filterMap_congr ?_
  intro i hi
  cases i with
  | lexeme l => rfl
  | run r => exact absurd hi (h r)

/-- **The patterns that are still open** are filled in, the innermost first: every piece is found at its index. -/
theorem unwind?_flat {source : List Char} (base : List Lexeme) {is : List PatternItem}
    (hruns : ∀ r, .run r ∈ is ++ Reads.outerItems fs → r.At source) (hground : Grounded fs is) :
    Checked.unwind? source (flatFrames base fs is)
        (base ++ ((is ++ Reads.outerItems fs).filterMap PatternItem.hold?).reverse) =
      some (base ++ (unwind fs is).reverse) := by
  induction fs generalizing is with
  | nil =>
    rw [Reads.outerItems, List.flatMap_nil, List.append_nil, hold?_eq_dedent hground]
    rfl
  | cons f fs ih =>
    cases f with
    | pattern outer breaks indent =>
      have houter : Reads.outerItems (.pattern outer breaks indent :: fs) = outer ++ Reads.outerItems fs := rfl
      rw [houter] at hruns ⊢
      have hinner : ∀ r, .run r ∈ is → r.At source := fun r hr => hruns r (List.mem_append_left _ hr)
      have hfinish := finish?_pieces hinner (before base outer fs)
      have hbelow : Grounded fs outer := hground
      have hdedented := hbelow.lexemes (dedent is)
      have hnext := ih (fun r hr => hruns r (by simp_all)) hdedented
      rw [flatFrames_lexemes, List.append_assoc, filterMap_hold?_lexemes, List.reverse_append, ← List.append_assoc,
        ← before] at hnext
      rw [List.filterMap_append, List.reverse_append, ← List.append_assoc, ← before]
      simp only [flatFrames, Checked.unwind?, hfinish, Option.bind_eq_bind, Option.bind_some, unwind]
      exact hnext
    | placeable => exact ih hruns hground
    | arguments => exact ih hruns hground
    | variants => exact ih hruns hground
    | key => exact ih hruns hground

/-! ## Runs of the machine -/

theorem length_flatFrames (base : List Lexeme) (fs : List Frame) (is : List PatternItem) :
    (flatFrames base fs is).length = fs.length := by
  induction fs generalizing is with
  | nil => rfl
  | cons f fs ih => cases f <;> exact congrArg Nat.succ (ih _)

/-- Both machines have as much left to do, so the checked one comes to an end as well. -/
theorem measure_flat {source : List Char} (hc : s.cursor.At source) (base : List Lexeme) :
    (s.flat base).measure source = s.measure := by
  have hpos : (s.flat base).pos = s.cursor.offset := rfl
  have hframes : (s.flat base).frames.length = s.frames.length := length_flatFrames base s.frames s.items
  rw [Checked.State.measure, hpos, hc.fromOffset?, hframes]
  rfl

/-- **An entry to its end**: no check fails, and the tokens are those of the machine. -/
theorem run?_flat {source : List Char} (base : List Lexeme) {c : Cursor} (hc : c.At source) {t : List Char}
    (hs : s.Sound c t) (hground : Grounded s.frames s.items) :
    Checked.run? source limit (s.flat base) =
      some (((s.run limit).2.cursor.skipWhile Line.isBlankChar).offset, base ++ (s.run limit).2.lexemes) := by
  fun_induction run limit s generalizing t with
  | case1 s s' hstep ih =>
    have hsound := sound_step hs limit
    have hnext := grounded_step limit hground
    have hbelow := below_step limit s
    rw [hstep] at hsound hnext hbelow
    obtain ⟨t', ht'⟩ := hsound
    -- what the machine has left becomes less with every step, so the loop gets on
    have hlt : (s'.flat base).measure source < (s.flat base).measure source := by
      rw [measure_flat (hc.move ht'.reads.stretch), measure_flat (hc.move hs.reads.stretch)]
      exact hbelow
    rw [Checked.run?, flat_step (hc.move hs.reads.stretch) fun r hr => hs.reads.run_at hc (List.mem_append_left _ hr), hstep]
    simp only [Step.flat, Option.bind_eq_bind, Option.bind_some, if_pos hlt]
    exact ih ht' hnext
  | case2 s e s' hstep =>
    have hsound := sound_step hs limit
    have hnext := grounded_step limit hground
    rw [hstep] at hsound hnext
    obtain ⟨⟨t', ht'⟩, -⟩ := hsound
    have hunwind := unwind?_flat base (fun r hr => ht'.reads.run_at hc hr) hnext
    rw [Checked.run?, flat_step (hc.move hs.reads.stretch) fun r hr => hs.reads.run_at hc (List.mem_append_left _ hr), hstep]
    simp only [Step.flat, flat, Checked.State.moveTo, Option.bind_eq_bind, Option.bind_some, held, hunwind]
    rfl

end State

end Fluent
