import Fluent.Proofs.Checked.Reading
import Fluent.Proofs.Restyled

/-!
# The machine on one list of tokens

The machine with checks does what the machine on items does. A state of the one is laid out *flat* as a state of the
other: the items of all open constructs become one list of tokens, with a place for each run of text, and each open
pattern gets the pieces of its runs. Where the cursor stands somewhere in the source and every run does, no check fails,
and the step of the flat state is the flat form of the step.

* `State.flat`, `Step.flat`: the flat form.
* `flat_step`: one step of the flat state.
-/

namespace Fluent

namespace State

/-- The tokens in front of an open pattern: those in front of the entry, and those of the entry around it. -/
def before (base : List Lexeme) (outer : List PatternItem) (fs : List Frame) : List Lexeme :=
  base ++ ((outer ++ Reads.outerItems fs).filterMap PatternItem.hold?).reverse

/-- The open constructs over one list of tokens. -/
def flatFrames (base : List Lexeme) : List Frame → List PatternItem → List Checked.Frame
  | [], _ => []
  | .pattern outer breaks indent :: fs, items =>
    .pattern (pieces (before base outer fs).length items) breaks indent :: flatFrames base fs outer
  | .placeable :: fs, items => .placeable :: flatFrames base fs items
  | .arguments positional atStart :: fs, items => .arguments positional atStart :: flatFrames base fs items
  | .variants :: fs, items => .variants :: flatFrames base fs items
  | .key read :: fs, items => .key read :: flatFrames base fs items

/-- The state over one list of tokens, with those in front of the entry. -/
def flat (base : List Lexeme) (s : State) : Checked.State :=
  ⟨s.cursor.offset, base ++ (s.held.filterMap PatternItem.hold?).reverse, flatFrames base s.frames s.items⟩

end State

/-- The outcome over one list of tokens. A machine that stops has looked behind blanks. -/
def Step.flat (base : List Lexeme) : Step → Checked.Step
  | next s => .next (s.flat base)
  | stop _ s => .stop ((s.flat base).moveTo (s.cursor.skipWhile Line.isBlankChar).offset)

namespace State

variable {source : List Char} {limit : Nat} {base : List Lexeme} {s : State} {fs : List Frame}

theorem flatFrames_lexeme (fs : List Frame) (l : Lexeme) (is : List PatternItem) :
    flatFrames base fs (.lexeme l :: is) = flatFrames base fs is := by
  induction fs with
  | nil => rfl
  | cons f fs ih =>
    cases f with
    | pattern => rfl
    | _ => simp only [flatFrames, ih]

theorem flatFrames_lexemes (fs : List Frame) (ls : List Lexeme) (is : List PatternItem) :
    flatFrames base fs (ls.map .lexeme ++ is) = flatFrames base fs is := by
  induction ls with
  | nil => rfl
  | cons l ls ih => rw [List.map_cons, List.cons_append, flatFrames_lexeme, ih]

theorem countP_flatFrames (fs : List Frame) (is : List PatternItem) :
    (flatFrames base fs is).countP Checked.Frame.nests = fs.countP Frame.nests := by
  induction fs generalizing is with
  | nil => rfl
  | cons f fs ih =>
    cases f <;> simp [flatFrames, List.countP_cons, ih, Frame.nests, Checked.Frame.nests]

theorem flat_emit (s : State) (t : Token) (n : Nat) :
    (s.emit t n).flat base = (s.flat base).emit t (byteCount (s.cursor.rest.take n)) := by
  simp [flat, emit, held, Checked.State.emit, flatFrames_lexeme, PatternItem.hold?, Cursor.skip]

theorem flat_mark (s : State) (t : Token) : (s.mark t).flat base = (s.flat base).mark t := by
  simp [flat, mark, held, Checked.State.mark, flatFrames_lexeme, PatternItem.hold?]

/-- A token of one byte. -/
theorem flat_emit_one {t : Token} {x : Char} {xs : List Char} (hrest : s.cursor.rest = x :: xs) (hx : x.utf8Size = 1) :
    (s.emit t 1).flat base = (s.flat base).emit t 1 := by
  rw [flat_emit, hrest]
  simp [byteCount, hx]

theorem emitUnfinished?_flat (hc : s.cursor.At source) :
    (s.flat base).emitUnfinished? source = some (s.emitUnfinished.flat base) := by
  rw [emitUnfinished, flat_emit, Line.take_length_head]
  simp only [Checked.State.emitUnfinished?, flat, hc.lineEnd?, Option.bind_eq_bind, Option.bind_some,
    (Cursor.over_lineEnd _).offset]
  rfl

theorem finishLine?_flat (hc : s.cursor.At source) :
    (s.flat base).finishLine? source = some (s.finishLine.flat base) := by
  have hunfinished : (s.flat base).emitUnfinished? source = _ := emitUnfinished?_flat hc
  have hpos : (s.flat base).pos = s.cursor.offset := rfl
  simp only [Checked.State.finishLine?, hpos, hc.lineEnd?, hc.isBlank?, Option.bind_eq_bind, Option.bind_some,
    hunfinished, finishLine]
  split <;> rfl

theorem emitAssignment?_flat {a : Line.Assignment} (ha : Line.assignment? s.cursor.rest = some a) :
    (s.flat base).emitAssignment? a = some ((s.emitAssignment a).flat base) := by
  obtain ⟨hrest, -, -⟩ := Line.assignment?_eq_some ha
  have hname : byteCount (s.cursor.rest.take a.name.length) = a.name.length := by
    rw [hrest, List.take_left, Line.byteCount_name ha]
  have hspaces : byteCount ((s.cursor.rest.drop a.name.length).take a.spaces) = a.spaces := by
    rw [hrest, List.drop_left, List.take_left' (by simp), byteCount_replicate_space]
  have hsign : (s.cursor.rest.drop a.name.length).drop a.spaces = '=' :: a.rest := by
    rw [hrest, List.drop_left, List.drop_left' (by simp)]
  have hone : ('=' : Char).utf8Size = 1 := rfl
  have hminus : Checked.minus? (s.cursor.offset + a.width) 1 = some (s.cursor.offset + a.name.length + a.spaces) := by
    simp only [Line.Assignment.width]
    rw [Checked.minus?_of_le (by omega), Option.some.injEq]
    omega
  simp only [Checked.State.emitAssignment?, flat, hminus]
  simp [emitAssignment, emit, Cursor.skip, hname, hspaces, hsign, held, flatFrames_lexeme, PatternItem.hold?, byteCount,
    hone, Line.Assignment.width, Nat.add_assoc]

theorem openPattern_flat (s : State) (indent : Option Nat) :
    (s.openPattern indent).flat base = (s.flat base).openPattern indent := by
  simp only [openPattern, Checked.State.openPattern, ← flat_mark]
  simp [flat, held, flatFrames, pieces, Reads.outerItems, mark, flatFrames_lexeme]

theorem beginValue?_flat (hc : s.cursor.At source) :
    (s.flat base).beginValue? source = some (s.beginValue.flat base) := by
  have hpos : (s.flat base).pos = s.cursor.offset := rfl
  have hspaces := hc.skipWhile (· == ' ')
  set d := s.cursor.skipWhile (· == ' ') with hd
  have hnext := hspaces.lineEnd.nextContent?
  have hopen (e : Cursor) (indent : Option Nat) : ((s.flat base).moveTo e.offset).openPattern indent =
      (({ s with cursor := e } : State).openPattern indent).flat base :=
    (openPattern_flat { s with cursor := e } indent).symm
  have hskip : (((s.flat base).moveTo d.offset).mark .patternSkip).moveTo d.lineEnd.offset =
      (({ s with cursor := d } : State).mark .patternSkip).toLineEnd.flat base :=
    congrArg (Checked.State.moveTo · d.lineEnd.offset) (flat_mark { s with cursor := d } .patternSkip).symm
  simp only [Checked.State.beginValue?, hpos, hc.cursor?, ← hd, hspaces.lineEnd?, hspaces.isBlank?, hnext,
    Option.bind_eq_bind, Option.bind_some, hskip, beginValue]
  split
  · cases hl : Line.nextContent? d.lineEnd.rest with
    | none => rfl
    | some l =>
      simp only [Option.map_some, Cursor.At.content_ofNext, hopen, Checked.NextLine.continuesPattern_ofNext,
        Checked.NextLine.indent_ofNext]
      cases l.continuesPattern <;> rfl
  · exact congrArg some (hopen d none)

theorem cursor_emitUnfinished (s : State) : s.emitUnfinished.cursor = s.cursor.lineEnd := by
  simp only [emitUnfinished, emit, Cursor.skip, Line.take_length_head, Line.drop_length_head]
  rfl

theorem cursor_finishLine (s : State) : s.finishLine.cursor = s.cursor.lineEnd := by
  unfold finishLine
  split
  · rfl
  · exact s.cursor_emitUnfinished

/-- No blanks stand behind the end of a line. -/
theorem flat_stop (e : Ending) {c : Cursor} (hs : s.cursor = c.lineEnd) :
    (Step.stop e s).flat base = .stop (s.flat base) := by
  have hend : s.cursor.rest.takeWhile Line.isBlankChar = [] := by
    have hrest : s.cursor.rest = Line.tail c.rest := congrArg Cursor.rest hs
    rcases Line.tail_eq_nil_or c.rest with htail | ⟨rest, htail⟩ <;> rw [hrest, htail]
    · rfl
    · exact List.takeWhile_cons_of_neg (by decide)
  simp [Step.flat, Checked.State.moveTo, Cursor.skipWhile, hend, byteCount, flat]

/-- Between attributes the next line with content is found alike with checks, by its offset and not by what the cursor
has left. -/
theorem betweenAttributes?_flat (hc : s.cursor.At source) :
    (s.flat base).betweenAttributes? source = some (s.betweenAttributes.flat base) := by
  have hend := s.cursor_finishLine
  have hfinish : s.finishLine.cursor.At source := hend ▸ hc.lineEnd
  have hpos : (s.finishLine.flat base).pos = s.finishLine.cursor.offset := rfl
  have hstop : (Step.stop .complete s.finishLine).flat base = _ := flat_stop .complete hend
  simp only [Checked.State.betweenAttributes?, finishLine?_flat hc, hpos, hfinish.nextContent?, Option.bind_eq_bind,
    Option.bind_some, betweenAttributes]
  cases hl : Line.nextContent? s.finishLine.cursor.rest with
  | none => exact congrArg some hstop.symm
  | some l =>
    have hcontent := hfinish.toContent hl
    set d := s.finishLine.cursor.toContent l with hd
    let s' : State := { s.finishLine with cursor := d }
    have hmove : (s.finishLine.flat base).moveTo d.offset = s'.flat base := rfl
    simp only [Option.map_some, Cursor.At.content_ofNext, Checked.NextLine.opensAttribute_ofNext, ← hd, hmove,
      hcontent.lineEnd?, Option.bind_some, hcontent.text? (Cursor.over_lineEnd d), Line.attributeHeader?_head]
    cases l.opensAttribute with
    | false => exact congrArg some hstop.symm
    | true =>
      simp only [if_true]
      cases ha : Line.attributeHeader? d.rest with
      | none =>
        simp only [Option.map_none, emitUnfinished?_flat (s := s') hcontent]
        rfl
      | some a =>
        obtain ⟨hdot, hassign⟩ := Line.attributeHeader?_eq_some ha
        have hname : Line.assignment? (s'.emit .dot 1).cursor.rest = some a := by
          show Line.assignment? (d.rest.drop 1) = some a
          rwa [List.drop_one]
        have honLine : ((s'.emit .dot 1).flat base).emitAssignment? a.onLine =
            some (((s'.emit .dot 1).emitAssignment a).flat base) :=
          (show _ = ((s'.emit .dot 1).flat base).emitAssignment? a from rfl).trans (emitAssignment?_flat hname)
        have hvalue : ((s'.emit .dot 1).emitAssignment a).cursor.At source :=
          (((hcontent.skip 1).skip a.name.length).skip a.spaces).skip 1
        simp only [Option.map_some, ← flat_emit_one (s := s') hdot rfl, honLine, Option.bind_some,
          beginValue?_flat hvalue]
        rfl

/-- A token leaves the open constructs as they are. -/
theorem frames_flat_emit (s : State) (t : Token) (n : Nat) : ((s.emit t n).flat base).frames = (s.flat base).frames := by
  rw [flat_emit]
  rfl

/-- A brace is read alike with checks, whether it opens a placeable or is left over with its line. -/
theorem openPlaceable?_flat (hc : s.cursor.At source) {rest : List Char} (hrest : s.cursor.rest = '{' :: rest) :
    (s.flat base).openPlaceable? source limit = some ((s.openPlaceable limit).flat base) := by
  have hdepth : (s.flat base).frames.countP Checked.Frame.nests = s.depth := countP_flatFrames _ _
  rw [Checked.State.openPlaceable?, openPlaceable, hdepth]
  split
  · rw [← flat_emit_one hrest rfl, ← frames_flat_emit s .openBrace 1]
    rfl
  · rw [emitUnfinished?_flat hc, flat_stop _ s.cursor_emitUnfinished]
    rfl

theorem openArguments?_flat (hc : s.cursor.At source) {rest : List Char} (hrest : s.cursor.rest = '(' :: rest) :
    (s.flat base).openArguments? source limit = some ((s.openArguments limit).flat base) := by
  have hdepth : (s.flat base).frames.countP Checked.Frame.nests = s.depth := countP_flatFrames _ _
  rw [Checked.State.openArguments?, openArguments, hdepth]
  split
  · rw [← flat_emit_one hrest rfl, ← frames_flat_emit s .openParen 1]
    rfl
  · rw [emitUnfinished?_flat hc, flat_stop _ s.cursor_emitUnfinished]
    rfl

/-! ## Runs of text -/

/-- Where the text of a run ends. -/
theorem textEnd?_eq (hc : s.cursor.At source) {text : List Char} {after : Cursor} (hover : s.cursor.Over text after) :
    Checked.textEnd? source s.cursor.offset after =
      some (s.cursor.offset + byteCount (if after.rest.head? = some '\n' then Line.dropReturn text else text)) := by
  unfold Checked.textEnd?
  split
  · exact hc.textStop? hover
  · exact congrArg some hover.offset

section Pattern

variable {outer : List PatternItem} {breaks : Nat} {indent : Option Nat}

theorem flat_pattern (c : Cursor) (items : List PatternItem) :
    flat base ⟨c, items, .pattern outer breaks indent :: fs⟩ =
      ⟨c.offset, before base outer fs ++ (items.filterMap PatternItem.hold?).reverse,
        .pattern (pieces (before base outer fs).length items) breaks indent :: flatFrames base fs outer⟩ := by
  simp [flat, held, flatFrames, before, Reads.outerItems]

/-- While a pattern is open, what was read in it lies behind what was read before it, with places held for its runs of
text. -/
theorem tokens_flat_pattern (hfs : s.frames = .pattern outer breaks indent :: fs) :
    (s.flat base).tokens = before base outer fs ++ (s.items.filterMap PatternItem.hold?).reverse := by
  simp [flat, held, hfs, before, Reads.outerItems]

/-- The place of a run stands behind what was read before it. -/
theorem place?_flat (hfs : s.frames = .pattern outer breaks indent :: fs) (text : List Char) :
    (s.flat base).place? (s.cursor.offset + byteCount text) (pieces (before base outer fs).length s.items) breaks indent =
      some (before base outer fs ++
          ((.run ⟨breaks, indent, s.cursor.offset, text⟩ :: s.items).filterMap PatternItem.hold?).reverse,
        pieces (before base outer fs).length (.run ⟨breaks, indent, s.cursor.offset, text⟩ :: s.items),
        !TextRun.isVoid ⟨breaks, indent, s.cursor.offset, text⟩) := by
  have htokens : (s.flat base).tokens = _ := tokens_flat_pattern hfs
  have hpos : (s.flat base).pos = s.cursor.offset := rfl
  set r : TextRun := ⟨breaks, indent, s.cursor.offset, text⟩ with hr
  have hvoid : (s.cursor.offset < s.cursor.offset + byteCount text ∨ 0 < breaks ∨ indent.isSome) ↔ r.isVoid = false := by
    have htext : 0 < byteCount text ↔ text ≠ [] := by
      refine ⟨?_, byteCount_pos⟩
      rintro hpos rfl
      exact Nat.lt_irrefl _ hpos
    rw [Nat.lt_add_right_iff_pos, htext, Nat.pos_iff_ne_zero]
    simp only [hr, TextRun.isVoid]
    cases text <;> cases indent <;> simp
  rw [Checked.State.place?, hpos, htokens, pieces]
  cases h : r.isVoid with
  | true =>
    rw [if_neg fun hplace => absurd (hvoid.1 hplace) (by simp [h]), if_pos rfl,
      List.filterMap_cons_none (by simp [PatternItem.hold?, h])]
    rfl
  | false =>
    have hcount (ls : List Lexeme) (l : Lexeme) : Checked.minus? (ls ++ [l]).length 1 = some ls.length := by
      rw [List.length_append, List.length_singleton, Checked.minus?_of_le (Nat.le_add_left ..), Nat.add_sub_cancel]
    rw [if_pos (hvoid.2 h), if_neg Bool.false_ne_true, reverse_filterMap_cons, PatternItem.hold?, h,
      if_neg Bool.false_ne_true]
    simp only [hcount, Option.bind_eq_bind, Option.bind_some]
    simp [TextRun.piece, TextRun.holder, hr]

/-- The pieces of a pattern are filled in, and its last run is trimmed. -/
theorem finish?_pattern {r : TextRun} {is : List PatternItem} (hruns : ∀ q, .run q ∈ .run r :: is → q.At source)
    (ls : List Lexeme) :
    Checked.finish? source (pieces ls.length (.run r :: is)) (!r.isVoid)
        (ls ++ ((.run r :: is).filterMap PatternItem.hold?).reverse) =
      some (ls ++ (dedent (.run r.trimEnd :: is)).reverse) := by
  cases hvoid : r.isVoid with
  | false => exact finish?_run hvoid hruns ls
  | true =>
    have htrim : r.trimEnd = r := by
      obtain ⟨breaks, indent, start, text⟩ := r
      simp only [TextRun.isVoid, Bool.and_eq_true, List.isEmpty_iff] at hvoid
      obtain ⟨⟨rfl, -⟩, -⟩ := hvoid
      rfl
    rw [htrim]
    exact finish?_pieces hruns ls

theorem flat_closePattern (s : State) (r : TextRun) :
    (s.closePattern r outer fs).flat base = Checked.State.mark
      ⟨s.cursor.offset, before base outer fs ++ (dedent (.run r.trimEnd :: s.items)).reverse, flatFrames base fs outer⟩
      .patternEnd := by
  have hhold (ls : List Lexeme) : (ls.map PatternItem.lexeme).filterMap PatternItem.hold? = ls := by
    induction ls with
    | nil => rfl
    | cons l ls ih => simpa [PatternItem.hold?] using ih
  rw [closePattern, flat_mark]
  simp only [flat, flatFrames_lexemes, held, before, List.filterMap_append, hhold, List.reverse_append, List.append_assoc]

/-- Ending a pattern. -/
theorem closePattern?_flat {r : TextRun} (hruns : ∀ q, .run q ∈ .run r :: s.items → q.At source)
    (gs : List Checked.Frame) :
    Checked.State.closePattern? source
        ⟨s.cursor.offset, before base outer fs ++ ((.run r :: s.items).filterMap PatternItem.hold?).reverse, gs⟩
        (pieces (before base outer fs).length (.run r :: s.items)) (!r.isVoid) (flatFrames base fs outer) =
      some (.next ((s.closePattern r outer fs).flat base)) := by
  rw [Checked.State.closePattern?, finish?_pattern hruns, flat_closePattern]
  rfl

/-- A run that is read at the cursor, with or without a carriage return at its end, stands there. -/
theorem run_at_cursor (hc : s.cursor.At source) {text : List Char} {after : Cursor} (hover : s.cursor.Over text after)
    (returns : Bool) :
    TextRun.At source ⟨breaks, indent, s.cursor.offset, if returns then Line.dropReturn text else text⟩ := by
  cases returns with
  | false => exact ⟨_, _, hc, rfl, hover⟩
  | true =>
    obtain ⟨gap, -, hgap⟩ := Line.dropReturn_spec text
    refine ⟨s.cursor, ⟨s.cursor.offset + byteCount (Line.dropReturn text), gap ++ after.rest⟩, hc, rfl, ?_, rfl⟩
    show s.cursor.rest = Line.dropReturn text ++ (gap ++ after.rest)
    rw [← List.append_assoc, hgap, hover.rest]

/-- Text is read alike with checks. Where the pattern ends its pieces are filled in by their offsets, and these cut out
of the source what the runs hold. -/
theorem readText?_flat (hc : s.cursor.At source) (hfs : s.frames = .pattern outer breaks indent :: fs)
    (hruns : ∀ r, .run r ∈ s.items → r.At source) :
    (s.flat base).readText? source limit (pieces (before base outer fs).length s.items) breaks indent
      (flatFrames base fs outer) = some ((s.readText limit outer breaks indent fs).flat base) := by
  have hpos : (s.flat base).pos = s.cursor.offset := rfl
  have hover : s.cursor.Over (s.cursor.rest.takeWhile inRun) (s.cursor.skipWhile inRun) :=
    Cursor.over_skipWhile inRun s.cursor
  have hafter := hc.skipWhile inRun
  unfold Checked.State.readText?
  rw [show (fun c => c != '{' && c != '}' && c != '\n') = inRun from rfl]
  simp only [hpos, hc.cursor?, Option.bind_eq_bind, Option.bind_some]
  obtain ⟨after, hdef⟩ : ∃ after, s.cursor.skipWhile inRun = after := ⟨_, rfl⟩
  obtain ⟨text, htext⟩ : ∃ text, s.cursor.rest.takeWhile inRun = text := ⟨_, rfl⟩
  rw [hdef, htext] at hover
  rw [hdef] at hafter ⊢
  simp only [textEnd?_eq hc hover, Option.bind_some]
  have hrun : TextRun.At source ⟨breaks, indent, s.cursor.offset, _⟩ :=
    run_at_cursor hc hover (decide (after.rest.head? = some '\n'))
  simp only [decide_eq_true_eq] at hrun
  -- a carriage return in front of a line feed belongs to the line ending
  set text' := if after.rest.head? = some '\n' then Line.dropReturn text else text with htext'
  have hruns' : ∀ q, .run q ∈ .run ⟨breaks, indent, s.cursor.offset, text'⟩ :: s.items → q.At source := by
    intro q hq
    rcases List.mem_cons.1 hq with heq | hq
    · rw [PatternItem.run.inj heq]
      exact hrun
    · exact hruns q hq
  simp only [place?_flat hfs text', Option.bind_some]
  -- three of the four outcomes close the pattern with this run
  have hclose : Checked.State.closePattern? source
      ⟨after.offset, before base outer fs ++
        ((.run ⟨breaks, indent, s.cursor.offset, text'⟩ :: s.items).filterMap PatternItem.hold?).reverse,
        (s.flat base).frames⟩
      (pieces (before base outer fs).length (.run ⟨breaks, indent, s.cursor.offset, text'⟩ :: s.items))
      (!TextRun.isVoid ⟨breaks, indent, s.cursor.offset, text'⟩) (flatFrames base fs outer) =
        some (.next ((({ s with cursor := after } : State).closePattern
          ⟨breaks, indent, s.cursor.offset, text'⟩ outer fs).flat base)) :=
    closePattern?_flat (s := { s with cursor := after }) hruns' _
  have hnext := hafter.nextContent?
  split
  · rename_i rest hrest
    have hsame : text' = text := by rw [htext', hrest]; rfl
    rw [hsame, readText_brace (hdef ▸ hrest), hdef, htext]
    exact (congrArg (Checked.State.openPlaceable? source limit) (flat_pattern _ _).symm).trans
      (openPlaceable?_flat (s := ⟨after, .run ⟨breaks, indent, s.cursor.offset, text⟩ :: s.items,
        .pattern outer 0 none :: fs⟩) hafter hrest)
  · rename_i rest hrest
    have hsame : text' = Line.dropReturn text := by rw [htext', hrest]; rfl
    rw [hsame] at hclose ⊢
    rw [readText_newline (hdef ▸ hrest), hdef, htext, hnext]
    cases Line.nextContent? after.rest with
    | none => exact hclose
    | some l =>
      simp only [Option.map_some, Option.bind_some, Option.filter_some, Checked.NextLine.continuesPattern_ofNext,
        Checked.NextLine.indent_ofNext, Checked.NextLine.breaks_ofNext, Cursor.At.content_ofNext]
      cases l.continuesPattern with
      | false => exact hclose
      | true => exact congrArg (fun s => some (Checked.Step.next s)) (flat_pattern _ _).symm
  · rename_i hbrace hbreak
    have hsame : text' = text := by
      rw [htext', if_neg]
      intro h
      obtain ⟨rest, hrest⟩ := List.head?_eq_some_iff.1 h
      exact hbreak rest hrest
    rw [hsame] at hclose ⊢
    rw [readText_otherwise (hdef ▸ hbrace) (hdef ▸ hbreak), hdef, htext]
    exact hclose

end Pattern

/-! ## Expressions -/

/-- Without its carriage returns a text is what stands in front of them. -/
theorem trimReturns_append {cs : List Char} (h : cs.getLast? ≠ some '\r') (n : Nat) :
    trimReturns (cs ++ List.replicate n '\r') = cs := by
  have hkeep : cs.reverse.dropWhile (· == '\r') = cs.reverse := by
    rcases List.eq_nil_or_concat cs with rfl | ⟨init, x, rfl⟩
    · rfl
    · rw [List.concat_eq_append, List.getLast?_concat] at h
      rw [List.concat_eq_append, List.reverse_append]
      exact List.dropWhile_cons_of_neg (by simpa using h)
  rw [trimReturns, List.reverse_append, List.reverse_replicate,
    List.dropWhile_append_of_pos (by simp +contextual), hkeep, List.reverse_reverse]

/-- The token is the one that is scanned, and what a string literal holds is cut out of it. -/
theorem scan?_eq {x : Char} (xs : List Char) (hx : x ≠ '\n') :
    Checked.scan? (x :: xs) = some ((Token.scan x xs).1, byteCount (x :: (Token.scan x xs).2)) := by
  obtain ⟨-, hspelled, -⟩ := Token.scan_spelled xs hx
  have hquote : ('"' : Char).utf8Size = 1 := rfl
  have hinner (body rest : List Char) :
      Checked.text? ('"' :: (body ++ rest)) 1 (1 + byteCount body) = some body := by
    have hquote : (Cursor.ofChars ('"' :: (body ++ rest))).Over ['"'] ⟨1, body ++ rest⟩ := ⟨rfl, rfl⟩
    exact ((Cursor.at_ofChars _).move hquote).text? (d := ⟨1 + byteCount body, rest⟩) ⟨rfl, rfl⟩
  simp only [Checked.scan?]
  split
  · rename_i raw hscan
    rw [hscan] at hspelled ⊢
    have hslice : x :: (Token.scan x xs).2 = '"' :: (raw.toList ++ ['"']) := hspelled
    have hcount : byteCount ('"' :: (raw.toList ++ ['"'])) = 1 + byteCount raw.toList + 1 := by
      simp only [byteCount, byteCount_append, hquote]
      omega
    simp only [hslice, hcount, Checked.minus?_of_le (Nat.le_add_left 1 _), Nat.add_sub_cancel, hinner,
      Option.bind_eq_bind, Option.bind_some, String.ofList_toList]
    rfl
  · rename_i raw hscan
    rw [hscan] at hspelled ⊢
    obtain ⟨hlast, returns, hslice⟩ := hspelled
    rw [List.cons_append] at hslice
    have hcount : byteCount ('"' :: (raw.toList ++ List.replicate returns '\r')) =
        1 + byteCount (raw.toList ++ List.replicate returns '\r') := by
      rw [byteCount, hquote]
    have hwhole := hinner (raw.toList ++ List.replicate returns '\r') []
    rw [List.append_nil] at hwhole
    simp only [hslice, hcount, hwhole, trimReturns_append hlast, Option.bind_eq_bind, Option.bind_some,
      String.ofList_toList]
    rfl
  · rfl

/-- A token is scanned alike with checks: its payload is cut out of the source between two cursors, so neither end cuts
a character. -/
theorem emitScanned?_flat (hc : s.cursor.At source) {x : Char} {xs : List Char} (hrest : s.cursor.rest = x :: xs)
    (hx : x ≠ '\n') : (s.flat base).emitScanned? source =
      some ((s.emit (Token.scan x xs).1 ((Token.scan x xs).2.length + 1)).flat base) := by
  have hpos : (s.flat base).pos = s.cursor.offset := rfl
  obtain ⟨⟨after, hafter⟩, -, -⟩ := Token.scan_spelled xs hx
  have htake : (x :: xs).take ((Token.scan x xs).2.length + 1) = x :: (Token.scan x xs).2 := by
    rw [List.take_succ_cons, ← List.prefix_iff_eq_take.1 ⟨after, hafter.symm⟩]
  simp only [Checked.State.emitScanned?, hpos, hc.cursor?, hrest, scan?_eq xs hx, Option.bind_eq_bind, Option.bind_some,
    flat_emit, htake]
  rfl

/-- Reading on byte by byte is reading on character by character, as long as these are bytes. -/
theorem passWhile?_eq {p : Char → Bool} (hp : ∀ x, p x = true → x.utf8Size = 1) {c : Cursor} (hc : c.At source) :
    Checked.passWhile? source p c.offset = some (c.skipWhile p).offset := by
  generalize hrest : c.rest = rest
  induction rest generalizing c with
  | nil =>
    have hend : ¬ c.offset < byteCount source := fun hlt => hc.offset_lt_iff.1 hlt hrest
    rw [Checked.passWhile?, if_neg hend]
    simp [Cursor.skipWhile, hrest, byteCount]
  | cons x xs ih =>
    have hlt : c.offset < byteCount source := hc.offset_lt_iff.2 (by simp [hrest])
    rw [Checked.passWhile?, if_pos hlt]
    simp only [hc.char?, hrest, List.head?_cons, Option.bind_eq_bind, Option.bind_some]
    split
    · rename_i hx
      have hnext : c.Over [x] ⟨c.offset + 1, xs⟩ := ⟨hrest, by simp [byteCount, hp x hx]⟩
      rw [ih (c := ⟨c.offset + 1, xs⟩) (hc.move hnext) rfl]
      simp [Cursor.skipWhile, hrest, hx, byteCount, hp x hx, Nat.add_assoc]
    · rename_i hx
      simp [Cursor.skipWhile, hrest, hx, byteCount]

/-- The look-ahead from a name to its colon comes to the same with checks, and never looks behind the end of the
source. -/
theorem namedArgumentAhead?_eq {c : Cursor} (hc : c.At source) :
    Checked.namedArgumentAhead? source c.offset = some (namedArgumentAhead c.rest) := by
  have hgap (x : Char) (hx : (x == ' ' || x == '\r' || x == '\n') = true) : x.utf8Size = 1 := by
    simp only [Bool.or_eq_true, beq_iff_eq] at hx
    rcases hx with (rfl | rfl) | rfl <;> rfl
  have hname := hc.skipWhile isIdentifierChar
  have hcolon := hname.skipWhile fun c => c == ' ' || c == '\r' || c == '\n'
  simp only [Checked.namedArgumentAhead?, passWhile?_eq (fun x hx => Line.utf8Size_of_isIdentifierChar hx) hc,
    passWhile?_eq hgap hname, hcolon.cursor?, Option.bind_eq_bind, Option.bind_some]
  unfold namedArgumentAhead
  simp only [Cursor.skipWhile]
  split
  · rename_i hrest
    rw [hrest]
    rfl
  · rename_i hrest
    rw [Option.pure_def, Option.some.injEq, beq_eq_false_iff_ne]
    intro hhead
    obtain ⟨after, hafter⟩ := List.head?_eq_some_iff.1 hhead
    exact hrest after hafter

/-! ## Blanks -/

/-- In front of something that is not layout, an expression goes on. -/
theorem skipBlank?_of_solid {c : Cursor} (hc : c.At source) {x : Char} {xs : List Char} (hrest : c.rest = x :: xs)
    (hx : isLayout x = false) : Checked.skipBlank? source c.offset = some (c.offset, true) := by
  simp only [isLayout, Bool.or_eq_false_iff, beq_eq_false_iff_ne] at hx
  rw [Checked.skipBlank?, if_pos (hc.offset_lt_iff.2 (by simp [hrest]))]
  simp [hc.char?, hrest, hx]

/-- Blanks are passed one by one. -/
theorem skipBlank?_skipWhile {c : Cursor} (hc : c.At source) :
    Checked.skipBlank? source c.offset = Checked.skipBlank? source (c.skipWhile Line.isBlankChar).offset := by
  generalize hrest : c.rest = rest
  induction rest generalizing c with
  | nil => simp [Cursor.skipWhile, hrest, byteCount]
  | cons x xs ih =>
    by_cases hx : Line.isBlankChar x = true
    · have hnext := hc.move (Cursor.Over.ofLayout hrest (isLayout_of_isBlankChar hx))
      have hend : c.skipWhile Line.isBlankChar = (⟨c.offset + 1, xs⟩ : Cursor).skipWhile Line.isBlankChar := by
        simp [Cursor.skipWhile, hrest, hx, byteCount, utf8Size_of_isLayout (isLayout_of_isBlankChar hx), Nat.add_assoc]
      rw [hend, ← ih (c := ⟨c.offset + 1, xs⟩) hnext rfl, Checked.skipBlank?,
        if_pos (hc.offset_lt_iff.2 (by simp [hrest]))]
      simp [hc.char?, hrest, hx]
    · simp [Cursor.skipWhile, hrest, hx, byteCount]

/-- Where an expression goes on, if it does, and otherwise what is found instead stands behind the blanks. -/
theorem skipBlank?_eq {c : Cursor} (hc : c.At source) :
    Checked.skipBlank? source c.offset = some (match c.skipBlank? with
      | some d => (d.offset, true)
      | none => ((c.skipWhile Line.isBlankChar).offset, false)) := by
  have hhere := hc.skipWhile Line.isBlankChar
  have hsolid : ∀ x xs, (c.skipWhile Line.isBlankChar).rest = x :: xs → Line.isBlankChar x = false := by
    intro x xs h
    have hnot := List.head?_dropWhile_not Line.isBlankChar c.rest
    rw [show c.rest.dropWhile Line.isBlankChar = x :: xs from h] at hnot
    simpa using hnot
  rw [skipBlank?_skipWhile hc]
  unfold Cursor.skipBlank?
  simp only
  generalize c.skipWhile Line.isBlankChar = here at hhere hsolid ⊢
  have hnext := hhere.nextContent?
  rw [Checked.skipBlank?]
  cases hrest : here.rest with
  | nil =>
    rw [if_neg fun hlt => hhere.offset_lt_iff.1 hlt hrest]
    rfl
  | cons x xs =>
    have hfirst : Checked.char? source here.offset = some x := by rw [hhere.char?, hrest]; rfl
    rw [hrest] at hnext
    rw [if_pos (hhere.offset_lt_iff.2 (by simp [hrest]))]
    simp only [hfirst, hsolid x xs hrest, Option.bind_eq_bind, Option.bind_some, Bool.false_eq_true, if_false]
    by_cases hbreak : x = '\n'
    · subst hbreak
      simp only [if_true, hnext, Option.bind_some]
      cases hl : Line.nextContent? ('\n' :: xs) with
      | none => rfl
      | some l =>
        have hcontent := hhere.toContent (hrest ▸ hl)
        obtain ⟨_, -, hover⟩ := Cursor.over_toContent (c := here) (hrest ▸ hl)
        have hahead : here.offset < (here.toContent l).offset := hover.offset_lt (by simp)
        obtain ⟨-, -, -, -, -, hline⟩ := Line.nextContent?_eq_some hl
        obtain ⟨y, ys, hy, hlayout⟩ := Line.dropWhile_isBlankChar hline
        simp only [Option.map_some, Checked.NextLine.continuesExpression_ofNext, Cursor.At.content_ofNext]
        cases l.continuesExpression with
        | false => rfl
        | true =>
          simp only [if_true, Checked.ahead?_of_lt hahead, Option.bind_some]
          rw [skipBlank?_skipWhile hcontent]
          exact skipBlank?_of_solid (hcontent.skipWhile _) hy hlayout
    · rw [if_neg hbreak]
      simp [hbreak]

/-- What is read behind blanks. -/
theorem onContent?_flat (hc : s.cursor.At source) {read : State → Step} {read' : Checked.State → Option Checked.Step}
    (h : ∀ (c : Cursor) (x : Char) (xs : List Char), c.At source → c.rest = x :: xs → isLayout x = false →
      read' (({ s with cursor := c } : State).flat base) = some ((read { s with cursor := c }).flat base)) :
    (s.flat base).onContent? source read' = some ((s.onContent read).flat base) := by
  have hpos : (s.flat base).pos = s.cursor.offset := rfl
  simp only [Checked.State.onContent?, hpos, skipBlank?_eq hc, Option.bind_eq_bind, Option.bind_some, onContent]
  cases hd : s.cursor.skipBlank? with
  | none => rfl
  | some d =>
    obtain ⟨gap, x, xs, -, hover, hrest, hx, -⟩ := Cursor.over_skipBlank hd
    exact h d x xs (hc.move hover) hrest hx

/-- Where something stands, one token is read. -/
theorem flat_emitScanned (hc : s.cursor.At source) {x : Char} {xs : List Char} (hrest : s.cursor.rest = x :: xs)
    (hx : x ≠ '\n') :
    ((s.flat base).emitScanned? source).map .next = some (s.emitScanned.flat base) := by
  rw [emitScanned?_flat hc hrest hx, emitScanned, hrest]
  rfl

/-- Exchanging open constructs for others around the same items. -/
theorem flat_reframe (s : State) {gs : List Frame} (h : Reads.outerItems gs = Reads.outerItems s.frames) :
    ({ s with frames := gs } : State).flat base = (s.flat base).reframe (flatFrames base gs s.items) := by
  simp only [flat, held, h]
  rfl

/-- A token that opens or closes a construct. -/
theorem flat_emit_reframe (s : State) (t : Token) (n : Nat) {gs : List Frame}
    (h : Reads.outerItems gs = Reads.outerItems s.frames) :
    ({ s.emit t n with frames := gs } : State).flat base =
      ((s.flat base).emit t (byteCount (s.cursor.rest.take n))).reframe (flatFrames base gs s.items) := by
  rw [← flat_emit, ← flatFrames_lexeme]
  exact flat_reframe (s.emit t n) h

theorem readPlaceable?_flat (hc : s.cursor.At source) {x : Char} {xs : List Char} (hrest : s.cursor.rest = x :: xs)
    (hx : x ≠ '\n') (hfs : s.frames = .placeable :: fs) :
    (s.flat base).readPlaceable? source limit (flatFrames base fs s.items) =
      some ((s.readPlaceable limit fs).flat base) := by
  have hpos : (s.flat base).pos = s.cursor.offset := rfl
  have houter := Reads.outerItems_of_frames hfs rfl
  have hscanned : ((s.flat base).emitScanned? source).map Checked.Step.next = _ := flat_emitScanned hc hrest hx
  unfold Checked.State.readPlaceable?
  simp only [hpos, hc.cursor?, Option.bind_eq_bind, Option.bind_some]
  split
  · rename_i hbrace
    simp only [readPlaceable, hbrace, Step.flat, flat_emit_reframe s _ _ houter]
    rfl
  · rename_i hbrace
    rw [readPlaceable, hbrace]
    exact openPlaceable?_flat hc hbrace
  · rename_i hparen
    rw [readPlaceable, hparen]
    exact openArguments?_flat hc hparen
  · rename_i harrow
    simp only [readPlaceable, harrow, Step.flat,
      flat_emit_reframe s _ _ (show Reads.outerItems (.variants :: fs) = _ from houter)]
    rfl
  · rename_i hclose hbrace hparen harrow
    have hnot {y : Char} (h : ∀ ys, s.cursor.rest = y :: ys → False) : x ≠ y := by
      rintro rfl
      exact h xs hrest
    have hsign : x = '-' → ∀ ys, xs ≠ '>' :: ys := by
      rintro rfl ys rfl
      exact harrow ys hrest
    rw [hscanned, readPlaceable_otherwise hrest (hnot hclose) (hnot hbrace) (hnot hparen) hsign]

theorem readVariants?_flat (hc : s.cursor.At source) {x : Char} {xs : List Char} (hrest : s.cursor.rest = x :: xs)
    (hx : x ≠ '\n') (hfs : s.frames = .variants :: fs) :
    (s.flat base).readVariants? source (flatFrames base fs s.items) = some ((s.readVariants fs).flat base) := by
  have hpos : (s.flat base).pos = s.cursor.offset := rfl
  have houter := Reads.outerItems_of_frames hfs rfl
  have hscanned : ((s.flat base).emitScanned? source).map Checked.Step.next = _ := flat_emitScanned hc hrest hx
  unfold Checked.State.readVariants?
  simp only [hpos, hc.cursor?, Option.bind_eq_bind, Option.bind_some]
  split
  · rename_i hbrace
    simp only [readVariants, hbrace, Step.flat, flat_emit_reframe s _ _ houter]
    rfl
  · rename_i hbracket
    simp only [readVariants, hbracket, Step.flat,
      flat_emit_reframe s _ _ (show Reads.outerItems (.key false :: s.frames) = _ from rfl)]
    rfl
  · rename_i hclose hbracket
    have hnot {y : Char} (h : ∀ ys, s.cursor.rest = y :: ys → False) : x ≠ y := by
      rintro rfl
      exact h xs hrest
    rw [hscanned, readVariants_otherwise hrest (hnot hclose) (hnot hbracket)]

theorem readKey?_flat (hc : s.cursor.At source) {x : Char} {xs : List Char} (hrest : s.cursor.rest = x :: xs)
    (hx : x ≠ '\n') {read : Bool} (hfs : s.frames = .key read :: fs) :
    (s.flat base).readKey? source read (flatFrames base fs s.items) = some ((s.readKey read fs).flat base) := by
  have hpos : (s.flat base).pos = s.cursor.offset := rfl
  have houter := Reads.outerItems_of_frames hfs rfl
  unfold Checked.State.readKey?
  simp only [hpos, hc.cursor?, Option.bind_eq_bind, Option.bind_some]
  split
  · rename_i hbracket
    have hclosed : ({ s.emit .closeBracket 1 with frames := fs } : State).flat base = _ :=
      flat_emit_reframe s .closeBracket 1 houter
    have hvalue : (({ s.emit .closeBracket 1 with frames := fs } : State).flat base).beginValue? source = _ :=
      beginValue?_flat (hc.skip 1)
    rw [hclosed, hbracket] at hvalue
    rw [readKey, hbracket]
    exact congrArg (Option.map Checked.Step.next) hvalue
  · rename_i hbracket
    have hkey : (s.flat base).reframe (.key true :: flatFrames base fs s.items) =
        ({ s with frames := .key true :: fs } : State).flat base := .symm (flat_reframe s houter)
    have hscanned : ((({ s with frames := .key true :: fs } : State).flat base).emitScanned? source).map
        Checked.Step.next = _ := flat_emitScanned hc hrest hx
    have hnot : x ≠ ']' := by
      rintro rfl
      exact hbracket xs hrest
    rw [readKey_otherwise hrest hnot]
    simp only [hkey, hscanned, ← flat_reframe s houter]
    cases read with
    | false => rfl
    | true => rfl

/-- The token of an argument, and whether it separates this argument from the next. -/
theorem argument?_flat {t : State} (hc : t.cursor.At source) {x : Char} {xs : List Char} (hrest : t.cursor.rest = x :: xs)
    (hx : x ≠ '\n') (houter : Reads.outerItems fs = Reads.outerItems t.frames) (positional : Bool) :
    ((t.flat base).emitScanned? source).bind (fun u => some (Checked.Step.next (u.reframe
        (.arguments positional (u.tokens.getLast?.map (·.token) == some .comma) :: flatFrames base fs t.items)))) =
      some ((Step.next { t.emit (Token.scan x xs).1 ((Token.scan x xs).2.length + 1) with
        frames := .arguments positional ((Token.scan x xs).1 == .comma) :: fs }).flat base) := by
  have hlast (n : Nat) :
      ((t.flat base).emit (Token.scan x xs).1 n).tokens.getLast?.map (·.token) = some (Token.scan x xs).1 := by
    simp [Checked.State.emit]
  rw [emitScanned?_flat hc hrest hx, Step.flat,
    flat_emit_reframe t _ _ (show Reads.outerItems (.arguments positional _ :: fs) = _ from houter)]
  simp only [Option.bind_some, flat_emit, hlast]
  rfl

/-- A token of an argument is read where nothing else is. -/
theorem readArguments_token {s : State} {x : Char} {xs : List Char} (hrest : s.cursor.rest = x :: xs)
    (hclose : x ≠ ')') (hbrace : x ≠ '{') (hopen : x ≠ '(') (positional atStart : Bool) {named : Bool}
    (hnamed : (positional && atStart && isIdentifierStart x && namedArgumentAhead (x :: xs)) = named) :
    s.readArguments limit positional atStart fs =
      .next { (if named then s.mark .endPositional else s).emit (Token.scan x xs).1 ((Token.scan x xs).2.length + 1) with
        frames := .arguments (positional && !named) ((Token.scan x xs).1 == .comma) :: fs } := by
  subst hnamed
  unfold readArguments
  split
  all_goals rename_i h
  all_goals rw [hrest] at h
  all_goals simp_all

theorem readArguments?_flat (hc : s.cursor.At source) {x : Char} {xs : List Char} (hrest : s.cursor.rest = x :: xs)
    (hx : x ≠ '\n') {positional atStart : Bool} (hfs : s.frames = .arguments positional atStart :: fs) :
    (s.flat base).readArguments? source limit positional atStart (flatFrames base fs s.items) =
      some ((s.readArguments limit positional atStart fs).flat base) := by
  have hpos : (s.flat base).pos = s.cursor.offset := rfl
  have houter := Reads.outerItems_of_frames hfs rfl
  have hinner : (s.flat base).reframe (.arguments positional false :: flatFrames base fs s.items) =
      ({ s with frames := .arguments positional false :: fs } : State).flat base :=
    .symm (flat_reframe s houter)
  unfold Checked.State.readArguments?
  simp only [hpos, hc.cursor?, Option.bind_eq_bind, Option.bind_some, hinner]
  split
  · rename_i hparen
    rw [readArguments, hparen]
    cases positional with
    | false =>
      simp only [Bool.false_eq_true, if_false, Step.flat, flat_emit_reframe s _ _ houter, hparen]
      rfl
    | true =>
      have hitems : flatFrames base fs (s.mark .endPositional).items = flatFrames base fs s.items :=
        flatFrames_lexeme fs _ s.items
      simp only [if_true, Step.flat, flat_emit_reframe (s.mark .endPositional) _ _ houter, hitems, flat_mark,
        State.cursor_mark, hparen]
      rfl
  · rename_i hbrace
    rw [readArguments, hbrace]
    exact openPlaceable?_flat (s := { s with frames := .arguments positional false :: fs }) hc hbrace
  · rename_i hparen
    rw [readArguments, hparen]
    exact openArguments?_flat (s := { s with frames := .arguments positional false :: fs }) hc hparen
  · rename_i hnil
    rw [hrest] at hnil
    cases hnil
  · rename_i y ys h₁ h₂ h₃ hy
    obtain ⟨rfl, rfl⟩ := List.cons.inj (hrest.symm.trans hy)
    have hnamed : Checked.hasName? source (positional && atStart && isIdentifierStart x) s.cursor.offset =
        some (positional && atStart && isIdentifierStart x && namedArgumentAhead (x :: xs)) := by
      rw [Checked.hasName?, namedArgumentAhead?_eq hc, hrest]
      cases positional && atStart && isIdentifierStart x <;> rfl
    generalize hname : (positional && atStart && isIdentifierStart x && namedArgumentAhead (x :: xs)) = named at hnamed
    rw [readArguments_token hrest h₁ h₂ h₃ positional atStart hname, hnamed, Option.bind_some]
    cases named with
    | false => exact argument?_flat hc hrest hx houter (positional && !false)
    | true =>
      have hitems : flatFrames base fs (s.mark .endPositional).items = flatFrames base fs s.items :=
        flatFrames_lexeme fs _ s.items
      simp only [if_true, ← hitems, ← flat_mark]
      exact argument?_flat (t := s.mark .endPositional) hc hrest hx houter (positional && !true)

/-- **A step of the flat state** is the flat form of the step: no check fails. -/
theorem flat_step (hc : s.cursor.At source) (hruns : ∀ r, .run r ∈ s.items → r.At source) :
    (s.flat base).step? source limit = some ((s.step limit).flat base) := by
  have hflat : (s.flat base).frames = flatFrames base s.frames s.items := rfl
  have hbreak {x : Char} (hx : isLayout x = false) : x ≠ '\n' := by
    rintro rfl
    cases hx
  rw [Checked.State.step?, step, hflat]
  cases hfs : s.frames with
  | nil => exact betweenAttributes?_flat hc
  | cons f fs =>
    cases f with
    | pattern outer breaks indent => exact readText?_flat hc hfs hruns
    | placeable =>
      exact onContent?_flat hc fun d x xs hd hrest hx =>
        readPlaceable?_flat (s := { s with cursor := d }) hd hrest (hbreak hx) hfs
    | arguments positional atStart =>
      exact onContent?_flat hc fun d x xs hd hrest hx =>
        readArguments?_flat (s := { s with cursor := d }) hd hrest (hbreak hx) hfs
    | variants =>
      exact onContent?_flat hc fun d x xs hd hrest hx =>
        readVariants?_flat (s := { s with cursor := d }) hd hrest (hbreak hx) hfs
    | key read =>
      exact onContent?_flat hc fun d x xs hd hrest hx =>
        readKey?_flat (s := { s with cursor := d }) hd hrest (hbreak hx) hfs

end State

end Fluent
