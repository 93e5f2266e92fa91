import Fluent.Proofs.Account
import Fluent.Proofs.Outcomes
import Fluent.Token.Block

/-!
# The machine keeps its account

While an entry is read, its tokens account for the source from its header on. A token that could begin an
entry never stands at a line start then: at a line start the machine is in an expression, in front of a sign
that goes on with it.

* `State.Sound c t s`: the items of `s` account for the text `t` from `c` on, and the cursor is inside its
  entry.
* `State.sound_step`, `State.sound_run`: a step and a run keep this.
* `State.reads_run_ofHeader`: what it says of the tokens of an entry.
-/

namespace Fluent

/-- The text breaks off within a line. What is read next is then no line start, and belongs to the line that is being
read. -/
def MidLine (t : List Char) : Prop := ∃ x, t.getLast? = some x ∧ x ≠ '\n'

/-- A token that could begin an entry does not stand at a later line start; at the first one nothing else
stands. -/
structure Inner (t : List Char) (k : Token) : Prop where
  later : k.startsItem = true → t.getLast? ≠ some '\n'
  first : t = [] → k.opensEntry = true

theorem MidLine.append {t w : List Char} (ht : MidLine t) (hw : '\n' ∉ w) : MidLine (t ++ w) := by
  rcases List.eq_nil_or_concat w with rfl | ⟨w, x, rfl⟩
  · simpa using ht
  · refine ⟨x, by rw [List.concat_eq_append, ← List.append_assoc, List.getLast?_concat], ?_⟩
    rintro rfl
    simp at hw

theorem MidLine.of_append {t w : List Char} (hne : w ≠ []) (hw : '\n' ∉ w) : MidLine (t ++ w) := by
  obtain ⟨w, x, rfl⟩ := (List.eq_nil_or_concat w).resolve_left hne
  refine ⟨x, by rw [List.concat_eq_append, ← List.append_assoc, List.getLast?_concat], ?_⟩
  rintro rfl
  simp at hw

theorem MidLine.not_newline {t : List Char} (ht : MidLine t) : t.getLast? ≠ some '\n' := by
  obtain ⟨x, hx, hne⟩ := ht
  rw [hx]
  exact fun h => hne (Option.some.inj h)

theorem MidLine.ne_nil {t : List Char} (ht : MidLine t) : t ≠ [] := by
  rintro rfl
  obtain ⟨x, hx, -⟩ := ht
  simp at hx

theorem MidLine.inner {t : List Char} (ht : MidLine t) (k : Token) : Inner t k :=
  ⟨fun _ => ht.not_newline, fun hnil => absurd hnil ht.ne_nil⟩

theorem Inner.of_not_startsItem {t : List Char} {k : Token} (ht : t ≠ []) (h : k.startsItem = false) :
    Inner t k :=
  ⟨fun hk => by simp [h] at hk, fun hnil => absurd hnil ht⟩

namespace State

/-- The brackets of a variant's key stand among variants. So a step that closes them finds the variants underneath, and
the value of one is read next. -/
def KeysInVariants : List Frame → Prop
  | [] => True
  | .key _ :: fs => fs.head? = some .variants ∧ KeysInVariants fs
  | _ :: fs => KeysInVariants fs

/-- The innermost construct is an expression. Only in one may a line that is not indented go on with the entry. -/
def InExpression : List Frame → Prop
  | [] => False
  | .pattern .. :: _ => False
  | _ => True

/-- The items of a state account for the text read so far: those of the innermost construct, and then those of the
patterns around it, the latest first. -/
structure Accounts (c : Cursor) (t : List Char) (s : State) : Prop where
  reads : Reads Inner c t (s.items ++ Reads.outerItems s.frames) s.cursor
  keys : KeysInVariants s.frames

/-- The cursor is inside its entry: at a line start something goes on with an expression. -/
def Inside (t : List Char) (s : State) : Prop :=
  t.getLast? = some '\n' → InExpression s.frames ∧
    ∃ x rest, s.cursor.rest = x :: rest ∧ Line.continuesExpression x = true

/-- The state accounts for the text read so far, and is inside its entry. This is the invariant of the machine:
everything said of its tokens and of the cursor comes from it. -/
structure Sound (c : Cursor) (t : List Char) (s : State) : Prop extends Accounts c t s where
  begun : t ≠ []
  inside : s.Inside t

/-- Within a line the account is all that is asked for: only at a line start does it matter what goes on with the
entry. -/
theorem Accounts.sound {c : Cursor} {t : List Char} {s : State} (h : s.Accounts c t)
    (ht : MidLine t) : s.Sound c t :=
  ⟨h, ht.ne_nil, fun hlast => absurd hlast ht.not_newline⟩

theorem Sound.midLine {c : Cursor} {t : List Char} {s : State} (h : s.Sound c t)
    (ht : t.getLast? ≠ some '\n') : MidLine t := by
  rcases List.eq_nil_or_concat t with rfl | ⟨t, x, rfl⟩
  · exact absurd rfl h.begun
  · rw [List.concat_eq_append, List.getLast?_concat] at ht
    exact ⟨x, by simp, fun hx => ht (by rw [hx])⟩

/-- Outside an expression, the machine does not stop at a line start. -/
theorem Sound.midLine_outside {c : Cursor} {t : List Char} {s : State} (h : s.Sound c t)
    (hfs : ¬ InExpression s.frames) : MidLine t := by
  apply h.midLine
  intro hlast
  exact hfs (h.inside hlast).1

/-- In front of something that does not go on with an expression, the machine is not at a line start. -/
theorem Sound.midLine_before {c : Cursor} {t : List Char} {s : State} (h : s.Sound c t) {x : Char}
    {rest : List Char} (hrest : s.cursor.rest = x :: rest) (hx : Line.continuesExpression x = false) :
    MidLine t := by
  apply h.midLine
  intro hlast
  obtain ⟨-, y, after, hy, hcontinues⟩ := h.inside hlast
  rw [hrest] at hy
  obtain rfl := (List.cons.inj hy).1
  simp [hx] at hcontinues

/-- What holds of the keys holds of those around the innermost construct. -/
theorem Accounts.outerKeys {c : Cursor} {t : List Char} {s : State} (h : s.Accounts c t) {f : Frame}
    {fs : List Frame} (hfs : s.frames = f :: fs) : KeysInVariants fs := by
  have hkeys := h.keys
  rw [hfs] at hkeys
  cases f with
  | key => exact hkeys.2
  | _ => exact hkeys

end State

/-- What a step leads to is sound; where the machine stops, nothing is left on the line. -/
def Step.Sound (c : Cursor) : Step → Prop
  | .next s => ∃ t, s.Sound c t
  | .stop _ s => (∃ t, s.Sound c t) ∧ Line.isBlank s.cursor.rest = true

namespace Line

theorem take_length_head (cs : List Char) : cs.take (head cs).length = head cs :=
  take_length_takeWhile _ cs

theorem drop_length_head (cs : List Char) : cs.drop (head cs).length = tail cs :=
  drop_length_takeWhile _ cs

theorem isBlank_tail (cs : List Char) : isBlank (tail cs) = true := by
  rcases tail_eq_nil_or cs with htail | ⟨rest, htail⟩ <;> simp [htail, isBlank, head]

/-- The header of a term has a dash in front of it. -/
theorem entryHeader?_eq_some {cs : List Char} {isTerm : Bool} {a : Assignment}
    (h : entryHeader? cs = some (isTerm, a)) :
    (isTerm = true ∧ ∃ rest, cs = '-' :: rest ∧ assignment? rest = some a) ∨
      (isTerm = false ∧ assignment? cs = some a) := by
  unfold entryHeader? at h
  split at h
  · rename_i rest
    obtain ⟨b, hb, heq⟩ := Option.map_eq_some_iff.1 h
    obtain ⟨rfl, rfl⟩ := Prod.mk.inj heq
    exact .inl ⟨rfl, rest, rfl, hb⟩
  · obtain ⟨b, hb, heq⟩ := Option.map_eq_some_iff.1 h
    obtain ⟨rfl, rfl⟩ := Prod.mk.inj heq
    exact .inr ⟨rfl, hb⟩

/-- The parts of a name with an equals sign. -/
theorem assignment?_eq_some {cs : List Char} {a : Assignment} (h : assignment? cs = some a) :
    cs = a.name ++ (List.replicate a.spaces ' ' ++ '=' :: a.rest) ∧ a.name ≠ [] ∧ '\n' ∉ a.name := by
  obtain ⟨x, xs, rfl, hstart, hname, hafter⟩ := assignment?_eq_cons h
  rw [hname]
  refine ⟨?_, List.cons_ne_nil _ _, ?_⟩
  · rw [List.cons_append, ← hafter, List.takeWhile_append_dropWhile]
  · rw [List.mem_cons, not_or]
    exact ⟨(identifierStart_ne_newline hstart).symm,
      fun hmem => identifierChar_ne_newline (List.mem_takeWhile_imp hmem) rfl⟩

end Line

/-- Of the tokens that a scan can give, those that could begin an entry do not begin like something that
goes on with an expression. -/
theorem Token.startsItem_scan {c : Char} {cs : List Char} (h : (scan c cs).1.startsItem = true) :
    Line.continuesExpression c = false := by
  by_contra hc
  rw [Bool.not_eq_false] at hc
  simp only [Line.continuesExpression, Bool.or_eq_true, beq_iff_eq] at hc
  rcases hc with ((rfl | rfl) | rfl) | rfl <;> simp [scan, isIdentifierStart, ofChar, startsItem] at h

namespace State

variable {c : Cursor} {t w : List Char} {s : State} {k : Token}

/-! ## Single moves -/

/-- Reads a token that its text spells. -/
theorem Accounts.emit (h : s.Accounts c t) {n : Nat} (hw : s.cursor.rest.take n = w) (hk : Inner t k)
    (hspelled : k.SpelledBy w) : (s.emit k n).Accounts c (t ++ w) := by
  obtain rfl := hw
  exact ⟨h.reads.lexeme hk (Cursor.over_skip n s.cursor) rfl hspelled, h.keys⟩

/-- Places a marker, which takes no text. -/
theorem Accounts.mark (h : s.Accounts c t) (ht : t ≠ []) (hk : k.startsItem = false)
    (hspelled : k.SpelledBy []) :
    (s.mark k).Accounts c t := by
  have hreads := h.reads.lexeme (l := ⟨k, .at s.cursor.offset⟩) (.of_not_startsItem ht hk)
    (.refl s.cursor) rfl hspelled
  rw [List.append_nil] at hreads
  exact ⟨hreads, h.keys⟩

/-- Moves over layout. -/
theorem Accounts.move (h : s.Accounts c t) {gap : List Char} {d : Cursor}
    (hgap : ∀ x ∈ gap, isLayout x = true) (hover : s.cursor.Over gap d) :
    ({ s with cursor := d } : State).Accounts c (t ++ gap) :=
  ⟨h.reads.layouts hgap hover, h.keys⟩

/-- Exchanges the open constructs for others that hold the same items. -/
theorem Accounts.reframe (h : s.Accounts c t) {fs : List Frame}
    (hitems : Reads.outerItems fs = Reads.outerItems s.frames) (hkeys : KeysInVariants fs) :
    ({ s with frames := fs } : State).Accounts c t :=
  ⟨by simpa [hitems] using h.reads, hkeys⟩

/-- The rest of the line as a token. -/
theorem Accounts.emitUnfinished (h : s.Accounts c t) (ht : MidLine t) :
    s.emitUnfinished.Accounts c (t ++ Line.head s.cursor.rest) :=
  h.emit (Line.take_length_head _) (ht.inner _) trivial

theorem isBlank_emitUnfinished (s : State) : Line.isBlank s.emitUnfinished.cursor.rest = true := by
  show Line.isBlank (s.cursor.rest.drop (Line.head s.cursor.rest).length) = true
  rw [Line.drop_length_head]
  exact Line.isBlank_tail _

/-- Nothing is left of a line that is finished. -/
theorem isBlank_finishLine (s : State) : Line.isBlank s.finishLine.cursor.rest = true := by
  unfold State.finishLine
  split
  · exact Line.isBlank_tail _
  · exact s.isBlank_emitUnfinished

/-- What is blank up to the end of the line is layout, and is passed without an item. -/
theorem Accounts.toLineEnd (h : s.Accounts c t) (hblank : Line.isBlank s.cursor.rest = true) :
    s.toLineEnd.Accounts c (t ++ Line.head s.cursor.rest) :=
  h.move (fun x hx => isLayout_of_isBlankChar (Line.isBlank_iff.1 hblank x hx)) (Cursor.over_lineEnd _)

/-- Whatever is left of the line is read. -/
theorem Accounts.finishLine (h : s.Accounts c t) (ht : MidLine t) :
    s.finishLine.Accounts c (t ++ Line.head s.cursor.rest) := by
  unfold State.finishLine
  split
  · rename_i hblank
    exact h.toLineEnd hblank
  · exact h.emitUnfinished ht

theorem midLine_head (ht : MidLine t) (cs : List Char) : MidLine (t ++ Line.head cs) :=
  ht.append (Line.newline_notMem_head cs)

/-- Moves to an indented line. -/
theorem Accounts.toContent (h : s.Accounts c t) {l : Line.Next}
    (hl : Line.nextContent? s.cursor.rest = some l) (hindent : 0 < l.indent) :
    ∃ t', ({ s with cursor := s.cursor.toContent l } : State).Accounts c t' ∧ MidLine t' := by
  obtain ⟨blanks, hblanks, hover⟩ := Cursor.over_toContent hl
  obtain ⟨n, hn⟩ := Nat.exists_eq_succ_of_ne_zero (Nat.pos_iff_ne_zero.1 hindent)
  refine ⟨_, h.move ?_ hover, ?_⟩
  · intro x hx
    simp only [List.mem_append, List.mem_cons, List.mem_replicate] at hx
    rcases hx with hx | rfl | ⟨-, rfl⟩
    · exact hblanks x hx
    · rfl
    · rfl
  · -- the last character is one of the indentation
    rw [hn, List.replicate_succ', ← List.cons_append, ← List.append_assoc, ← List.append_assoc]
    exact .of_append (by simp) (by simp)

theorem Accounts.emitAssignment (h : s.Accounts c t) {a : Line.Assignment}
    (ht : Inner t (.identifier (String.ofList a.name))) (ha : Line.assignment? s.cursor.rest = some a) :
    ∃ t', (s.emitAssignment a).Accounts c t' ∧ MidLine t' := by
  obtain ⟨hrest, hne, hmem⟩ := Line.assignment?_eq_some ha
  have hname := h.emit (k := .identifier (String.ofList a.name)) (n := a.name.length) (w := a.name)
    (by rw [hrest, List.take_left]) ht (by simp [Token.SpelledBy, hne])
  have hcursor : (s.emit (.identifier (String.ofList a.name)) a.name.length).cursor.rest =
      List.replicate a.spaces ' ' ++ '=' :: a.rest := by
    show s.cursor.rest.drop _ = _
    rw [hrest, List.drop_left]
  have hblanks : ∀ x ∈ List.replicate a.spaces ' ', isLayout x = true := by
    simp +contextual [isLayout, Line.isBlankChar]
  have hover : (s.emit (.identifier (String.ofList a.name)) a.name.length).cursor.Over
      (List.replicate a.spaces ' ')
      ((s.emit (.identifier (String.ofList a.name)) a.name.length).cursor.skip a.spaces) := by
    have hskip := Cursor.over_skip a.spaces
      (s.emit (.identifier (String.ofList a.name)) a.name.length).cursor
    rwa [hcursor, List.take_left' (by simp)] at hskip
  have hspaces := hname.move hblanks hover
  have hequals := hspaces.emit (k := .equals) (n := 1) (w := ['='])
    (by
      show ((s.emit (.identifier (String.ofList a.name)) a.name.length).cursor.rest.drop _).take 1 = _
      rw [hcursor, List.drop_left' (by simp)]
      rfl)
    (.of_not_startsItem (by simp [hne]) rfl) rfl
  exact ⟨_, hequals, .of_append (by simp) (by simp)⟩

theorem Accounts.openPattern (h : s.Accounts c t) (ht : t ≠ []) (indent : Option Nat) :
    (s.openPattern indent).Accounts c t := by
  have hmark := h.mark (k := .patternStart) ht rfl rfl
  exact ⟨hmark.reads, hmark.keys⟩

/-- A value that follows a sign on its line. -/
theorem Accounts.beginValue (h : s.Accounts c t) (ht : MidLine t) :
    ∃ t', s.beginValue.Accounts c t' ∧ MidLine t' := by
  have hspaces : ∀ x ∈ s.cursor.rest.takeWhile (· == ' '), x = ' ' :=
    fun x hx => by simpa using List.mem_takeWhile_imp hx
  have hmove := h.move (fun x hx => by rw [hspaces x hx]; rfl) (Cursor.over_skipWhile (· == ' ') s.cursor)
  have hlast := ht.append (w := s.cursor.rest.takeWhile (· == ' '))
    fun hx => by simpa using hspaces _ hx
  have hvalue := s.valueBegins
  generalize s.beginValue = u at hvalue ⊢
  cases hvalue with
  | inline => exact ⟨_, hmove.openPattern hlast.ne_nil none, hlast⟩
  | below hblank hl hcontinues =>
    obtain ⟨t', hcontent, ht'⟩ := (hmove.toLineEnd hblank).toContent hl (Line.indent_pos_of_continuesPattern hcontinues)
    exact ⟨t', hcontent.openPattern ht'.ne_nil _, ht'⟩
  | missing hblank =>
    have hskip := (hmove.mark (k := .patternSkip) hlast.ne_nil rfl rfl).toLineEnd hblank
    exact ⟨_, hskip, midLine_head hlast _⟩

/-! ## Steps -/

/-- Between attributes a line break is crossed only to an indented line, of which something is read in the same step. -/
theorem sound_betweenAttributes (h : s.Accounts c t) (ht : MidLine t) :
    s.betweenAttributes.Sound c := by
  have hline := h.finishLine ht
  have hlast := midLine_head ht s.cursor.rest
  have hblank := s.isBlank_finishLine
  have hfollows := s.attributeFollows
  generalize s.finishLine = u, s.betweenAttributes = step at hline hblank hfollows ⊢
  cases hfollows with
  | header hl hindent hdot ha =>
    obtain ⟨t', hcontent, ht'⟩ := hline.toContent hl hindent
    have hemit := hcontent.emit (k := .dot) (n := 1) (w := ['.']) (by rw [List.take_one, hdot]; rfl) (ht'.inner _) rfl
    have hdotLast : MidLine (t' ++ ['.']) := .of_append (by simp) (by simp)
    obtain ⟨t₁, h₁, ht₁⟩ := hemit.emitAssignment (hdotLast.inner _) ha
    obtain ⟨t₂, h₂, ht₂⟩ := h₁.beginValue ht₁
    exact ⟨t₂, h₂.sound ht₂⟩
  | unfinished hl hindent =>
    obtain ⟨t', hcontent, ht'⟩ := hline.toContent hl hindent
    exact ⟨_, (hcontent.emitUnfinished ht').sound (midLine_head ht' _)⟩
  | stop => exact ⟨⟨_, hline.sound hlast⟩, hblank⟩

/-- An opening bracket, or the rest of the line if it nests too deep. -/
theorem sound_open (h : s.Sound c t) {x : Char} {rest : List Char} (hrest : s.cursor.rest = x :: rest)
    (hx : Line.continuesExpression x = false) (hk : k.startsItem = false) (hspelled : k.SpelledBy [x])
    (hbreak : x ≠ '\n') {f : Frame} (hf : f.nests = true) (limit : Nat) (e : Ending) :
    (if s.depth < limit then Step.next { s.emit k 1 with frames := f :: s.frames }
      else .stop e s.emitUnfinished).Sound c := by
  have hemit := h.emit (k := k) (n := 1) (w := [x]) (by rw [hrest]; rfl)
    (.of_not_startsItem h.begun hk) hspelled
  have ht := h.midLine_before hrest hx
  split
  · refine ⟨t ++ [x], (hemit.reframe ?_ ?_).sound (.of_append (by simp) (by simpa using hbreak.symm))⟩
    · cases f <;> first | rfl | simp [Frame.nests] at hf
    · cases f <;> first | exact h.keys | simp [Frame.nests] at hf
  · refine ⟨⟨_, (h.emitUnfinished ht).sound (midLine_head ht _)⟩, ?_⟩
    exact s.isBlank_emitUnfinished

/-- A brace opens a placeable, or is left over with the rest of its line where the limit does not allow one more. Either
way the account goes on. -/
theorem sound_openPlaceable (h : s.Sound c t) {rest : List Char} (hrest : s.cursor.rest = '{' :: rest)
    (limit : Nat) : (s.openPlaceable limit).Sound c :=
  sound_open (k := .openBrace) (f := .placeable) h hrest rfl rfl rfl (by decide) rfl limit _

theorem sound_openArguments (h : s.Sound c t) {rest : List Char} (hrest : s.cursor.rest = '(' :: rest)
    (limit : Nat) : (s.openArguments limit).Sound c :=
  sound_open (k := .openParen) (f := .arguments true true) h hrest rfl rfl rfl (by decide) rfl limit _

/-- A pattern that ends with a run of text. -/
theorem Accounts.closePattern {r : TextRun} {outer : List PatternItem} {fs : List Frame}
    (h : Reads Inner c t (.run r :: s.items ++ (outer ++ Reads.outerItems fs)) s.cursor) (ht : t ≠ [])
    (hkeys : KeysInVariants fs) : (s.closePattern r outer fs).Accounts c t := by
  have htrim : Reads Inner c t ((.run r.trimEnd :: s.items) ++ (outer ++ Reads.outerItems fs)) s.cursor :=
    Reads.trimEnd (by simpa using h)
  have hdedent := htrim.dedent
  have hitems : Accounts c t { s with
      items := (dedent (.run r.trimEnd :: s.items)).map PatternItem.lexeme ++ outer, frames := fs } :=
    ⟨by rwa [List.append_assoc], hkeys⟩
  exact hitems.mark (k := .patternEnd) ht rfl rfl

/-- In a pattern a run of text and the layout in front of it are accounted for, and a line break is crossed only to a
line that is read on at once. -/
theorem sound_readText (h : s.Sound c t) {outer : List PatternItem} {breaks : Nat} {indent : Option Nat}
    {fs : List Frame} (hfs : s.frames = .pattern outer breaks indent :: fs) (limit : Nat) :
    (s.readText limit outer breaks indent fs).Sound c := by
  have hkeys := h.outerKeys hfs
  have ht : MidLine t := h.midLine_outside (by simp [hfs, InExpression])
  have hreads : Reads Inner c t (s.items ++ (outer ++ Reads.outerItems fs)) s.cursor := by
    have := h.reads
    rwa [hfs, Reads.outerItems, List.flatMap_cons, ← Reads.outerItems] at this
  -- a run, and the blanks behind it that it leaves out
  have hrun : ∀ {text : List Char} (gap : List Char) {d : Cursor}, s.cursor.Over (text ++ gap) d →
      (∀ x ∈ gap, Line.isBlankChar x = true) →
      Reads Inner c (t ++ (text ++ gap)) (.run ⟨breaks, indent, s.cursor.offset, text⟩ :: (s.items ++
        (outer ++ Reads.outerItems fs))) d := by
    intro text gap d hover hgap
    obtain ⟨e, htext, hrest⟩ := hover.split
    have hreads' := hreads.run (r := ⟨breaks, indent, s.cursor.offset, text⟩) (fun _ => ht.inner _) htext rfl
    rw [← List.append_assoc]
    exact hreads'.layouts (fun x hx => isLayout_of_isBlankChar (hgap x hx)) hrest
  have hlast : ∀ {text : List Char}, (∀ x ∈ text, inRun x = true) → MidLine (t ++ text) :=
    fun htext => ht.append (newline_notMem_of_inRun htext)
  have hread := s.textReads limit outer breaks indent fs
  generalize s.readText limit outer breaks indent fs = step at hread ⊢
  cases hread with
  | @placeable text rest d hover htext hrest =>
    have hreads' := hrun [] (by rwa [List.append_nil]) (by simp)
    rw [List.append_nil] at hreads'
    refine sound_openPlaceable (t := t ++ text) (Accounts.sound ⟨?_, hkeys⟩ (hlast htext)) hrest limit
    simpa [Reads.outerItems] using hreads'
  | @below text gap d l hover htext hgap hl hcontinues =>
    have haccounts : Accounts c (t ++ (text ++ gap)) ⟨d, .run ⟨breaks, indent, s.cursor.offset, text⟩ :: s.items,
        .pattern outer l.breaks (some l.indent) :: fs⟩ :=
      ⟨by simpa [Reads.outerItems] using hrun gap hover hgap, hkeys⟩
    obtain ⟨t', hcontent, ht'⟩ := haccounts.toContent hl (Line.indent_pos_of_continuesPattern hcontinues)
    exact ⟨t', hcontent.sound ht'⟩
  | last hover htext hgap =>
    have hend := hlast htext
    exact ⟨_, (Accounts.closePattern (by simpa using hrun _ hover hgap) hend.ne_nil hkeys).sound hend⟩

/-- One token, scanned where something stands that is not layout. -/
theorem Sound.emitScan (h : s.Sound c t) {x : Char} {rest : List Char} (hrest : s.cursor.rest = x :: rest)
    (hx : isLayout x = false) :
    (s.emit (Token.scan x rest).1 ((Token.scan x rest).2.length + 1)).Accounts c
        (t ++ x :: (Token.scan x rest).2) ∧
      MidLine (t ++ x :: (Token.scan x rest).2) := by
  have hbreak : x ≠ '\n' := by
    rintro rfl
    simp [isLayout] at hx
  obtain ⟨⟨after, hafter⟩, hspelled, hmem⟩ := Token.scan_spelled rest hbreak
  have htake : s.cursor.rest.take ((Token.scan x rest).2.length + 1) = x :: (Token.scan x rest).2 := by
    rw [hrest, List.take_succ_cons]
    congr 1
    conv_lhs => arg 2; rw [hafter]
    exact List.take_left
  have hinner : Inner t (Token.scan x rest).1 := by
    refine ⟨?_, fun hnil => absurd hnil h.begun⟩
    intro hk
    exact (h.midLine_before hrest (Token.startsItem_scan hk)).not_newline
  exact ⟨h.emit htake hinner hspelled, .of_append (by simp) hmem⟩

/-- The next token is spelled by the text that is scanned for it, and it holds no line break. -/
theorem sound_emitScanned (h : s.Sound c t) {x : Char} {rest : List Char}
    (hrest : s.cursor.rest = x :: rest) (hx : isLayout x = false) : s.emitScanned.Sound c := by
  obtain ⟨hemit, hlast⟩ := h.emitScan hrest hx
  unfold emitScanned
  rw [hrest]
  exact ⟨_, hemit.sound hlast⟩

/-- A closing bracket ends the innermost construct. -/
theorem sound_close (h : s.Sound c t) {x : Char} {rest : List Char} (hrest : s.cursor.rest = x :: rest)
    (hk : k.startsItem = false) (hspelled : k.SpelledBy [x]) (hbreak : x ≠ '\n') {fs : List Frame}
    (hitems : Reads.outerItems fs = Reads.outerItems s.frames) (hkeys : KeysInVariants fs) :
    ({ s.emit k 1 with frames := fs } : State).Accounts c (t ++ [x]) ∧ MidLine (t ++ [x]) := by
  have hemit := h.emit (k := k) (n := 1) (w := [x]) (by rw [hrest]; rfl)
    (.of_not_startsItem h.begun hk) hspelled
  exact ⟨hemit.reframe hitems hkeys, .of_append (by simp) (by simpa using hbreak.symm)⟩

theorem sound_readPlaceable (h : s.Sound c t) {fs : List Frame} (hfs : s.frames = .placeable :: fs)
    {x : Char} {rest : List Char} (hrest : s.cursor.rest = x :: rest) (hx : isLayout x = false)
    (limit : Nat) : (s.readPlaceable limit fs).Sound c := by
  have hkeys := h.outerKeys hfs
  have hitems := Reads.outerItems_of_frames hfs rfl
  have hreads := s.placeableReads limit fs
  generalize s.readPlaceable limit fs = r at hreads
  cases hreads with
  | close hbrace =>
    obtain ⟨hclose, hlast⟩ := sound_close (k := .closeBrace) h hbrace rfl rfl (by decide) hitems hkeys
    exact ⟨_, hclose.sound hlast⟩
  | placeable hbrace => exact sound_openPlaceable h hbrace limit
  | arguments hparen => exact sound_openArguments h hparen limit
  | arrow harrow =>
    have hemit := h.emit (k := .arrow) (n := 2) (w := ['-', '>']) (by rw [harrow]; rfl)
      (.of_not_startsItem h.begun rfl) rfl
    have hvariants : Reads.outerItems (.variants :: fs) = Reads.outerItems s.frames := hitems
    exact ⟨_, (hemit.reframe hvariants hkeys).sound (.of_append (by simp) (by simp))⟩
  | token => exact sound_emitScanned h hrest hx

theorem sound_readArguments (h : s.Sound c t) {positional atStart : Bool} {fs : List Frame}
    (hfs : s.frames = .arguments positional atStart :: fs) {x : Char} {rest : List Char}
    (hrest : s.cursor.rest = x :: rest) (hx : isLayout x = false) (limit : Nat) :
    (s.readArguments limit positional atStart fs).Sound c := by
  have hkeys := h.outerKeys hfs
  have hitems := Reads.outerItems_of_frames hfs rfl
  have hmark : ∀ b : Bool, Sound c t (if b then s.mark .endPositional else s) := by
    intro b
    cases b with
    | false => exact h
    | true => exact ⟨h.mark h.begun rfl rfl, h.begun, h.inside⟩
  have harguments : ∀ b : Bool, Sound c t { s with frames := .arguments positional b :: fs } :=
    fun b => ⟨h.reframe hitems hkeys, h.begun, fun hlast => ⟨trivial, (h.inside hlast).2⟩⟩
  have hreads := s.argumentsReads limit positional atStart fs
  generalize s.readArguments limit positional atStart fs = r at hreads
  cases hreads with
  | nothing hnil =>
    -- the cursor is in front of something
    simp [hnil] at hrest
  | close hparen =>
    obtain ⟨hclose, hlast⟩ := sound_close (k := .closeParen) (hmark positional)
      (by rw [cursor_markIf]; exact hparen) rfl rfl (by decide) (by rw [frames_markIf]; exact hitems) hkeys
    exact ⟨_, hclose.sound hlast⟩
  | placeable hbrace => exact sound_openPlaceable (harguments false) hbrace limit
  | arguments hparen => exact sound_openArguments (harguments false) hparen limit
  | @token y after named hcons =>
    obtain ⟨rfl, rfl⟩ := List.cons.inj (hrest.symm.trans hcons)
    -- the marker in front of the first named argument takes no text, and the token comes after it
    obtain ⟨hemit, hlast⟩ := (hmark named).emitScan (by rw [cursor_markIf]; exact hrest) hx
    set after : Frame := .arguments (positional && !named) ((Token.scan x rest).1 == .comma)
    have hsame : Reads.outerItems (after :: fs) = Reads.outerItems
        ((if named then s.mark .endPositional else s).emit (Token.scan x rest).1
          ((Token.scan x rest).2.length + 1)).frames := by
      rw [frames_emit, frames_markIf]
      exact hitems
    exact ⟨_, (hemit.reframe hsame hkeys).sound hlast⟩

theorem sound_readVariants (h : s.Sound c t) {fs : List Frame} (hfs : s.frames = .variants :: fs)
    {x : Char} {rest : List Char} (hrest : s.cursor.rest = x :: rest) (hx : isLayout x = false) :
    (s.readVariants fs).Sound c := by
  have hkeys := h.outerKeys hfs
  have hreads := s.variantsReads fs
  generalize s.readVariants fs = r at hreads
  cases hreads with
  | close hbrace =>
    obtain ⟨hclose, hlast⟩ := sound_close (k := .closeBrace) h hbrace rfl rfl (by decide)
      (by rw [hfs]; rfl) hkeys
    exact ⟨_, hclose.sound hlast⟩
  | key hbracket =>
    have hitems : Reads.outerItems (.key false :: s.frames) = Reads.outerItems s.frames := rfl
    obtain ⟨hopen, hlast⟩ := sound_close (k := .openBracket) h hbracket rfl rfl (by decide) hitems
      ⟨by rw [hfs]; rfl, h.keys⟩
    exact ⟨_, hopen.sound hlast⟩
  | token => exact sound_emitScanned h hrest hx

theorem sound_readKey (h : s.Sound c t) {read : Bool} {fs : List Frame} (hfs : s.frames = .key read :: fs)
    {x : Char} {rest : List Char} (hrest : s.cursor.rest = x :: rest) (hx : isLayout x = false) :
    (s.readKey read fs).Sound c := by
  have hitems := Reads.outerItems_of_frames hfs rfl
  obtain ⟨hvariants, hkeys⟩ : fs.head? = some .variants ∧ KeysInVariants fs := by
    have := h.keys
    rwa [hfs] at this
  have hreads := s.keyReads read fs
  generalize s.readKey read fs = r at hreads
  cases hreads with
  | close hbracket =>
    obtain ⟨hclose, hlast⟩ := sound_close (k := .closeBracket) h hbracket rfl rfl (by decide) hitems hkeys
    obtain ⟨t', hvalue, ht'⟩ := hclose.beginValue hlast
    exact ⟨t', hvalue.sound ht'⟩
  | unclosed =>
    -- the key goes unclosed, and what comes next is one of the variants around it
    refine ⟨t, h.reframe hitems hkeys, h.begun, fun hlast => ⟨?_, (h.inside hlast).2⟩⟩
    obtain ⟨f, fs, rfl⟩ := List.exists_cons_of_ne_nil (l := fs) (by rintro rfl; simp at hvariants)
    obtain rfl := Option.some.inj hvariants
    trivial
  | token =>
    have hread : Sound c t { s with frames := .key true :: fs } :=
      ⟨h.reframe hitems ⟨hvariants, hkeys⟩, h.begun, fun hlast => ⟨trivial, (h.inside hlast).2⟩⟩
    exact sound_emitScanned hread hrest hx

/-- An expression is read on beyond layout. -/
theorem sound_onContent (h : s.Sound c t) (hfs : InExpression s.frames) {read : State → Step}
    (hread : ∀ d x rest t', d.rest = x :: rest → isLayout x = false →
      Sound c t' { s with cursor := d } → (read { s with cursor := d }).Sound c) :
    (s.onContent read).Sound c := by
  unfold onContent
  split
  · rename_i hnone
    exact ⟨⟨t, h⟩, Cursor.isBlank_of_skipBlank hnone⟩
  · rename_i d hd
    obtain ⟨gap, x, rest, hgap, hover, hrest, hx, hbreak⟩ := Cursor.over_skipBlank hd
    refine hread d x rest (t ++ gap) hrest hx
      ⟨h.move hgap hover, by simp [h.begun], fun hlast => ⟨hfs, x, rest, hrest, ?_⟩⟩
    -- a line start is one that was there before, or the end of the layout
    rcases List.eq_nil_or_concat gap with rfl | ⟨gap, y, rfl⟩
    · obtain ⟨-, y, after, hy, hcontinues⟩ := h.inside (by simpa using hlast)
      rw [hover.rest, List.nil_append, hrest] at hy
      rwa [(List.cons.inj hy).1]
    · apply hbreak
      rwa [List.getLast?_append_of_ne_nil _ (by simp)] at hlast

/-- **One step keeps the account.** What it reads becomes items, what it passes is layout, and where it crosses a line
break it stays inside its entry. -/
theorem sound_step (h : s.Sound c t) (limit : Nat) : (s.step limit).Sound c := by
  have hreads := s.stepReads limit
  generalize s.step limit = r at hreads
  cases hreads with
  | outside hfs => exact sound_betweenAttributes h.toAccounts (h.midLine_outside (by simp [hfs, InExpression]))
  | pattern hfs => exact sound_readText h hfs limit
  | placeable hfs =>
    exact sound_onContent h (by rw [hfs]; trivial) fun _ _ _ _ hrest hx hd =>
      sound_readPlaceable hd hfs hrest hx limit
  | arguments hfs =>
    exact sound_onContent h (by rw [hfs]; trivial) fun _ _ _ _ hrest hx hd =>
      sound_readArguments hd hfs hrest hx limit
  | variants hfs =>
    exact sound_onContent h (by rw [hfs]; trivial) fun _ _ _ _ hrest hx hd =>
      sound_readVariants hd hfs hrest hx
  | key hfs =>
    exact sound_onContent h (by rw [hfs]; trivial) fun _ _ _ _ hrest hx hd =>
      sound_readKey hd hfs hrest hx

/-- **A run keeps the account**, and leaves nothing on the line where it ends. So the next block begins with a line, or
the source is at its end. -/
theorem sound_run (h : s.Sound c t) (limit : Nat) :
    (∃ t', (s.run limit).2.Sound c t') ∧ Line.isBlank (s.run limit).2.cursor.rest = true := by
  fun_induction run limit s generalizing t with
  | case1 s s' hstep ih =>
    have := sound_step h limit
    rw [hstep] at this
    obtain ⟨t', ht'⟩ := this
    exact ih ht'
  | case2 s e s' hstep =>
    have := sound_step h limit
    rwa [hstep] at this

/-- The tokens of a state account for the text read so far. -/
theorem Accounts.lexemes (h : s.Accounts c t) :
    Reads Inner c t (s.lexemes.reverse.map .lexeme) s.cursor := by
  rw [State.lexemes, List.reverse_reverse]
  exact h.reads.unwind

/-- Behind its header the machine stands for the header. -/
theorem sound_ofHeader {isTerm : Bool} {a : Line.Assignment}
    (ha : Line.entryHeader? c.rest = some (isTerm, a)) : ∃ t, (ofHeader c isTerm a).Sound c t := by
  have hstart : Accounts c [] ⟨c, [], []⟩ := ⟨.start, trivial⟩
  have hheader : ∃ t, (ofHeader c isTerm a).Accounts c t ∧ MidLine t := by
    obtain ⟨rfl, rest, hrest, hassign⟩ | ⟨rfl, hassign⟩ := Line.entryHeader?_eq_some ha
    · have hminus := hstart.emit (k := .minus) (n := 1) (w := ['-'])
        (by rw [show (⟨c, [], []⟩ : State).cursor.rest = '-' :: rest from hrest]; rfl)
        ⟨fun _ => by simp, fun _ => rfl⟩ rfl
      have hdash : MidLine ([] ++ ['-']) := .of_append (by simp) (by simp)
      obtain ⟨t₁, h₁, ht₁⟩ := hminus.emitAssignment (a := a) (hdash.inner _) (by
        show Line.assignment? (c.rest.drop 1) = some a
        rwa [hrest])
      exact h₁.beginValue ht₁
    · obtain ⟨t₁, h₁, ht₁⟩ := hstart.emitAssignment (a := a) ⟨fun _ => by simp, fun _ => rfl⟩ hassign
      exact h₁.beginValue ht₁
  obtain ⟨t₀, h₀, ht₀⟩ := hheader
  exact ⟨t₀, h₀.sound ht₀⟩

/-- A run from a header keeps the account, and leaves nothing on the line where it ends. -/
theorem sound_run_ofHeader {isTerm : Bool} {a : Line.Assignment}
    (ha : Line.entryHeader? c.rest = some (isTerm, a)) (limit : Nat) :
    (∃ t, ((ofHeader c isTerm a).run limit).2.Sound c t) ∧
      Line.isBlank ((ofHeader c isTerm a).run limit).2.cursor.rest = true := by
  obtain ⟨t, ht⟩ := sound_ofHeader ha
  exact sound_run ht limit

/-- **The tokens of an entry** account for its lines. -/
theorem reads_run_ofHeader {isTerm : Bool} {a : Line.Assignment}
    (ha : Line.entryHeader? c.rest = some (isTerm, a)) (limit : Nat) :
    ∃ t, t ≠ [] ∧ Reads Inner c t (((ofHeader c isTerm a).run limit).2.lexemes.reverse.map .lexeme)
      ((ofHeader c isTerm a).run limit).2.cursor.nextLine := by
  obtain ⟨⟨t, ht⟩, hblank⟩ := sound_run_ofHeader ha limit
  obtain ⟨gap, hgap, hover⟩ := Cursor.over_nextLine_of_isBlank hblank
  exact ⟨t ++ gap, by simp [ht.begun], ht.lexemes.layouts hgap hover⟩

end State

end Fluent
