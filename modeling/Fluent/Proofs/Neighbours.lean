import Fluent.Proofs.Lexical
import Fluent.Proofs.Machine
import Fluent.Proofs.Onward
import Fluent.Proofs.Origins
import Fluent.Proofs.Trailing

/-!
# Text and its neighbours

Two texts of a pattern stand next to each other only where a line breaks between them, and the text that ends a
pattern ends with content. One text is left over: a line of blanks that only a brace closes is taken for a line of the
pattern, and nothing of it is content but the line break and the indentation in front of it.

* `Lexeme.Stranded`: text of such a line.
* `Neat`: tokens of which each has its letters, and whose texts have such neighbours.
* `State.poised_step`, `State.poised_run`: a step and a run of the machine keep that.
* `neat_run`: the tokens of an entry are neat.
-/

namespace Fluent

def Token.isText : Token → Bool
  | pureText _ => true
  | _ => false

/-- Line breaks and an indentation, in front of blanks that only a closing brace follows. The blanks are trimmed away
where the pattern ends, and the breaks and the indentation in front of them are left. -/
def Lexeme.Stranded (source : List Char) (l : Lexeme) : Prop :=
  ∃ (breaks spaces : Nat) (blanks rest : List Char),
    l.token = .pureText (String.ofList (List.replicate (breaks + 1) '\n' ++ List.replicate spaces ' ')) ∧
      fromOffset? l.span.start source = some (blanks ++ '}' :: rest) ∧ blanks ≠ [] ∧
      blanks.head? ≠ some ' ' ∧ ∀ x ∈ blanks, Line.isBlankChar x = true

/-- Text at the end of a pattern ends with content unless it is stranded. Tokens other than text are not asked for
anything. -/
def Lexeme.EndsPattern (source : List Char) (l : Lexeme) : Prop :=
  ∀ text, l.token = .pureText text → Solid text.toList ∨ l.Stranded source

namespace PatternItem

def isText : PatternItem → Bool
  | run _ => true
  | lexeme l => l.token.isText

/-- Text that begins with a line break. -/
def BreaksLine : PatternItem → Prop
  | run r => 0 < r.breaks
  | lexeme l => ∃ cs, l.token = .pureText (String.ofList ('\n' :: cs))

/-- The letters that an item can have. -/
def Lexical : PatternItem → Prop
  | run r => IsText r.text
  | lexeme l => l.token.Lexical

/-- An item behind another one. Text goes on with text only across a line break, and a pattern ends behind a token that
may end one. -/
structure Behind (source : List Char) (later earlier : PatternItem) : Prop where
  text : later.isText = true → earlier.isText = true → later.BreaksLine
  ending : ∀ span, later = lexeme ⟨.patternEnd, span⟩ → ∃ l, earlier = lexeme l ∧ l.EndsPattern source

end PatternItem

/-- Items that are behind one another, the latest first. -/
structure Tidy (source : List Char) (is : List PatternItem) : Prop where
  chain : is.IsChain (PatternItem.Behind source)
  lexical : ∀ i ∈ is, i.Lexical

variable {source : List Char} {is js : List PatternItem} {i : PatternItem} {l : Lexeme}

theorem Lexeme.endsPattern (h : l.token.isText = false) : l.EndsPattern source := by
  intro text htext
  rw [htext] at h
  cases h

namespace PatternItem.Behind

theorem of_not_text (hi : i.isText = false) (hend : ∀ span, i ≠ lexeme ⟨.patternEnd, span⟩) (j : PatternItem) :
    i.Behind source j :=
  ⟨fun h => by simp [hi] at h, fun span h => absurd h (hend span)⟩

/-- Anything stands behind a token that is no text. -/
theorem before_lexeme (i : PatternItem) (hl : l.token.isText = false) : i.Behind source (lexeme l) :=
  ⟨fun _ h => by simp [isText, hl] at h, fun _ _ => ⟨l, rfl, l.endsPattern hl⟩⟩

end PatternItem.Behind

/-! ## Dedenting -/

namespace PatternItem

variable {common : Nat} {j k : PatternItem}

theorem isText_settle (h : i.settle? common = some l) : (lexeme l).isText = i.isText := by
  cases i with
  | lexeme l' =>
    obtain rfl := Option.some.inj h
    rfl
  | run r =>
    simp only [settle?] at h
    split at h
    · cases h
    · obtain rfl := Option.some.inj h
      rfl

theorem breaksLine_settle (h : i.settle? common = some l) (hi : i.BreaksLine) : (lexeme l).BreaksLine := by
  cases i with
  | lexeme l' =>
    obtain rfl := Option.some.inj h
    exact hi
  | run r =>
    obtain ⟨n, hn⟩ := Nat.exists_eq_succ_of_ne_zero (Nat.pos_iff_ne_zero.1 hi)
    simp only [settle?] at h
    split at h
    · cases h
    · obtain rfl := Option.some.inj h
      refine ⟨List.replicate n '\n' ++ List.replicate (r.indent.getD common - common) ' ' ++ r.text, ?_⟩
      simp [TextRun.value, hn, List.replicate_succ]

theorem lexical_settle (h : i.settle? common = some l) (hi : i.Lexical) : l.token.Lexical := by
  cases i with
  | lexeme l' =>
    obtain rfl := Option.some.inj h
    exact hi
  | run r =>
    simp only [settle?] at h
    split at h
    · cases h
    · rename_i hvalue
      obtain rfl := Option.some.inj h
      refine ⟨by simpa using hvalue, ?_⟩
      intro x hx
      simp only [String.toList_ofList, TextRun.value, List.mem_append, List.mem_replicate] at hx
      rcases hx with (⟨-, rfl⟩ | ⟨-, rfl⟩) | hx
      · decide
      · decide
      · exact hi x hx

/-- Only a run without breaks is dropped. -/
theorem not_breaksLine_of_settle (h : i.settle? common = none) : i.isText = true ∧ ¬ i.BreaksLine := by
  cases i with
  | lexeme l' => cases h
  | run r =>
    refine ⟨rfl, ?_⟩
    intro hbreaks
    obtain ⟨n, hn⟩ := Nat.exists_eq_succ_of_ne_zero (Nat.pos_iff_ne_zero.1 hbreaks)
    simp [settle?, TextRun.value, hn, List.replicate_succ] at h

/-- Items stay behind one another when they become tokens. -/
theorem Behind.settle_left (h : i.Behind source j) (hl : i.settle? common = some l) :
    (lexeme l).Behind source j := by
  refine ⟨?_, ?_⟩
  · intro htext hj
    rw [isText_settle hl] at htext
    exact breaksLine_settle hl (h.text htext hj)
  · intro span hend
    obtain rfl := lexeme.inj hend
    cases i with
    | lexeme l' =>
      obtain rfl := Option.some.inj hl
      exact h.ending span rfl
    | run r =>
      have htext := isText_settle hl
      cases htext

/-- An item stays behind another one when that becomes the token that it is settled as. -/
theorem Behind.settle_right (h : i.Behind source j) (hl : j.settle? common = some l) :
    i.Behind source (lexeme l) := by
  refine ⟨?_, ?_⟩
  · intro htext hj
    rw [isText_settle hl] at hj
    exact h.text htext hj
  · intro span hend
    obtain ⟨l', rfl, hends⟩ := h.ending span hend
    obtain rfl := Option.some.inj hl
    exact ⟨l', rfl, hends⟩

/-- What stands behind a dropped run stands behind what is before the run. -/
theorem Behind.through (h : i.Behind source j) (h' : j.Behind source k) (hj : j.settle? common = none) :
    i.Behind source k := by
  obtain ⟨htext, hbreaks⟩ := not_breaksLine_of_settle hj
  refine ⟨fun _ hk => absurd (h'.text htext hk) hbreaks, ?_⟩
  intro span hend
  obtain ⟨l', rfl, -⟩ := h.ending span hend
  cases hj

end PatternItem

namespace Tidy

open PatternItem

theorem nil : Tidy source [] := ⟨.nil, by simp⟩

theorem tail (h : Tidy source (i :: is)) : Tidy source is :=
  ⟨(List.isChain_cons.1 h.chain).2, fun j hj => h.lexical j (List.mem_cons_of_mem _ hj)⟩

theorem cons (h : Tidy source is) (hi : i.Lexical) (hbehind : ∀ j ∈ is.head?, i.Behind source j) :
    Tidy source (i :: is) :=
  ⟨List.isChain_cons.2 ⟨hbehind, h.chain⟩, fun j hj => by
    rcases List.mem_cons.1 hj with rfl | hj
    · exact hi
    · exact h.lexical j hj⟩

/-- A token that neither is text nor ends a pattern stands behind anything. -/
theorem push (h : Tidy source is) (hlexical : l.token.Lexical) (htext : l.token.isText = false)
    (hend : l.token ≠ .patternEnd) : Tidy source (.lexeme l :: is) := by
  refine h.cons hlexical fun j _ => .of_not_text (show isText (.lexeme l) = false from htext) ?_ j
  rintro span heq
  exact hend (congrArg Lexeme.token (lexeme.inj heq))

/-- What stands behind the latest item stands behind the latest that becomes a token. -/
theorem behind_settled (h : Tidy source is) (common : Nat) (hbehind : ∀ j ∈ is.head?, i.Behind source j) :
    ∀ l ∈ (is.filterMap (settle? common)).head?, i.Behind source (.lexeme l) := by
  induction is with
  | nil => intro l hl; cases hl
  | cons j is ih =>
    have hj := hbehind j rfl
    cases hsettle : j.settle? common with
    | some l =>
      rw [List.filterMap_cons_some hsettle]
      intro l' hl'
      obtain rfl := Option.some.inj hl'
      exact hj.settle_right hsettle
    | none =>
      rw [List.filterMap_cons_none hsettle]
      exact ih h.tail fun k hk => hj.through ((List.isChain_cons.1 h.chain).1 k hk) hsettle

/-- **Dedenting** keeps items behind one another. -/
theorem settle (h : Tidy source is) (common : Nat) :
    Tidy source ((is.filterMap (settle? common)).map .lexeme) := by
  induction is with
  | nil => exact .nil
  | cons j is ih =>
    cases hsettle : j.settle? common with
    | none =>
      rw [List.filterMap_cons_none hsettle]
      exact ih h.tail
    | some l =>
      rw [List.filterMap_cons_some hsettle, List.map_cons]
      refine (ih h.tail).cons (lexical_settle hsettle (h.lexical j (by simp))) ?_
      intro k hk
      rw [List.head?_map] at hk
      obtain ⟨l', hl', rfl⟩ := Option.map_eq_some_iff.1 hk
      exact (behind_settled h.tail common (List.isChain_cons.1 h.chain).1 l' hl').settle_left hsettle

/-- Tidy items stay so when runs of text become tokens: a run that comes to nothing is left out, and the others keep
their order. -/
theorem dedent (h : Tidy source is) : Tidy source ((Fluent.dedent is).map .lexeme) := h.settle _

/-- Items behind a token that is no text. -/
theorem append (h : Tidy source is) (hjs : Tidy source js)
    (hhead : ∃ l, js.head? = some (.lexeme l) ∧ l.token.isText = false) : Tidy source (is ++ js) := by
  obtain ⟨l, hl, htext⟩ := hhead
  refine ⟨List.isChain_append.2 ⟨h.chain, hjs.chain, ?_⟩, ?_⟩
  · intro x _ y hy
    rw [hl] at hy
    obtain rfl := Option.some.inj hy
    exact .before_lexeme x htext
  · intro x hx
    exact (List.mem_append.1 hx).elim (h.lexical x) (hjs.lexical x)

end Tidy

/-! ## The end of a pattern -/

/-- What is left of a text without the blanks at its end is solid if it is anything. -/
theorem solid_of_trim {text : List Char} (hbreak : '\n' ∉ text)
    (hne : (text.reverse.dropWhile Line.isBlankChar).reverse ≠ []) :
    Solid (text.reverse.dropWhile Line.isBlankChar).reverse := by
  cases htrim : text.reverse.dropWhile Line.isBlankChar with
  | nil => simp [htrim] at hne
  | cons x xs =>
    have hblank := List.head?_dropWhile_not Line.isBlankChar text.reverse
    have hmem : x ∈ text := by
      apply List.mem_reverse.1
      apply (List.dropWhile_suffix Line.isBlankChar).subset
      rw [htrim]
      exact List.mem_cons_self
    rw [htrim] at hblank
    refine ⟨x, by simp, ?_⟩
    have hx : x ≠ '\n' := fun heq => hbreak (heq ▸ hmem)
    simpa [isLayout, hx] using hblank

/-- Nothing is left of a text of blanks only. -/
theorem isBlankChar_of_trim {text : List Char} (h : (text.reverse.dropWhile Line.isBlankChar).reverse = []) :
    ∀ x ∈ text, Line.isBlankChar x = true := by
  rw [List.reverse_eq_nil_iff, List.dropWhile_eq_nil_iff] at h
  exact fun x hx => h x (List.mem_reverse.2 hx)

/-- Where the last run of a pattern can stand: behind no text if no line breaks in front of it, and at the start of
the pattern if it is indented all the same. -/
def TextRun.Follows (r : TextRun) (is : List PatternItem) : Prop :=
  r.breaks = 0 → (r.indent = none ∧ ∀ i ∈ is.head?, i.isText = false) ∨ is = []

/-- Text behind no other text, or behind a line break. -/
theorem Tidy.run {r : TextRun} (h : Tidy source is) (hr : IsText r.text) (hfollows : r.Follows is) :
    Tidy source (.run r :: is) := by
  refine h.cons hr fun j hj => ⟨?_, fun _ hend => by cases hend⟩
  intro _ htext
  apply Nat.pos_of_ne_zero
  intro hzero
  rcases hfollows hzero with ⟨-, hnone⟩ | rfl
  · rw [hnone j hj] at htext
    cases htext
  · cases hj

/-- The brace that strands a run. -/
def TextRun.Stranding (source : List Char) (r : TextRun) : Prop :=
  0 < r.breaks → r.trimEnd.text = [] → ∃ blanks rest, fromOffset? r.start source = some (blanks ++ '}' :: rest) ∧
    blanks ≠ [] ∧ blanks.head? ≠ some ' ' ∧ ∀ x ∈ blanks, Line.isBlankChar x = true

/-- **A pattern ends** with content, or it is stranded. -/
theorem Tidy.closePattern {r : TextRun} {outer : List PatternItem} (h : Tidy source is) (houter : Tidy source outer)
    (hhead : ∃ l, outer.head? = some (.lexeme l) ∧ l.token.isText = false) (hr : IsText r.text)
    (hbreak : '\n' ∉ r.text) (hfollows : r.Follows is) (hstranding : r.Stranding source) (p : Nat) :
    Tidy source (.lexeme ⟨.patternEnd, .at p⟩ :: ((Fluent.dedent (.run r.trimEnd :: is)).map .lexeme ++ outer)) := by
  have htrim : IsText r.trimEnd.text := by
    intro x hx
    exact hr x (List.mem_reverse.1 ((List.dropWhile_suffix _).subset (List.mem_reverse.1 hx)))
  have hrun : Tidy source (.run r.trimEnd :: is) := h.run htrim hfollows
  refine (hrun.dedent.append houter hhead).cons trivial ?_
  intro j hj
  refine ⟨fun hend => (by cases hend), fun span _ => ?_⟩
  -- the token before the end of the pattern
  rw [Fluent.dedent] at hj
  generalize hcommon : commonIndent ((PatternItem.run r.trimEnd :: is).filterMap PatternItem.indent?) = common at hj
  cases hsettle : (PatternItem.run r.trimEnd).settle? common with
  | none =>
    rw [List.filterMap_cons_none hsettle] at hj
    have hzero : r.breaks = 0 := by
      have hno := (PatternItem.not_breaksLine_of_settle hsettle).2
      simpa [PatternItem.BreaksLine, TextRun.trimEnd] using hno
    have hnone : ∀ i ∈ is.head?, i.isText = false := by
      rcases hfollows hzero with ⟨-, hnone⟩ | rfl
      · exact hnone
      · simp
    cases is with
    | nil =>
      obtain ⟨l, hl, htext⟩ := hhead
      simp only [List.filterMap_nil, List.map_nil, List.nil_append, hl] at hj
      exact ⟨l, (Option.some.inj hj).symm, l.endsPattern htext⟩
    | cons i is =>
      have htext := hnone i rfl
      cases i with
      | run => cases htext
      | lexeme l =>
        simp only [List.filterMap_cons, PatternItem.settle?, List.map_cons, List.cons_append, List.head?_cons] at hj
        exact ⟨l, (Option.some.inj hj).symm, l.endsPattern htext⟩
  | some l =>
    rw [List.filterMap_cons_some hsettle, List.map_cons, List.cons_append, List.head?_cons] at hj
    refine ⟨l, (Option.some.inj hj).symm, ?_⟩
    intro text htext
    simp only [PatternItem.settle?] at hsettle
    split at hsettle
    · cases hsettle
    · rename_i hvalue
      obtain rfl := Option.some.inj hsettle
      obtain rfl := Token.pureText.inj htext
      simp only [String.toList_ofList]
      by_cases hempty : r.trimEnd.text = []
      · right
        have hpos : 0 < r.breaks := by
          apply Nat.pos_of_ne_zero
          intro hzero
          apply hvalue
          have hindent : r.indent.getD common = common := by
            rcases hfollows hzero with ⟨hnone, -⟩ | rfl
            · rw [hnone]
              rfl
            · cases hr' : r.indent with
              | none => rfl
              | some n => simpa [PatternItem.indent?, TextRun.trimEnd, hr', commonIndent] using hcommon
          rw [TextRun.value, hempty]
          simp [TextRun.trimEnd, hzero, hindent]
        obtain ⟨blanks, rest, hsource, hblanks⟩ := hstranding hpos hempty
        obtain ⟨n, hn⟩ := Nat.exists_eq_succ_of_ne_zero (Nat.pos_iff_ne_zero.1 hpos)
        refine ⟨n, r.indent.getD common - common, blanks, rest, ?_, hsource, hblanks⟩
        rw [TextRun.value, hempty, List.append_nil]
        simp [TextRun.trimEnd, hn]
      · exact .inl ((solid_of_trim hbreak hempty).append _)

/-! ## States -/

namespace Frame

/-- What a pattern holds is tidy, the token that opens it on top. -/
def Tidy (source : List Char) : Frame → Prop
  | pattern outer _ _ => Fluent.Tidy source outer ∧ ∃ l, outer.head? = some (.lexeme l) ∧ l.token.isText = false
  | _ => True

/-- A pattern around an expression goes on in the same line. -/
def Waits : Frame → Prop
  | pattern _ breaks indent => breaks = 0 ∧ indent = none
  | _ => True

end Frame

/-- No text of a pattern, and no end of one, is scanned. -/
theorem Token.isText_scan (c : Char) (cs : List Char) :
    (Token.scan c cs).1.isText = false ∧ (Token.scan c cs).1 ≠ .patternEnd := by
  have hscans := Token.scans c cs
  generalize (Token.scan c cs).1 = t, (Token.scan c cs).2 = more at hscans ⊢
  cases hscans with
  | sign =>
    unfold Token.ofChar
    split <;> exact ⟨rfl, nofun⟩
  | _ => exact ⟨rfl, nofun⟩

theorem Line.Next.breaks_pos {cs : List Char} {l : Line.Next} (h : Line.nextContent? cs = some l) : 0 < l.breaks := by
  unfold Line.nextContent? at h
  split at h
  · split at h
    · obtain ⟨l', -, rfl⟩ := Option.map_eq_some_iff.1 h
      exact Nat.succ_pos _
    · split at h
      · cases h
      · obtain rfl := Option.some.inj h
        exact Nat.one_pos
  · cases h

namespace State

/-- The items of a state are tidy, and all its patterns wait: none of them has a line break or an indentation noted for
its next text. -/
structure Calm (source : List Char) (s : State) : Prop where
  items : Tidy source s.items
  frames : ∀ f ∈ s.frames, f.Tidy source
  waiting : ∀ f ∈ s.frames, f.Waits

/-- Where the text of the innermost pattern goes on: at a line with content, behind something else than text, or at
the start of the pattern. -/
def AtText (s : State) : Prop :=
  match s.frames with
  | .pattern _ 0 none :: _ => ∀ i ∈ s.items.head?, i.isText = false
  | .pattern _ 0 (some _) :: _ => s.items = []
  | .pattern _ (_ + 1) _ :: _ =>
    Line.isBlank s.cursor.rest = false ∧ ∀ x ∈ s.cursor.rest.head?, x ≠ ' ' ∧ x ≠ '}'
  | _ => True

/-- The items of a state are tidy, and text can go on where it stands. This is what every step of the machine keeps. -/
structure Poised (source : List Char) (s : State) : Prop where
  items : Tidy source s.items
  frames : ∀ f ∈ s.frames, f.Tidy source
  waiting : ∀ f ∈ s.frames.tail, f.Waits
  text : s.AtText

variable {s : State} {k : Token} {fs : List Frame} {limit : Nat}

/-- A state whose latest item is no text is poised if its patterns wait. -/
theorem Calm.poised (h : s.Calm source) (hhead : ∀ i ∈ s.items.head?, i.isText = false) : s.Poised source := by
  refine ⟨h.items, h.frames, fun f hf => h.waiting f (List.mem_of_mem_tail hf), ?_⟩
  unfold AtText
  split
  · exact hhead
  · rename_i hfs
    have hwaits := h.waiting _ (by rw [hfs]; exact List.mem_cons_self)
    cases hwaits.2
  · rename_i hfs
    have hwaits := h.waiting _ (by rw [hfs]; exact List.mem_cons_self)
    cases hwaits.1
  · trivial

theorem Poised.calm (h : s.Poised source) (hfs : ∀ f ∈ s.frames.head?, f.Waits) : s.Calm source := by
  refine ⟨h.items, h.frames, ?_⟩
  intro f hf
  cases hframes : s.frames with
  | nil => simp [hframes] at hf
  | cons g fs =>
    rw [hframes] at hf
    rcases List.mem_cons.1 hf with rfl | hf
    · exact hfs f (by simp [hframes])
    · exact h.waiting f (by simpa [hframes] using hf)

theorem Calm.move (h : s.Calm source) (d : Cursor) : ({ s with cursor := d } : State).Calm source := ⟨h.1, h.2, h.3⟩

theorem Calm.emit (h : s.Calm source) (hlexical : k.Lexical) (htext : k.isText = false) (hend : k ≠ .patternEnd)
    (n : Nat) : (s.emit k n).Calm source :=
  ⟨h.items.push hlexical htext hend, h.frames, h.waiting⟩

theorem Calm.mark (h : s.Calm source) (hlexical : k.Lexical) (htext : k.isText = false) (hend : k ≠ .patternEnd) :
    (s.mark k).Calm source :=
  ⟨h.items.push hlexical htext hend, h.frames, h.waiting⟩

theorem Calm.reframe (h : s.Calm source) (hframes : ∀ f ∈ fs, f.Tidy source) (hwaiting : ∀ f ∈ fs, f.Waits) :
    ({ s with frames := fs } : State).Calm source :=
  ⟨h.items, hframes, hwaiting⟩

/-- Behind a token that is no text the state is poised if its patterns wait. -/
theorem Calm.poised_emit (h : s.Calm source) (hlexical : k.Lexical) (htext : k.isText = false)
    (hend : k ≠ .patternEnd) (n : Nat) (hframes : ∀ f ∈ fs, f.Tidy source) (hwaiting : ∀ f ∈ fs, f.Waits) :
    ({ s.emit k n with frames := fs } : State).Poised source := by
  refine ((h.emit hlexical htext hend n).reframe hframes hwaiting).poised ?_
  intro i hi
  obtain rfl := Option.some.inj hi
  exact htext

theorem Calm.poised_emitUnfinished (h : s.Calm source) : s.emitUnfinished.Poised source :=
  h.poised_emit (k := .unfinishedLine) trivial rfl (by decide) _ h.frames h.waiting

theorem Calm.finishLine (h : s.Calm source) : s.finishLine.Calm source := by
  unfold State.finishLine
  split
  · exact h.move _
  · exact h.emit (k := .unfinishedLine) trivial rfl (by decide) _

theorem Calm.emitAssignment (h : s.Calm source) {a : Line.Assignment} (ha : IsName a.name) :
    (s.emitAssignment a).Calm source := by
  have hname := h.emit (k := .identifier (String.ofList a.name)) (by simpa [Token.Lexical] using ha) rfl (by simp)
    a.name.length
  exact (hname.move _).emit (k := .equals) trivial rfl (by decide) 1

/-- A pattern opens in a state whose patterns wait. -/
theorem Calm.poised_openPattern (h : s.Calm source) (indent : Option Nat) : (s.openPattern indent).Poised source := by
  refine ⟨.nil, ?_, h.waiting, ?_⟩
  · intro f hf
    rcases List.mem_cons.1 hf with rfl | hf
    · exact ⟨(h.mark (k := .patternStart) trivial rfl (by decide)).items, _, rfl, rfl⟩
    · exact h.frames f hf
  · cases indent with
    | none => intro i hi; cases hi
    | some n => rfl

theorem Calm.poised_beginValue (h : s.Calm source) : s.beginValue.Poised source := by
  have hvalue := s.valueBegins
  generalize s.beginValue = t at hvalue ⊢
  cases hvalue with
  | inline => exact (h.move _).poised_openPattern none
  | below => exact (h.move _).poised_openPattern _
  | missing =>
    refine (((h.move _).mark (k := .patternSkip) trivial rfl (by decide)).move _).poised ?_
    intro i hi
    obtain rfl := Option.some.inj hi
    rfl

/-! ## Steps -/

/-- Between two attributes no pattern is open. -/
theorem Calm.poised_of_nil (h : s.Calm source) (hfs : s.frames = []) : s.Poised source := by
  refine ⟨h.items, h.frames, ?_, ?_⟩
  · simp [hfs]
  · unfold AtText
    rw [hfs]
    trivial

theorem poised_betweenAttributes (h : s.Calm source) (hfs : s.frames = []) :
    s.betweenAttributes.state.Poised source := by
  have hline := h.finishLine
  have hstop := hline.poised_of_nil (by rw [frames_finishLine, hfs])
  have hfollows := s.attributeFollows
  generalize s.finishLine = t, s.betweenAttributes = step at hline hstop hfollows ⊢
  cases hfollows with
  | @header l a _ _ _ ha =>
    have hdot := (hline.move (t.cursor.toContent l)).emit (k := .dot) trivial rfl (by decide) 1
    exact (hdot.emitAssignment (Line.isName_of_assignment ha)).poised_beginValue
  | unfinished => exact (hline.move (t.cursor.toContent _)).poised_emitUnfinished
  | stop => exact hstop

/-- A construct is opened, or the rest of the line is read. -/
theorem Calm.poised_open (h : s.Calm source) (hlexical : k.Lexical) (htext : k.isText = false)
    (hend : k ≠ .patternEnd) {f : Frame} (hf : f.nests = true) (e : Ending) :
    (if s.depth < limit then Step.next { s.emit k 1 with frames := f :: s.frames }
      else .stop e s.emitUnfinished).state.Poised source := by
  have hkind : f.Tidy source ∧ f.Waits := by
    cases f with
    | pattern => cases hf
    | _ => exact ⟨trivial, trivial⟩
  split
  · refine h.poised_emit hlexical htext hend 1 ?_ ?_
    · exact List.forall_mem_cons.2 ⟨hkind.1, h.frames⟩
    · exact List.forall_mem_cons.2 ⟨hkind.2, h.waiting⟩
  · exact h.poised_emitUnfinished

/-- Behind an opening brace, or a line that is left over, items are still behind one another: neither of these is
text. -/
theorem Calm.poised_openPlaceable (h : s.Calm source) : (s.openPlaceable limit).state.Poised source :=
  h.poised_open (k := .openBrace) (f := .placeable) trivial rfl (by decide) rfl _

theorem Calm.poised_openArguments (h : s.Calm source) : (s.openArguments limit).state.Poised source :=
  h.poised_open (k := .openParen) (f := .arguments true true) trivial rfl (by decide) rfl _

/-- A run of the innermost pattern follows what it stands behind. -/
theorem Poised.follows (h : s.Poised source) {outer : List PatternItem} {breaks : Nat} {indent : Option Nat}
    (hfs : s.frames = .pattern outer breaks indent :: fs) (start : Nat) (text : List Char) :
    TextRun.Follows ⟨breaks, indent, start, text⟩ s.items := by
  have htext := h.text
  rw [AtText, hfs] at htext
  intro hzero
  obtain rfl : breaks = 0 := hzero
  cases indent with
  | none => exact .inl ⟨rfl, htext⟩
  | some n => exact .inr htext

/-- Blanks at the start of a line of the pattern do not end the line. -/
theorem Poised.not_isBlank (h : s.Poised source) {outer : List PatternItem} {breaks : Nat} {indent : Option Nat}
    (hfs : s.frames = .pattern outer breaks indent :: fs) (hbreaks : 0 < breaks) :
    Line.isBlank s.cursor.rest = false ∧ ∀ x ∈ s.cursor.rest.head?, x ≠ ' ' ∧ x ≠ '}' := by
  obtain ⟨n, rfl⟩ := Nat.exists_eq_succ_of_ne_zero (Nat.pos_iff_ne_zero.1 hbreaks)
  have htext := h.text
  rwa [AtText, hfs] at htext

theorem isText_of_inRun {xs : List Char} (h : ∀ x ∈ xs, inRun x = true) : IsText xs := by
  intro x hx
  have hrun := h x hx
  simp only [inRun, Bool.and_eq_true, bne_iff_ne] at hrun
  exact hrun.1

/-- The last run of a pattern is stranded by a brace if nothing is left of it. -/
theorem Poised.stranding (h : s.Poised source) {outer : List PatternItem} {breaks : Nat} {indent : Option Nat}
    (hfs : s.frames = .pattern outer breaks indent :: fs)
    (hcursor : fromOffset? s.cursor.offset source = some s.cursor.rest) (text gap rest : List Char)
    (hrest : s.cursor.rest = text ++ gap ++ rest) (hgap : ∀ x ∈ gap, Line.isBlankChar x = true)
    (hends : ∀ x ∈ rest.head?, x = '}' ∨ x = '\n') :
    TextRun.Stranding source ⟨breaks, indent, s.cursor.offset, text⟩ := by
  intro hbreaks hempty
  obtain ⟨hline, hfirst⟩ := h.not_isBlank hfs hbreaks
  have hblanks : ∀ x ∈ text ++ gap, Line.isBlankChar x = true := by
    intro x hx
    exact (List.mem_append.1 hx).elim (isBlankChar_of_trim hempty x) (hgap x)
  have hbrace : ∃ after, rest = '}' :: after := by
    -- otherwise the line of the pattern would be blank
    by_contra hnone
    have hhead : Line.head (text ++ gap ++ rest) = text ++ gap := by
      have hnobreak : ∀ x ∈ text ++ gap, (x != '\n') = true := by
        intro x hx
        rw [bne_iff_ne]
        rintro rfl
        have := hblanks _ hx
        simp [Line.isBlankChar] at this
      rw [Line.head, List.takeWhile_append_of_pos hnobreak]
      cases rest with
      | nil => simp
      | cons x after =>
        rcases hends x rfl with rfl | rfl
        · exact absurd ⟨after, rfl⟩ hnone
        · simp
    rw [hrest, Bool.eq_false_iff] at hline
    apply hline
    rw [Line.isBlank_iff, hhead]
    exact hblanks
  obtain ⟨after, rfl⟩ := hbrace
  rw [hrest] at hcursor hfirst
  have hne : text ++ gap ≠ [] := by
    intro hnil
    rw [hnil] at hfirst
    exact (hfirst '}' rfl).2 rfl
  refine ⟨text ++ gap, after, hcursor, hne, ?_, hblanks⟩
  intro hspace
  rw [List.head?_append_of_ne_nil _ hne, hspace] at hfirst
  exact (hfirst ' ' rfl).1 rfl

/-- In a pattern, text is put only behind a token that is no text, or across a line break; and where the pattern ends
its last run is trimmed, so it ends with content or is stranded. -/
theorem poised_readText (h : s.Poised source) {outer : List PatternItem} {breaks : Nat} {indent : Option Nat}
    (hfs : s.frames = .pattern outer breaks indent :: fs)
    (hcursor : fromOffset? s.cursor.offset source = some s.cursor.rest) :
    (s.readText limit outer breaks indent fs).state.Poised source := by
  have hwaiting : ∀ f ∈ fs, f.Waits := by
    have hwaits := h.waiting
    rwa [hfs] at hwaits
  obtain ⟨⟨houter, hhead⟩, hframes⟩ : Frame.Tidy source (.pattern outer breaks indent) ∧
      ∀ f ∈ fs, f.Tidy source := by
    have hall := h.frames
    rw [hfs] at hall
    exact List.forall_mem_cons.1 hall
  have hframes' : ∀ breaks' indent', ∀ f ∈ Frame.pattern outer breaks' indent' :: fs, f.Tidy source :=
    fun _ _ => List.forall_mem_cons.2 ⟨⟨houter, hhead⟩, hframes⟩
  have hread := s.textReads limit outer breaks indent fs
  generalize s.readText limit outer breaks indent fs = step at hread ⊢
  cases hread with
  | @placeable text rest d hover htext =>
    have hrun := h.items.run (r := ⟨breaks, indent, s.cursor.offset, text⟩) (isText_of_inRun htext)
      (h.follows hfs _ _)
    exact Calm.poised_openPlaceable ⟨hrun, hframes' 0 none, List.forall_mem_cons.2 ⟨⟨rfl, rfl⟩, hwaiting⟩⟩
  | @below text gap d l hover htext hgap hl hcontinues =>
    -- the next run stands behind a line break, and begins with neither a space nor a closing brace
    have hrun := h.items.run (r := ⟨breaks, indent, s.cursor.offset, text⟩)
      (isText_of_inRun (List.forall_mem_append.1 htext).1) (h.follows hfs _ _)
    simp only [Line.Next.continuesPattern, Bool.and_eq_true, Bool.not_eq_true'] at hcontinues
    obtain ⟨-, -, -, -, hspace, hblank⟩ := Line.nextContent?_eq_some hl
    refine ⟨hrun, hframes' _ _, hwaiting, ?_⟩
    obtain ⟨n, hn⟩ := Nat.exists_eq_succ_of_ne_zero (Nat.pos_iff_ne_zero.1 (Line.Next.breaks_pos hl))
    show AtText ⟨_, _, .pattern outer l.breaks (some l.indent) :: fs⟩
    rw [hn]
    refine ⟨hblank, ?_⟩
    intro x hx
    obtain rfl := Option.some.inj hx
    refine ⟨hspace, ?_⟩
    intro hbrace
    simp [hbrace, Line.isSpecialStart] at hcontinues
  | @last text gap d hover htext hgap hends =>
    have hitems := h.items.closePattern houter hhead (r := ⟨breaks, indent, s.cursor.offset, text⟩)
      (isText_of_inRun (List.forall_mem_append.1 htext).1)
      (newline_notMem_of_inRun (List.forall_mem_append.1 htext).1) (h.follows hfs _ _)
      (h.stranding hfs hcursor text gap d.rest hover.rest hgap hends) d.offset
    refine Calm.poised ⟨hitems, hframes, hwaiting⟩ ?_
    intro i hi
    obtain rfl := Option.some.inj hi
    rfl

/-- In an expression nothing is asked of the place. -/
theorem Calm.poised_of_expression (h : s.Calm source) (hfs : InExpression s.frames) : s.Poised source := by
  refine ⟨h.items, h.frames, fun f hf => h.waiting f (List.mem_of_mem_tail hf), ?_⟩
  cases hframes : s.frames with
  | nil => simp [AtText, hframes]
  | cons f fs =>
    cases f with
    | pattern =>
      rw [hframes] at hfs
      exact hfs.elim
    | _ => simp [AtText, hframes]

theorem Calm.poised_emitScanned (h : s.Calm source) (hfs : InExpression s.frames) :
    s.emitScanned.state.Poised source := by
  unfold emitScanned
  split
  · exact h.poised_of_expression hfs
  · rename_i x rest _
    obtain ⟨htext, hend⟩ := Token.isText_scan x rest
    exact h.poised_emit (lexical_scan x rest) htext hend _ h.frames h.waiting

/-- In a placeable nothing but tokens is put on the stack. Where it ends, the pattern around it goes on in the same
line. -/
theorem poised_readPlaceable (h : s.Calm source) (hfs : s.frames = .placeable :: fs) :
    (s.readPlaceable limit fs).state.Poised source := by
  have hframes : ∀ f ∈ fs, f.Tidy source := fun f hf => h.frames f (by simp [hfs, hf])
  have hwaiting : ∀ f ∈ fs, f.Waits := fun f hf => h.waiting f (by simp [hfs, hf])
  have hreads := s.placeableReads limit fs
  generalize s.readPlaceable limit fs = r at hreads
  cases hreads with
  | close => exact h.poised_emit (k := .closeBrace) trivial rfl (by decide) 1 hframes hwaiting
  | placeable => exact h.poised_openPlaceable
  | arguments => exact h.poised_openArguments
  | arrow =>
    exact h.poised_emit (k := .arrow) trivial rfl (by decide) 2 (List.forall_mem_cons.2 ⟨trivial, hframes⟩)
      (List.forall_mem_cons.2 ⟨trivial, hwaiting⟩)
  | token => exact h.poised_emitScanned (by rw [hfs]; trivial)

theorem poised_readArguments (h : s.Calm source) {positional atStart : Bool}
    (hfs : s.frames = .arguments positional atStart :: fs) :
    (s.readArguments limit positional atStart fs).state.Poised source := by
  have hframes : ∀ f ∈ fs, f.Tidy source := fun f hf => h.frames f (by simp [hfs, hf])
  have hwaiting : ∀ f ∈ fs, f.Waits := fun f hf => h.waiting f (by simp [hfs, hf])
  have hmark : ∀ b : Bool, (if b then s.mark .endPositional else s).Calm source := by
    intro b
    cases b
    · exact h
    · exact h.mark (k := .endPositional) trivial rfl (by decide)
  have hreframe : ({ s with frames := .arguments positional false :: fs } : State).Calm source :=
    h.reframe (List.forall_mem_cons.2 ⟨trivial, hframes⟩) (List.forall_mem_cons.2 ⟨trivial, hwaiting⟩)
  have hreads := s.argumentsReads limit positional atStart fs
  generalize s.readArguments limit positional atStart fs = r at hreads
  cases hreads with
  | nothing => exact h.poised_of_expression (by rw [hfs]; trivial)
  | close => exact (hmark positional).poised_emit (k := .closeParen) trivial rfl (by decide) 1 hframes hwaiting
  | placeable => exact hreframe.poised_openPlaceable
  | arguments => exact hreframe.poised_openArguments
  | @token x rest =>
    obtain ⟨htext, hend⟩ := Token.isText_scan x rest
    exact (hmark _).poised_emit (lexical_scan x rest) htext hend _ (List.forall_mem_cons.2 ⟨trivial, hframes⟩)
      (List.forall_mem_cons.2 ⟨trivial, hwaiting⟩)

theorem poised_readVariants (h : s.Calm source) (hfs : s.frames = .variants :: fs) :
    (s.readVariants fs).state.Poised source := by
  have hframes : ∀ f ∈ fs, f.Tidy source := fun f hf => h.frames f (by simp [hfs, hf])
  have hwaiting : ∀ f ∈ fs, f.Waits := fun f hf => h.waiting f (by simp [hfs, hf])
  have hreads := s.variantsReads fs
  generalize s.readVariants fs = r at hreads
  cases hreads with
  | close => exact h.poised_emit (k := .closeBrace) trivial rfl (by decide) 1 hframes hwaiting
  | key =>
    exact h.poised_emit (k := .openBracket) trivial rfl (by decide) 1 (List.forall_mem_cons.2 ⟨trivial, h.frames⟩)
      (List.forall_mem_cons.2 ⟨trivial, h.waiting⟩)
  | token => exact h.poised_emitScanned (by rw [hfs]; trivial)

/-- Behind the key of a variant its value begins: a pattern that holds nothing yet. -/
theorem poised_readKey (h : s.Calm source) {read : Bool} (hfs : s.frames = .key read :: fs)
    (hkeys : KeysInVariants s.frames) : (s.readKey read fs).state.Poised source := by
  have hframes : ∀ f ∈ fs, f.Tidy source := fun f hf => h.frames f (by simp [hfs, hf])
  have hwaiting : ∀ f ∈ fs, f.Waits := fun f hf => h.waiting f (by simp [hfs, hf])
  have hreads := s.keyReads read fs
  generalize s.readKey read fs = r at hreads
  cases hreads with
  | close =>
    have hclose := h.emit (k := .closeBracket) trivial rfl (by decide) 1
    exact (hclose.reframe hframes hwaiting).poised_beginValue
  | unclosed =>
    -- the key goes unclosed, and the machine is among variants again
    rw [hfs] at hkeys
    obtain ⟨gs, rfl⟩ := List.head?_eq_some_iff.1 hkeys.1
    exact (h.reframe hframes hwaiting).poised_of_expression trivial
  | token =>
    have hread : ({ s with frames := .key true :: fs } : State).Calm source :=
      h.reframe (List.forall_mem_cons.2 ⟨trivial, hframes⟩) (List.forall_mem_cons.2 ⟨trivial, hwaiting⟩)
    exact hread.poised_emitScanned trivial

/-- Layout in front of the next token leaves the items as they are, so it is enough to look at what is read at the
content. -/
theorem Calm.poised_onContent (h : s.Calm source) (hfs : InExpression s.frames) {read : State → Step}
    (hread : ∀ d : Cursor, (read { s with cursor := d }).state.Poised source) :
    (s.onContent read).state.Poised source := by
  unfold onContent
  split
  · exact h.poised_of_expression hfs
  · exact hread _

/-- **A step** keeps items behind one another. Text is only put where the pattern has crossed a line break, or where no
text is on top. -/
theorem poised_step (h : s.Poised source) (hkeys : KeysInVariants s.frames)
    (hcursor : fromOffset? s.cursor.offset source = some s.cursor.rest) (limit : Nat) :
    (s.step limit).state.Poised source := by
  have hcalm : (∀ f ∈ s.frames.head?, f.Waits) → s.Calm source := h.calm
  have hreads := s.stepReads limit
  generalize s.step limit = r at hreads
  cases hreads with
  | outside hfs => exact poised_betweenAttributes (hcalm (by simp [hfs])) hfs
  | pattern hfs => exact poised_readText h hfs hcursor
  | placeable hfs =>
    have hc := hcalm (by simp [hfs, Frame.Waits])
    exact hc.poised_onContent (by rw [hfs]; trivial) fun d => poised_readPlaceable (hc.move d) hfs
  | arguments hfs =>
    have hc := hcalm (by simp [hfs, Frame.Waits])
    exact hc.poised_onContent (by rw [hfs]; trivial) fun d => poised_readArguments (hc.move d) hfs
  | variants hfs =>
    have hc := hcalm (by simp [hfs, Frame.Waits])
    exact hc.poised_onContent (by rw [hfs]; trivial) fun d => poised_readVariants (hc.move d) hfs
  | key hfs =>
    have hc := hcalm (by simp [hfs, Frame.Waits])
    exact hc.poised_onContent (by rw [hfs]; trivial) fun d => poised_readKey (hc.move d) hfs hkeys

/-- What every step of a machine in a source keeps is kept by a run. -/
theorem run_of_step {P : State → Prop} {c : Cursor} {pre t : List Char} (hc : (Cursor.ofChars source).Over pre c)
    (hstep : ∀ s t, s.Sound c t → fromOffset? s.cursor.offset source = some s.cursor.rest → P s →
      P (s.step limit).state) (hsound : s.Sound c t) (h : P s) : P (s.run limit).2 := by
  have hnext : ∀ {s : State} {t : List Char}, s.Sound c t → P s → P (s.step limit).state := by
    intro s t hsound h
    refine hstep s t hsound ?_ h
    have hover := hc.trans hsound.reads.stretch
    have hoffset : s.cursor.offset = byteCount (pre ++ t) := by simpa [Cursor.ofChars] using hover.offset
    have hrest : source = pre ++ t ++ s.cursor.rest := hover.rest
    rw [hoffset, hrest, fromOffset?_append]
  fun_induction run limit s generalizing t with
  | case1 s s' hs ih =>
    have hsound' := sound_step hsound limit
    have h' := hnext hsound h
    rw [hs] at hsound' h'
    obtain ⟨t', ht'⟩ := hsound'
    exact ih ht' h'
  | case2 s e s' hs =>
    have h' := hnext hsound h
    rwa [hs] at h'

/-- **A run** keeps items behind one another, since each of its steps does in whatever place of the source it is
made. -/
theorem poised_run {c : Cursor} {pre t : List Char} (hc : (Cursor.ofChars source).Over pre c) (h : s.Poised source)
    (hsound : s.Sound c t) (limit : Nat) : (s.run limit).2.Poised source :=
  run_of_step hc (fun _ _ hsound hcursor h => poised_step h hsound.keys hcursor limit) hsound h

theorem poised_ofHeader {c : Cursor} {isTerm : Bool} {a : Line.Assignment}
    (ha : Line.entryHeader? c.rest = some (isTerm, a)) : (ofHeader c isTerm a).Poised source := by
  have hstart : Calm source ⟨c, [], []⟩ := ⟨.nil, by simp, by simp⟩
  obtain ⟨rfl, rest, -, hassign⟩ | ⟨rfl, hassign⟩ := Line.entryHeader?_eq_some ha
  · have hminus := hstart.emit (k := .minus) trivial rfl (by decide) 1
    exact (hminus.emitAssignment (Line.isName_of_assignment hassign)).poised_beginValue
  · exact (hstart.emitAssignment (Line.isName_of_assignment hassign)).poised_beginValue

/-- The tokens of a state are tidy as its items are. -/
theorem tidy_unwind (h : Tidy source is) (hframes : ∀ f ∈ fs, f.Tidy source) :
    Tidy source ((unwind fs is).map .lexeme) := by
  induction fs generalizing is with
  | nil => exact h.dedent
  | cons f fs ih =>
    obtain ⟨hf, hfs⟩ := List.forall_mem_cons.1 hframes
    cases f with
    | pattern outer breaks indent => exact ih (h.dedent.append hf.1 hf.2) hfs
    | placeable => exact ih h hfs
    | arguments => exact ih h hfs
    | variants => exact ih h hfs
    | key => exact ih h hfs

end State

/-! ## Tokens -/

/-- Tokens of which each has its letters, and whose texts have their neighbours. This is what is left of tidy items once
runs of text have become tokens. -/
structure Neat (source : List Char) (ls : List Lexeme) : Prop where
  texts : ls.IsChain fun a b =>
    a.token.isText = true → b.token.isText = true → ∃ cs, b.token = .pureText (String.ofList ('\n' :: cs))
  ends : ls.IsChain fun a b => b.token = .patternEnd → a.EndsPattern source
  lexical : ∀ l ∈ ls, l.token.Lexical

theorem Neat.suffix {ls ms : List Lexeme} (h : Neat source ls) (hms : ms <:+ ls) : Neat source ms :=
  ⟨h.texts.suffix hms, h.ends.suffix hms, fun l hl => h.lexical l (hms.subset hl)⟩

/-- **The tokens of an entry** are neat: texts next to each other are on different lines, and the last one of a pattern
ends with content unless it is stranded. -/
theorem neat_run {c : Cursor} {isTerm : Bool} {a : Line.Assignment} (hc : c.AtBreak source)
    (ha : Line.entryHeader? c.rest = some (isTerm, a)) (limit : Nat) :
    Neat source ((State.ofHeader c isTerm a).run limit).2.lexemes := by
  obtain ⟨pre, hover, -⟩ := hc
  obtain ⟨t, hsound⟩ := State.sound_ofHeader ha
  have hpoised := State.poised_run hover (State.poised_ofHeader ha) hsound limit
  have htidy := State.tidy_unwind hpoised.items hpoised.frames
  have hchain := (List.isChain_map _).1 htidy.chain
  refine ⟨?_, ?_, ?_⟩
  · rw [State.lexemes, List.isChain_reverse]
    exact hchain.imp fun b a h ha hb => h.text hb ha
  · rw [State.lexemes, List.isChain_reverse]
    refine hchain.imp fun b a h hb => ?_
    obtain ⟨token, span⟩ := b
    obtain rfl : token = .patternEnd := hb
    obtain ⟨l, hl, hends⟩ := h.ending span rfl
    exact PatternItem.lexeme.inj hl ▸ hends
  · intro l hl
    exact htidy.lexical _ (List.mem_map_of_mem (List.mem_reverse.1 hl))

end Fluent
