import Fluent.Proofs.Neighbours
import Fluent.Proofs.Nesting
import Fluent.Proofs.Parts

/-!
# Argument lists and their own tokens

The tokens between the parentheses of a call are its own ones, and those of the placeables and argument lists in it.
Among its own ones a single marker ends the positional arguments. It stands right before the first argument that is
named, that is before an identifier with a colon behind it, or at the end if none is.

A tab between the name and the colon hides the colon from the machine: such an argument does not count as named.

* `Level`, `levelsBehind`: the open constructs behind some tokens, each with its own tokens.
* `BeginsNamed`, `Untabbed`: a named argument.
* `SplitArguments`: where the marker stands.
* `splitArguments_of_closed`: every argument list that is closed is split.
-/

namespace Fluent

/-! ## Levels -/

/-- An open construct, and the tokens that were read in it but in no construct inside it. -/
structure Level where
  construct : Open
  own : List Lexeme

/-- The open constructs behind a token, the innermost first. Text is no token of a construct. -/
def levelsAfter (l : Lexeme) (lvs : List Level) : List Level :=
  if l.token.isText then lvs
  else if l.token = .patternStart then ⟨.value, []⟩ :: lvs
  else
    match lvs with
    | [] => []
    | ⟨c, own⟩ :: lvs =>
      match c.after l.token with
      | [] => lvs
      | [d] => ⟨d, own ++ [l]⟩ :: lvs
      | d :: _ => ⟨d, []⟩ :: ⟨c, own ++ [l]⟩ :: lvs

/-- The open constructs behind some tokens of an entry. -/
def levelsBehind (ls : List Lexeme) : List Level := ls.foldl (fun lvs l => levelsAfter l lvs) []

/-! ## Split arguments -/

/-- An argument can begin behind these tokens of an argument list: behind none of them, which is behind the parenthesis,
or behind a comma. -/
def StartsArgument (ls : List Lexeme) : Prop := ∀ l ∈ ls.getLast?, l.token = .comma

def Token.isIdentifier : Token → Bool
  | identifier _ => true
  | _ => false

/-- These tokens begin with a name and a colon, and what is between the two is as it should be. -/
def BeginsNamed (joined : Lexeme → Lexeme → Prop) : List Lexeme → Prop
  | a :: b :: _ => a.token.isIdentifier = true ∧ b.token = .colon ∧ joined a b
  | _ => False

/-- No tab stands between two tokens of a source. A tab may stand there, but what looks from a name for its colon does
not look beyond a tab. -/
def Untabbed (source : List Char) (a b : Lexeme) : Prop :=
  '\t' ∉ takeBytes (b.span.start - a.span.stop) ((fromOffset? a.span.stop source).getD [])

/-- A single marker stands among the tokens of an argument list: right before the first named argument, or at the end
if there is none. -/
def SplitArguments (joined : Lexeme → Lexeme → Prop) (own : List Lexeme) : Prop :=
  ∃ as marker bs, own = as ++ ⟨.endPositional, marker⟩ :: bs ∧ (∀ l ∈ as ++ bs, l.token ≠ .endPositional) ∧
    (bs ≠ [] → StartsArgument as ∧ BeginsNamed joined bs) ∧
    ∀ xs ys, as ++ bs = xs ++ ys → xs.length < as.length → StartsArgument xs → ¬ BeginsNamed joined ys

variable {source : List Char} {l : Lexeme} {ls own xs ys : List Lexeme} {lvs : List Level} {fs : List Frame}
  {c d : Cursor} {joined : Lexeme → Lexeme → Prop}

/-- The look-ahead at a name finds a colon behind it. -/
theorem namedArgumentAhead_iff {x : Char} {cs : List Char} (hx : isIdentifierStart x = true) :
    State.namedArgumentAhead (x :: cs) = true ↔ ColonAhead (cs.dropWhile isIdentifierChar) := by
  have hdrop : (x :: cs).dropWhile isIdentifierChar = cs.dropWhile isIdentifierChar := by
    rw [List.dropWhile_cons, if_pos (isIdentifierChar_of_isIdentifierStart hx)]
  rw [namedArgumentAhead_eq, hdrop, beq_iff_eq, List.head?_eq_some_iff]
  rfl

/-- Behind layout that ends somewhere, a colon is ahead exactly if it stands there and the layout has no tab. -/
theorem colonAhead_iff {gap rest : List Char} {x : Char} (hgap : ∀ y ∈ gap, isLayout y = true)
    (hx : isLayout x = false) : ColonAhead (gap ++ x :: rest) ↔ x = ':' ∧ '\t' ∉ gap := by
  have hfirst : (x :: rest).dropWhile isGap = x :: rest := by
    simp only [isLayout, Line.isBlankChar, Bool.or_eq_false_iff] at hx
    rw [List.dropWhile_cons_of_neg (by simp [isGap, hx])]
  rw [ColonAhead, List.dropWhile_append]
  cases hdrop : gap.dropWhile isGap with
  | nil =>
    have htab : '\t' ∉ gap := fun htab => by cases List.dropWhile_eq_nil_iff.1 hdrop _ htab
    simp [hfirst, htab]
  | cons y ys =>
    -- layout that no gap has is a tab
    have hy : y ∈ gap := (List.dropWhile_suffix isGap).subset (hdrop ▸ List.mem_cons_self)
    have hstop : isGap y = false := by
      have hhead := List.head?_dropWhile_not isGap gap
      rwa [hdrop] at hhead
    have hlayout := hgap y hy
    obtain rfl : y = '\t' := by
      simp only [isLayout, Line.isBlankChar, isGap, Bool.or_eq_true, Bool.or_eq_false_iff, beq_iff_eq,
        beq_eq_false_iff_ne] at hlayout hstop
      tauto
    simp [hy]

/-- Between two tokens there is no tab if there is none in the text between their cursors. -/
theorem untabbed_iff {a b : Lexeme} {gap : List Char} (hc : fromOffset? c.offset source = some c.rest)
    (hover : c.Over gap d) (ha : a.span.stop = c.offset) (hb : b.span.start = d.offset) :
    Untabbed source a b ↔ '\t' ∉ gap := by
  rw [Untabbed, ha, hb, hc, hover.offset, Nat.add_sub_cancel_left, hover.rest, Option.getD_some, takeBytes_append]

/-! ## Arguments that are being read -/

/-- So far no argument is named, and if the last token is a name that could begin one, then no colon is ahead. -/
structure Unnamed (source : List Char) (c : Cursor) (own : List Lexeme) : Prop where
  marker : ∀ l ∈ own, l.token ≠ .endPositional
  named : ∀ xs ys, own = xs ++ ys → StartsArgument xs → ¬ BeginsNamed (Untabbed source) ys
  last : ∀ xs l, own = xs ++ [l] → StartsArgument xs → l.token.isIdentifier = true →
    l.span.stop = c.offset ∧ ¬ ColonAhead c.rest

/-- An argument is named, and a marker stands before it; if its name is the last token, then a colon is ahead. -/
structure Named (source : List Char) (c : Cursor) (as : List Lexeme) (name : Lexeme) (bs : List Lexeme) : Prop where
  marker : ∀ l ∈ as ++ name :: bs, l.token ≠ .endPositional
  start : StartsArgument as
  isName : name.token.isIdentifier = true
  named : ∀ xs ys, as = xs ++ ys → StartsArgument xs → ¬ BeginsNamed (Untabbed source) ys
  colon : (bs = [] ∧ name.span.stop = c.offset ∧ ColonAhead c.rest) ∨
    ∃ b bs', bs = b :: bs' ∧ b.token = .colon ∧ Untabbed source name b

/-- What was read of an argument list, up to the cursor: either no named argument, or positional ones and then the
marker and named ones, of which the last may still be read. -/
def Argues (source : List Char) (c : Cursor) (positional : Bool) (own : List Lexeme) : Prop :=
  if positional then Unnamed source c own
  else ∃ as marker name bs, own = as ++ ⟨.endPositional, marker⟩ :: name :: bs ∧ Named source c as name bs

theorem startsArgument_nil : StartsArgument [] := by simp [StartsArgument]

theorem startsArgument_concat : StartsArgument (ls ++ [l]) ↔ l.token = .comma := by
  simp [StartsArgument]

/-- A token in front of a name begins no named argument. -/
theorem not_beginsNamed_append {name : Lexeme} (hname : name.token.isIdentifier = true) (hne : ys ≠ [])
    (h : ¬ BeginsNamed joined ys) (zs : List Lexeme) : ¬ BeginsNamed joined (ys ++ name :: zs) := by
  match ys, hne with
  | [y], _ =>
    rintro ⟨-, hcolon, -⟩
    rw [hcolon] at hname
    cases hname
  | _ :: _ :: _, _ => exact h

section Reading

variable {gap : List Char} {x : Char} {rest : List Char}

/-- The next token of an argument list without named arguments. -/
theorem Unnamed.snoc (h : Unnamed source c own) (hc : fromOffset? c.offset source = some c.rest)
    (hover : c.Over gap d) (hgap : ∀ y ∈ gap, isLayout y = true) (hrest : d.rest = x :: rest)
    (hx : isLayout x = false) (hmarker : l.token ≠ .endPositional) (hstart : l.span.start = d.offset)
    (hcolon : l.token = .colon → x = ':') {e : Cursor}
    (hlast : StartsArgument own → l.token.isIdentifier = true → l.span.stop = e.offset ∧ ¬ ColonAhead e.rest) :
    Unnamed source e (own ++ [l]) := by
  refine ⟨?_, ?_, ?_⟩
  · simpa [or_imp, forall_and] using ⟨h.marker, hmarker⟩
  · intro xs ys heq hxs hnamed
    rcases List.eq_nil_or_concat ys with rfl | ⟨ys, l', rfl⟩
    · exact hnamed
    rw [List.concat_eq_append] at heq hnamed
    rw [← List.append_assoc] at heq
    obtain ⟨rfl, hl⟩ := List.append_inj' heq rfl
    obtain rfl := List.singleton_inj.1 hl
    match ys, hnamed with
    | [i], ⟨hi, hcolon', hjoined⟩ =>
      -- the name was the last token, and no colon was ahead
      obtain ⟨hstop, hahead⟩ := h.last xs i rfl hxs hi
      apply hahead
      rw [hover.rest, hrest, colonAhead_iff hgap hx]
      exact ⟨hcolon hcolon', (untabbed_iff hc hover hstop hstart).1 hjoined⟩
    | _ :: _ :: _, hnamed => exact h.named xs _ rfl hxs hnamed
  · intro xs l' heq hxs hl'
    obtain ⟨rfl, hl⟩ := List.append_inj' heq rfl
    obtain rfl := List.singleton_inj.1 hl
    exact hlast hxs hl'

/-- The next token of an argument list with a named argument. -/
theorem Named.snoc {as bs : List Lexeme} {name : Lexeme} (h : Named source c as name bs)
    (hc : fromOffset? c.offset source = some c.rest) (hover : c.Over gap d) (hgap : ∀ y ∈ gap, isLayout y = true)
    (hrest : d.rest = x :: rest) (hx : isLayout x = false) (hmarker : l.token ≠ .endPositional)
    (hstart : l.span.start = d.offset) (hcolon : x = ':' → l.token = .colon) (e : Cursor) :
    Named source e as name (bs ++ [l]) := by
  refine ⟨?_, h.start, h.isName, h.named, .inr ?_⟩
  · have hmarkers := h.marker
    simp only [List.mem_append, List.mem_cons, List.mem_nil_iff, or_false] at hmarkers ⊢
    rintro l' (hl' | rfl | hl' | rfl)
    · exact hmarkers l' (.inl hl')
    · exact hmarkers _ (.inr (.inl rfl))
    · exact hmarkers l' (.inr (.inr hl'))
    · exact hmarker
  · rcases h.colon with ⟨rfl, hstop, hahead⟩ | ⟨b, bs', rfl, hb⟩
    · rw [hover.rest, hrest, colonAhead_iff hgap hx] at hahead
      exact ⟨l, [], rfl, hcolon hahead.1, (untabbed_iff hc hover hstop hstart).2 hahead.2⟩
    · exact ⟨b, bs' ++ [l], rfl, hb⟩

/-- The name of the first named argument, with the marker before it. -/
theorem Unnamed.mark (h : Unnamed source c own) (hstart : StartsArgument own) (hl : l.token.isIdentifier = true)
    (hstop : l.span.stop = d.offset) (hahead : ColonAhead d.rest) : Named source d own l [] := by
  refine ⟨?_, hstart, hl, h.named, .inl ⟨rfl, hstop, hahead⟩⟩
  intro l' hl'
  rcases List.mem_append.1 hl' with hl' | hl'
  · exact h.marker l' hl'
  · obtain rfl := List.mem_singleton.1 hl'
    intro hend
    rw [hend] at hl
    cases hl

/-- Without named arguments the marker stands at the end. -/
theorem Unnamed.split (h : Unnamed source c own) (marker : Span) :
    SplitArguments (Untabbed source) (own ++ [⟨.endPositional, marker⟩]) := by
  refine ⟨own, marker, [], rfl, by simpa using h.marker, fun hnil => absurd rfl hnil, ?_⟩
  intro xs ys heq _ hxs
  exact h.named xs ys (by simpa using heq) hxs

/-- The closing parenthesis is no colon. -/
theorem Named.split {as bs : List Lexeme} {name : Lexeme} (h : Named source c as name bs) (hover : c.Over gap d)
    (hgap : ∀ y ∈ gap, isLayout y = true) (hrest : d.rest = x :: rest) (hx : isLayout x = false) (hcolon : x ≠ ':')
    (marker : Span) : SplitArguments (Untabbed source) (as ++ ⟨.endPositional, marker⟩ :: name :: bs) := by
  refine ⟨as, marker, name :: bs, rfl, h.marker, fun _ => ⟨h.start, ?_⟩, ?_⟩
  · rcases h.colon with ⟨-, -, hahead⟩ | ⟨b, bs', rfl, hb, hjoined⟩
    · rw [hover.rest, hrest, colonAhead_iff hgap hx] at hahead
      exact absurd hahead.1 hcolon
    · exact ⟨h.isName, hb, hjoined⟩
  · intro xs ys heq hlength hxs
    -- an argument that begins before the marker begins among the tokens before it
    obtain ⟨zs, rfl, -⟩ | ⟨zs, rfl, rfl⟩ := List.append_eq_append_iff.1 heq
    · simp at hlength
    · refine not_beginsNamed_append h.isName ?_ (h.named xs zs rfl hxs) bs
      rintro rfl
      simp at hlength

/-- **The next token** of an argument list leaves the arguments as they should be. -/
theorem Argues.snoc {positional : Bool} (h : Argues source c positional own)
    (hc : fromOffset? c.offset source = some c.rest) (hover : c.Over gap d) (hgap : ∀ y ∈ gap, isLayout y = true)
    (hrest : d.rest = x :: rest) (hx : isLayout x = false) (hmarker : l.token ≠ .endPositional)
    (hstart : l.span.start = d.offset) (hcolon : l.token = .colon ↔ x = ':') {e : Cursor}
    (hlast : positional = true → StartsArgument own → l.token.isIdentifier = true →
      l.span.stop = e.offset ∧ ¬ ColonAhead e.rest) : Argues source e positional (own ++ [l]) := by
  cases positional with
  | true => exact Unnamed.snoc h hc hover hgap hrest hx hmarker hstart hcolon.1 (hlast rfl)
  | false =>
    obtain ⟨as, marker, name, bs, rfl, hnamed⟩ := h
    refine ⟨as, marker, name, bs ++ [l], by simp, ?_⟩
    exact hnamed.snoc hc hover hgap hrest hx hmarker hstart hcolon.2 e

theorem argues_nil (source : List Char) (c : Cursor) : Argues source c true [] := by
  refine ⟨by simp, ?_, ?_⟩
  · intro xs ys heq _ hnamed
    obtain ⟨-, rfl⟩ := List.append_eq_nil_iff.1 heq.symm
    exact hnamed
  · intro xs l heq
    simp at heq

end Reading

/-- The arguments between parentheses that are closed are split. At any depth, what stands between a parenthesis and its
end is positional arguments, the marker, and named ones. -/
def Closed (source : List Char) (ls : List Lexeme) : Prop :=
  ∀ pre l post, ls = pre ++ l :: post → l.token = .closeParen → ∀ own lvs,
    levelsBehind pre = ⟨.arguments, own⟩ :: lvs → SplitArguments (Untabbed source) own

theorem levelsBehind_concat (ls : List Lexeme) (l : Lexeme) :
    levelsBehind (ls ++ [l]) = levelsAfter l (levelsBehind ls) := by
  rw [levelsBehind, List.foldl_append]
  rfl

/-- One more token leaves the arguments split, unless it closes an argument list; then what was read of that list has to
be split. -/
theorem Closed.snoc (h : Closed source ls) (hl : l.token = .closeParen → ∀ own lvs,
    levelsBehind ls = ⟨.arguments, own⟩ :: lvs → SplitArguments (Untabbed source) own) : Closed source (ls ++ [l]) := by
  intro pre l' post heq hclose
  rcases List.eq_nil_or_concat post with rfl | ⟨post, l'', rfl⟩
  · obtain ⟨rfl, hlast⟩ := List.append_inj' heq rfl
    obtain rfl := List.singleton_inj.1 hlast
    exact hl hclose
  · rw [List.concat_eq_append, ← List.cons_append, ← List.append_assoc] at heq
    obtain ⟨rfl, -⟩ := List.append_inj' heq rfl
    exact h pre l' post rfl hclose

/-- Text makes no difference to the levels. -/
theorem levelsBehind_filter (ls : List Lexeme) : levelsBehind (ls.filter (!·.token.isText)) = levelsBehind ls := by
  rw [levelsBehind, levelsBehind, List.foldl_filter]
  congr 1
  funext lvs l
  by_cases hl : l.token.isText = true
  · simp [hl, levelsAfter]
  · simp [hl]

section

variable {o : Open} {own' : List Lexeme}

/-- A token that leaves the innermost construct open. -/
theorem levelsAfter_still (htext : l.token.isText = false) (h : stackAfter l.token [o] = [o]) (own : List Lexeme)
    (lvs : List Level) : levelsAfter l (⟨o, own⟩ :: lvs) = ⟨o, own ++ [l]⟩ :: lvs := by
  have hstart : l.token ≠ .patternStart := by
    intro hstart
    rw [stackAfter, if_pos hstart] at h
    simp at h
  rw [stackAfter, if_neg hstart, List.append_nil] at h
  simp only [levelsAfter, htext, hstart, h, Bool.false_eq_true, if_false]

end

theorem isIdentifierStart_of_scan {x : Char} {cs : List Char} (h : (Token.scan x cs).1.isIdentifier = true) :
    isIdentifierStart x = true := by
  have hscans := Token.scans x cs
  generalize (Token.scan x cs).1 = t, (Token.scan x cs).2 = more at hscans h
  cases hscans with
  | name hx => exact hx
  | sign =>
    unfold Token.ofChar at h
    split at h <;> cases h
  | _ => cases h

/-- A colon is scanned where one stands. -/
theorem colon_scan_iff (x : Char) (cs : List Char) : (Token.scan x cs).1 = .colon ↔ x = ':' := by
  constructor
  · intro h
    have hscans := Token.scans x cs
    generalize (Token.scan x cs).1 = t, (Token.scan x cs).2 = more at hscans h
    cases hscans with
    | sign =>
      unfold Token.ofChar at h
      split at h <;> first | rfl | cases h
    | _ => cases h
  · rintro rfl
    rfl

/-! ## Frames and levels -/

/-- A level holds what was read of the construct of a frame. For arguments this includes whether the frame is in its
positional part, and whether an argument can begin. -/
def Frame.Fits (source : List Char) (c : Cursor) (f : Frame) (lv : Level) : Prop :=
  f.open? = some lv.construct ∧ ∀ positional atStart, f = .arguments positional atStart →
    (atStart = true ↔ StartsArgument lv.own) ∧ Argues source c positional lv.own

/-- Levels of constructs around others: nothing is read in them until those are closed. -/
inductive Fits (source : List Char) : List Frame → List Level → Prop
  | nil : Fits source [] []
  | key {fs : List Frame} {lvs : List Level} : Fits source fs lvs → Fits source (.key true :: fs) lvs
  | cons {f : Frame} {fs : List Frame} {lv : Level} {lvs : List Level} : (∀ c, f.Fits source c lv) →
      Fits source fs lvs → Fits source (f :: fs) (lv :: lvs)

/-- The levels of some frames, of which the innermost is read up to the cursor. -/
inductive FitsAt (source : List Char) (c : Cursor) : List Frame → List Level → Prop
  | nil : FitsAt source c [] []
  | key {fs : List Frame} {lvs : List Level} : Fits source fs lvs → FitsAt source c (.key true :: fs) lvs
  | cons {f : Frame} {fs : List Frame} {lv : Level} {lvs : List Level} : f.Fits source c lv →
      Fits source fs lvs → FitsAt source c (f :: fs) (lv :: lvs)

theorem Fits.at (h : Fits source fs lvs) (c : Cursor) : FitsAt source c fs lvs := by
  cases h with
  | nil => exact .nil
  | key h => exact .key h
  | cons hf h => exact .cons (hf c) h

/-- All frames but those of arguments fit by their kind. -/
theorem Frame.fits_of_open {f : Frame} {o : Open} (hf : f.open? = some o) (ho : o ≠ .arguments) (c : Cursor)
    (own : List Lexeme) : f.Fits source c ⟨o, own⟩ := by
  refine ⟨hf, ?_⟩
  rintro positional atStart rfl
  exact absurd (Option.some.inj hf).symm ho

/-- The innermost frame stands for the innermost level, whatever was read of it up to the cursor. -/
theorem FitsAt.of_cons {f : Frame} {o : Open} (h : FitsAt source c (f :: fs) lvs) (hf : f.open? = some o) :
    ∃ own lvs', lvs = ⟨o, own⟩ :: lvs' ∧ Fits source fs lvs' ∧ f.Fits source c ⟨o, own⟩ := by
  cases h with
  | key => cases hf
  | @cons _ _ lv lvs' hfits h =>
    obtain ⟨o', own⟩ := lv
    obtain rfl := Option.some.inj (hf.symm.trans hfits.1)
    exact ⟨own, lvs', rfl, h, hfits⟩

theorem FitsAt.eq_nil (h : FitsAt source c [] lvs) : lvs = [] := by
  cases h
  rfl

/-- Where no arguments are read, it does not matter where the cursor is. -/
theorem FitsAt.move (h : FitsAt source c fs lvs) (hfs : ∀ p b, fs.head? ≠ some (.arguments p b)) (d : Cursor) :
    FitsAt source d fs lvs := by
  cases h with
  | nil => exact .nil
  | key h => exact .key h
  | cons hf h =>
    refine .cons ⟨hf.1, ?_⟩ h
    rintro p b rfl
    exact absurd rfl (hfs p b)

namespace State

/-- The token of an item that is no text. -/
def token? : PatternItem → Option Lexeme
  | .run _ => none
  | .lexeme l => if l.token.isText then none else some l

/-- The tokens read so far, but for text. -/
def tokens (s : State) : List Lexeme := (s.held.filterMap token?).reverse

variable {s s' : State} {k : Token} {limit : Nat}

theorem tokens_map_lexeme (ls : List Lexeme) :
    (ls.map PatternItem.lexeme).filterMap token? = ls.filter (!·.token.isText) := by
  rw [List.filterMap_map, ← List.filterMap_eq_filter]
  congr 1
  funext l
  by_cases hl : l.token.isText = true <;> simp [token?, Option.guard, hl]

theorem tokens_dedent (is : List PatternItem) :
    ((dedent is).map .lexeme).filterMap token? = is.filterMap token? :=
  filterMap_dedent (fun _ => rfl) (fun _ _ => rfl) is

/-- The tokens of a state, but for text. -/
theorem tokens_lexemes (s : State) : s.lexemes.filter (!·.token.isText) = s.tokens := by
  rw [lexemes, List.filter_reverse, ← tokens_map_lexeme, filterMap_unwind (fun _ => rfl) fun _ _ => rfl]
  rfl

theorem tokens_emit (s : State) (n : Nat) (hk : k.isText = false) :
    (s.emit k n).tokens = s.tokens ++ [⟨k, ⟨s.cursor.offset, (s.cursor.skip n).offset⟩⟩] := by
  simp [tokens, held, emit, token?, hk]

theorem tokens_mark (s : State) (hk : k.isText = false) :
    (s.mark k).tokens = s.tokens ++ [⟨k, .at s.cursor.offset⟩] := by
  simp [tokens, held, mark, token?, hk]

theorem tokens_reframe (s : State) (h : Reads.outerItems fs = Reads.outerItems s.frames) :
    State.tokens { s with frames := fs } = s.tokens := by
  rw [tokens, tokens, held, held, h]

/-- The levels behind the tokens of a state are those of its frames, with the cursor of the innermost one at `c`; and
the argument lists that were closed are split. -/
structure TracksFrom (source : List Char) (c : Cursor) (s : State) : Prop where
  fits : FitsAt source c s.frames (levelsBehind s.tokens)
  closed : Closed source s.tokens

/-- The same with the cursor where the state stands. -/
abbrev Tracks (source : List Char) (s : State) : Prop := s.TracksFrom source s.cursor

/-- A token is read that closes no arguments. -/
theorem tracksFrom_put {t : State} (h : Closed source s.tokens) (htokens : t.tokens = s.tokens ++ [l])
    (hl : l.token = .closeParen → ∀ own lvs, levelsBehind s.tokens ≠ ⟨.arguments, own⟩ :: lvs)
    (hfits : FitsAt source d t.frames (levelsAfter l (levelsBehind s.tokens))) : t.TracksFrom source d := by
  refine ⟨?_, ?_⟩
  · rwa [htokens, levelsBehind_concat]
  · rw [htokens]
    exact h.snoc fun hclose own lvs hlevels => absurd hlevels (hl hclose own lvs)

/-- No token is read. -/
theorem TracksFrom.of_eq (h : s.TracksFrom source c) (htokens : s'.tokens = s.tokens)
    (hfits : FitsAt source d s'.frames (levelsBehind s.tokens)) : s'.TracksFrom source d :=
  ⟨htokens ▸ hfits, htokens ▸ h.closed⟩

/-! ## Outside of arguments -/

/-- Where no arguments are read, it does not matter where the cursor is. -/
theorem TracksFrom.move (h : s.TracksFrom source c) (hfs : ∀ p b, s.frames.head? ≠ some (.arguments p b)) (e : Cursor) :
    ({ s with cursor := e } : State).TracksFrom source d :=
  h.of_eq rfl (h.fits.move hfs d)

theorem levelsAfter_nil (htext : l.token.isText = false) (hl : l.token ≠ .patternStart) : levelsAfter l [] = [] := by
  simp [levelsAfter, htext, hl]

/-- Outside of constructs a token is part of none. -/
theorem TracksFrom.put_outside (h : s.TracksFrom source c) (hfs : s.frames = [])
    (htokens : s'.tokens = s.tokens ++ [l]) (htext : l.token.isText = false) (hstart : l.token ≠ .patternStart)
    (hfs' : s'.frames = []) : s'.TracksFrom source d := by
  have hnil := (hfs ▸ h.fits).eq_nil
  refine tracksFrom_put h.closed htokens ?_ ?_
  · rw [hnil]
    exact fun _ _ _ => (by simp)
  · rw [hnil, levelsAfter_nil htext hstart, hfs']
    exact .nil

section

variable {f : Frame} {o : Open}

/-- In a construct other than arguments a token is read that leaves it open. -/
theorem TracksFrom.put_still (h : s.TracksFrom source c) (hfs : s.frames = f :: fs) (hf : f.open? = some o)
    (ho : o ≠ .arguments) (htokens : s'.tokens = s.tokens ++ [l]) (htext : l.token.isText = false)
    (hst : stackAfter l.token [o] = [o]) (hfs' : s'.frames = f :: fs) : s'.TracksFrom source d := by
  obtain ⟨own, lvs, hlevels, hfits, -⟩ := (hfs ▸ h.fits).of_cons hf
  refine tracksFrom_put h.closed htokens ?_ ?_
  · rw [hlevels]
    rintro - own' lvs' heq
    exact ho (congrArg Level.construct (List.cons.inj heq).1)
  · rw [hlevels, levelsAfter_still htext hst, hfs']
    exact .cons (Frame.fits_of_open hf ho _ _) hfits

end

/-! ## Opening -/

/-- What is read in a construct whose frame stays: its frame fits with one token more. -/
def KeepsFitting (source : List Char) (s : State) (f : Frame) (o : Open) (own : List Lexeme) (k : Token) : Prop :=
  ∀ l e, l.token = k → l.span.start = s.cursor.offset → f.Fits source e ⟨o, own ++ [l]⟩

theorem keepsFitting_of_open {f : Frame} {o : Open} (hf : f.open? = some o) (ho : o ≠ .arguments) (s : State)
    (own : List Lexeme) (k : Token) : s.KeepsFitting source f o own k :=
  fun _ e _ _ => Frame.fits_of_open hf ho e _

/-- A construct is opened inside another one, or the rest of the line is read. -/
theorem tracks_open {f g : Frame} {o p : Open} (h : Closed source s.tokens) (hfs : s.frames = f :: fs)
    (hlevels : levelsBehind s.tokens = ⟨o, own⟩ :: lvs) (hfits : Fits source fs lvs) (hk : k.isText = false)
    (hstart : k ≠ .patternStart) (hclose : k ≠ .closeParen) (ho : o.after k = [p, o]) (hkey : o ≠ .key)
    (hg : ∀ c, g.Fits source c ⟨p, []⟩) (hitems : Reads.outerItems [g] = [])
    (hopens : s.KeepsFitting source f o own k) (hline : s.KeepsFitting source f o own .unfinishedLine) (e : Ending) :
    (if s.depth < limit then Step.next { s.emit k 1 with frames := g :: s.frames }
      else .stop e s.emitUnfinished).state.Tracks source := by
  split
  · refine tracksFrom_put h (l := ⟨k, ⟨s.cursor.offset, (s.cursor.skip 1).offset⟩⟩) ?_ (fun heq => absurd heq hclose) ?_
    · rw [← tokens_emit s 1 hk]
      refine tokens_reframe (s.emit k 1) ?_
      rw [Reads.outerItems_cons, hitems]
      rfl
    · have hafter : levelsAfter ⟨k, ⟨s.cursor.offset, (s.cursor.skip 1).offset⟩⟩ (⟨o, own⟩ :: lvs) =
          ⟨p, []⟩ :: ⟨o, own ++ [⟨k, ⟨s.cursor.offset, (s.cursor.skip 1).offset⟩⟩]⟩ :: lvs := by
        simp [levelsAfter, hk, hstart, ho]
      rw [hlevels, hafter]
      show FitsAt source _ (g :: s.frames) _
      rw [hfs]
      exact .cons (hg _) (.cons (fun c => hopens _ c rfl rfl) hfits)
  · refine tracksFrom_put h (tokens_emit s _ rfl) (by simp) ?_
    rw [hlevels, levelsAfter_still rfl (by cases o <;> first | rfl | exact absurd rfl hkey)]
    show FitsAt source _ s.frames _
    rw [hfs]
    exact .cons (hline _ _ rfl rfl) hfits

theorem tracks_openPlaceable {f : Frame} {o : Open} (h : Closed source s.tokens) (hfs : s.frames = f :: fs)
    (hlevels : levelsBehind s.tokens = ⟨o, own⟩ :: lvs) (hfits : Fits source fs lvs) (ho : o.holdsPlaceable = true)
    (hopens : s.KeepsFitting source f o own .openBrace) (hline : s.KeepsFitting source f o own .unfinishedLine) :
    (s.openPlaceable limit).state.Tracks source := by
  refine tracks_open (k := .openBrace) (g := .placeable) (p := .placeable) h hfs hlevels hfits rfl (by simp) (by simp) ?_ ?_
    (fun c => Frame.fits_of_open (o := .placeable) rfl (by simp) c _) rfl hopens hline _
  · cases o <;> first | rfl | cases ho
  · rintro rfl
    cases ho

theorem tracks_openArguments {f : Frame} {o : Open} (h : Closed source s.tokens) (hfs : s.frames = f :: fs)
    (hlevels : levelsBehind s.tokens = ⟨o, own⟩ :: lvs) (hfits : Fits source fs lvs) (ho : o.holdsExpression = true)
    (hopens : s.KeepsFitting source f o own .openParen) (hline : s.KeepsFitting source f o own .unfinishedLine) :
    (s.openArguments limit).state.Tracks source := by
  refine tracks_open (k := .openParen) (g := .arguments true true) (p := .arguments) h hfs hlevels hfits rfl (by simp)
    (by simp) ?_ ?_ (fun c => ⟨rfl, ?_⟩) rfl hopens hline _
  · cases o <;> first | rfl | cases ho
  · rintro rfl
    cases ho
  · rintro positional atStart heq
    obtain ⟨rfl, rfl⟩ := Frame.arguments.inj heq
    exact ⟨by simp [startsArgument_nil], argues_nil source c⟩

/-! ## Steps -/

/-- A value begins outside of all constructs, or among variants. -/
theorem tracks_beginValue (h : s.TracksFrom source c) (hfs : s.frames = [] ∨ ∃ gs, s.frames = .variants :: gs) :
    s.beginValue.Tracks source := by
  have hmove : ∀ e : Cursor, ({ s with cursor := e } : State).Tracks source := by
    intro e
    refine h.move ?_ e
    rcases hfs with hfs | ⟨gs, hfs⟩ <;> simp [hfs]
  have hfits : Fits source s.frames (levelsBehind s.tokens) := by
    rcases hfs with hfs | ⟨gs, hfs⟩
    · have hnil := (hfs ▸ h.fits).eq_nil
      rw [hfs, hnil]
      exact .nil
    · obtain ⟨own, lvs, hlevels, hgs, -⟩ := (hfs ▸ h.fits).of_cons (o := .variants) rfl
      rw [hfs, hlevels]
      exact .cons (fun c => Frame.fits_of_open (o := .variants) rfl (by simp) c _) hgs
  have hopen : ∀ (e : Cursor) (indent : Option Nat), (State.openPattern { s with cursor := e } indent).Tracks source := by
    intro e indent
    refine tracksFrom_put (hmove e).closed (l := ⟨.patternStart, .at e.offset⟩) ?_ (by simp) ?_
    · rw [← tokens_mark { s with cursor := e } rfl]
      rfl
    · exact .cons (Frame.fits_of_open (f := .pattern _ _ _) rfl (by simp) _ []) hfits
  have hskip : ∀ e : Cursor, (State.mark { s with cursor := e } .patternSkip).toLineEnd.Tracks source := by
    intro e
    have htokens := tokens_mark { s with cursor := e } (k := .patternSkip) rfl
    rcases hfs with hfs | ⟨gs, hfs⟩
    · exact (hmove e).put_outside hfs htokens rfl (by simp) hfs
    · exact (hmove e).put_still hfs (o := .variants) rfl (by simp) htokens rfl rfl hfs
  have hvalue := s.valueBegins
  generalize s.beginValue = t at hvalue ⊢
  cases hvalue with
  | inline => exact hopen _ _
  | below => exact hopen _ _
  | missing => exact hskip _

theorem tracks_emit_outside (h : s.TracksFrom source c) (hfs : s.frames = []) (hk : k.isText = false)
    (hstart : k ≠ .patternStart) (n : Nat) : (s.emit k n).Tracks source :=
  h.put_outside hfs (tokens_emit s n hk) hk hstart hfs

theorem tracks_emitAssignment (h : s.TracksFrom source c) (hfs : s.frames = []) (a : Line.Assignment) :
    (s.emitAssignment a).Tracks source := by
  have hname := tracks_emit_outside (k := .identifier (String.ofList a.name)) h hfs rfl (by simp) a.name.length
  have hspaces := hname.move (d := s.cursor) (by simp [hfs])
    ((s.emit (.identifier (String.ofList a.name)) a.name.length).cursor.skip a.spaces)
  exact tracks_emit_outside (k := .equals) hspaces hfs rfl (by simp) 1

/-- Between attributes no construct is open, so the header of the next one is read outside all levels. -/
theorem tracks_betweenAttributes (h : s.TracksFrom source c) (hfs : s.frames = []) :
    s.betweenAttributes.state.Tracks source := by
  have hfinish : s.finishLine.Tracks source := by
    unfold finishLine
    split
    · exact h.move (by simp [hfs]) _
    · exact tracks_emit_outside (k := .unfinishedLine) h hfs rfl (by simp) _
  have hframes : s.finishLine.frames = [] := by rw [frames_finishLine, hfs]
  have hfollows := s.attributeFollows
  generalize s.finishLine = t, s.betweenAttributes = step at hfinish hframes hfollows ⊢
  have hcontent : ∀ l, State.Tracks source { t with cursor := t.cursor.toContent l } :=
    fun l => hfinish.move (by simp [hframes]) _
  cases hfollows with
  | @header l a =>
    have hdot := tracks_emit_outside (k := .dot) (hcontent l) hframes rfl (by simp) 1
    exact tracks_beginValue (tracks_emitAssignment hdot hframes a) (.inl hframes)
  | unfinished => exact tracks_emit_outside (k := .unfinishedLine) (hcontent _) hframes rfl (by simp) _
  | stop => exact hfinish

/-- In a pattern a brace opens a level, and the end of the pattern closes the level of the value. Text belongs to no
argument list. -/
theorem tracks_readText {outer : List PatternItem} {breaks : Nat} {indent : Option Nat} (h : s.TracksFrom source c)
    (hfs : s.frames = .pattern outer breaks indent :: fs) :
    (s.readText limit outer breaks indent fs).state.Tracks source := by
  obtain ⟨own, lvs, hlevels, hfits, -⟩ := (hfs ▸ h.fits).of_cons (o := .value) rfl
  have houter : Reads.outerItems s.frames = outer ++ Reads.outerItems fs := by
    rw [hfs]
    rfl
  -- a run is no token
  have hsame : ∀ (e : Cursor) (r : TextRun) (breaks' : Nat) (indent' : Option Nat),
      State.tokens ⟨e, .run r :: s.items, .pattern outer breaks' indent' :: fs⟩ = s.tokens := by
    intro e r breaks' indent'
    rw [tokens, tokens, held, held, houter]
    rfl
  have hrun : ∀ (e : Cursor) (r : TextRun) (breaks' : Nat) (indent' : Option Nat),
      State.Tracks source ⟨e, .run r :: s.items, .pattern outer breaks' indent' :: fs⟩ := by
    intro e r breaks' indent'
    refine h.of_eq (hsame e r breaks' indent') ?_
    rw [hlevels]
    exact .cons (Frame.fits_of_open (o := .value) rfl (by simp) _ _) hfits
  have hclosed : ∀ (e : Cursor) (r : TextRun),
      (State.closePattern { s with cursor := e } r outer fs).Tracks source := by
    intro e r
    refine tracksFrom_put h.closed (l := ⟨.patternEnd, .at e.offset⟩) ?_ (by simp) ?_
    · have hinner : State.tokens ⟨e, (dedent (.run r.trimEnd :: s.items)).map .lexeme ++ outer, fs⟩ = s.tokens := by
        simp only [tokens, held, houter, List.filterMap_append, tokens_dedent, List.append_assoc]
        rfl
      rw [← hinner]
      exact tokens_mark _ rfl
    · rw [hlevels]
      exact hfits.at _
  have hread := s.textReads limit outer breaks indent fs
  generalize s.readText limit outer breaks indent fs = step at hread ⊢
  cases hread with
  | placeable =>
    exact tracks_openPlaceable (hrun _ _ 0 none).closed rfl ((congrArg levelsBehind (hsame _ _ 0 none)).trans hlevels)
      hfits rfl (keepsFitting_of_open (o := .value) rfl (by simp) _ _ _)
      (keepsFitting_of_open (o := .value) rfl (by simp) _ _ _)
  | below => exact hrun _ _ _ _
  | last => exact hclosed _ _

section Readers

variable {x : Char} {rest : List Char}

/-- An expression token that leaves a construct other than arguments as it is. -/
theorem tracks_emitScanned {f : Frame} {o : Open} (h : s.TracksFrom source c) (hfs : s.frames = f :: fs)
    (hf : f.open? = some o) (ho : o ≠ .arguments) (hrest : s.cursor.rest = x :: rest)
    (hst : stackAfter (Token.scan x rest).1 [o] = [o]) : s.emitScanned.state.Tracks source := by
  have htext := (Token.isText_scan x rest).1
  unfold emitScanned
  rw [hrest]
  exact h.put_still hfs hf ho (tokens_emit s _ htext) htext hst hfs

/-- A token closes a construct that is not arguments. -/
theorem TracksFrom.put_close {f : Frame} {o : Open} (h : s.TracksFrom source c) (hfs : s.frames = f :: fs)
    (hf : f.open? = some o) (ho : o ≠ .arguments) (hk : k.isText = false) (hstart : k ≠ .patternStart)
    (hclose : o.after k = []) (hitems : Reads.outerItems fs = Reads.outerItems s.frames) (n : Nat) :
    State.Tracks source { s.emit k n with frames := fs } := by
  obtain ⟨own, lvs, hlevels, hfits, -⟩ := (hfs ▸ h.fits).of_cons hf
  refine tracksFrom_put h.closed (l := ⟨k, ⟨s.cursor.offset, (s.cursor.skip n).offset⟩⟩) ?_ ?_ ?_
  · rw [← tokens_emit s n hk]
    exact tokens_reframe (s.emit k n) hitems
  · rw [hlevels]
    rintro - own' lvs' heq
    exact ho (congrArg Level.construct (List.cons.inj heq).1)
  · have hafter : levelsAfter ⟨k, ⟨s.cursor.offset, (s.cursor.skip n).offset⟩⟩ (⟨o, own⟩ :: lvs) = lvs := by
      simp [levelsAfter, hk, hstart, hclose]
    rw [hlevels, hafter]
    exact hfits.at _

/-- In a placeable an argument list may be opened, and a brace closes the level that the frame on top stands for. -/
theorem tracks_readPlaceable (h : s.TracksFrom source c) (hfs : s.frames = .placeable :: fs)
    (hrest : s.cursor.rest = x :: rest) : (s.readPlaceable limit fs).state.Tracks source := by
  obtain ⟨own, lvs, hlevels, hfits, -⟩ := (hfs ▸ h.fits).of_cons (o := .placeable) rfl
  have hitems := Reads.outerItems_of_frames hfs rfl
  have hkeeps : ∀ k : Token, s.KeepsFitting source .placeable .placeable own k :=
    fun k => keepsFitting_of_open (o := .placeable) rfl (by simp) s own k
  have hreads := s.placeableReads limit fs
  generalize s.readPlaceable limit fs = r at hreads
  cases hreads with
  | close => exact h.put_close (k := .closeBrace) hfs (o := .placeable) rfl (by simp) rfl (by simp) rfl hitems 1
  | placeable => exact tracks_openPlaceable h.closed hfs hlevels hfits rfl (hkeeps _) (hkeeps _)
  | arguments => exact tracks_openArguments h.closed hfs hlevels hfits rfl (hkeeps _) (hkeeps _)
  | arrow =>
    refine tracksFrom_put h.closed (l := ⟨.arrow, ⟨s.cursor.offset, (s.cursor.skip 2).offset⟩⟩) ?_ (by simp) ?_
    · rw [← tokens_emit s 2 rfl]
      exact tokens_reframe (s.emit .arrow 2) hitems
    · rw [hlevels]
      exact .cons (Frame.fits_of_open (o := .variants) rfl (by simp) _ _) hfits
  | token hbrackets harrow =>
    rw [hrest] at hbrackets harrow
    exact tracks_emitScanned h hfs (o := .placeable) rfl (by simp) hrest
      (stackAfter_scan [] (hbrackets x rfl) (fun _ => harrow) (by simp))

theorem tracks_readVariants (h : s.TracksFrom source c) (hfs : s.frames = .variants :: fs)
    (hrest : s.cursor.rest = x :: rest) : (s.readVariants fs).state.Tracks source := by
  obtain ⟨own, lvs, hlevels, hfits, -⟩ := (hfs ▸ h.fits).of_cons (o := .variants) rfl
  have hitems := Reads.outerItems_of_frames hfs rfl
  have hreads := s.variantsReads fs
  generalize s.readVariants fs = r at hreads
  cases hreads with
  | close => exact h.put_close (k := .closeBrace) hfs (o := .variants) rfl (by simp) rfl (by simp) rfl hitems 1
  | key =>
    refine tracksFrom_put h.closed (l := ⟨.openBracket, ⟨s.cursor.offset, (s.cursor.skip 1).offset⟩⟩) ?_ (by simp) ?_
    · rw [← tokens_emit s 1 rfl]
      exact tokens_reframe (s.emit .openBracket 1) rfl
    · rw [hlevels]
      show FitsAt source _ (.key false :: s.frames) _
      rw [hfs]
      exact .cons (Frame.fits_of_open (o := .key) rfl (by simp) _ _)
        (.cons (fun c => Frame.fits_of_open (o := .variants) rfl (by simp) c _) hfits)
  | token hbrackets =>
    rw [hrest] at hbrackets
    exact tracks_emitScanned h hfs (o := .variants) rfl (by simp) hrest
      (stackAfter_scan [] (hbrackets x rfl) (by simp) (by simp))

/-- Behind the brackets of a key the value of the variant begins, on a level of its own. -/
theorem tracks_readKey {read : Bool} (h : s.TracksFrom source c) (hfs : s.frames = .key read :: fs)
    (hkeys : KeysInVariants s.frames) (hrest : s.cursor.rest = x :: rest) :
    (s.readKey read fs).state.Tracks source := by
  rw [hfs] at hkeys
  obtain ⟨gs, rfl⟩ := List.head?_eq_some_iff.1 hkeys.1
  have hitems := Reads.outerItems_of_frames hfs rfl
  have hvariants : ∀ (own : List Lexeme) (lvs : List Level), Fits source gs lvs →
      ∀ e, FitsAt source e (.variants :: gs) (⟨.variants, own⟩ :: lvs) :=
    fun own lvs hgs e => .cons (Frame.fits_of_open (o := .variants) rfl (by simp) e _) hgs
  have hreads := s.keyReads read (.variants :: gs)
  generalize s.readKey read (.variants :: gs) = r at hreads
  cases read with
  | false =>
    cases hreads with
    | close =>
      have hpop : State.Tracks source { s.emit .closeBracket 1 with frames := .variants :: gs } :=
        h.put_close hfs (o := .key) rfl (by simp) rfl (by simp) rfl hitems 1
      exact tracks_beginValue hpop (.inr ⟨gs, rfl⟩)
    | token =>
      -- the key takes the place of what was open for it
      obtain ⟨own, lvs, hlevels, hfits, -⟩ := (hfs ▸ h.fits).of_cons (o := .key) rfl
      have htext := (Token.isText_scan x rest).1
      have hstart := (Token.sign?_scan x rest default).2.1
      simp only [emitScanned, hrest]
      refine tracksFrom_put h.closed (l := ⟨(Token.scan x rest).1, ⟨s.cursor.offset,
        (s.cursor.skip ((Token.scan x rest).2.length + 1)).offset⟩⟩) ?_ ?_ ?_
      · rw [← tokens_emit s _ htext]
        exact tokens_reframe (s.emit (Token.scan x rest).1 _) hitems
      · rw [hlevels]
        exact fun _ _ _ => (by simp)
      · have hafter : levelsAfter ⟨(Token.scan x rest).1, ⟨s.cursor.offset,
            (s.cursor.skip ((Token.scan x rest).2.length + 1)).offset⟩⟩ (⟨.key, own⟩ :: lvs) = lvs := by
          simp [levelsAfter, htext, hstart, Open.after]
        rw [hlevels, hafter]
        exact .key hfits
  | true =>
    have hinner : ∃ own lvs, levelsBehind s.tokens = ⟨.variants, own⟩ :: lvs ∧ Fits source gs lvs := by
      have hfits := hfs ▸ h.fits
      generalize levelsBehind s.tokens = all at hfits
      cases hfits with
      | key hfits =>
        obtain ⟨own, lvs, hlevels, hgs, -⟩ := (hfits.at c).of_cons (o := .variants) rfl
        exact ⟨own, lvs, hlevels, hgs⟩
      | cons hf _ => cases hf.1
    obtain ⟨own, lvs, hlevels, hgs⟩ := hinner
    cases hreads with
    | close =>
      refine tracks_beginValue (tracksFrom_put h.closed (d := s.cursor)
        (l := ⟨.closeBracket, ⟨s.cursor.offset, (s.cursor.skip 1).offset⟩⟩)
        (t := { s.emit .closeBracket 1 with frames := .variants :: gs }) ?_ (by simp) ?_) (.inr ⟨gs, rfl⟩)
      · rw [← tokens_emit s 1 rfl]
        exact tokens_reframe (s.emit .closeBracket 1) hitems
      · rw [hlevels]
        exact hvariants _ _ hgs _
    | unclosed =>
      refine h.of_eq (tokens_reframe s hitems) ?_
      rw [hlevels]
      exact hvariants _ _ hgs _

section

variable {positional atStart : Bool} {gap : List Char}

/-- The marker among the own tokens of some arguments. -/
theorem levelsBehind_mark (hlevels : levelsBehind s.tokens = ⟨.arguments, own⟩ :: lvs) :
    levelsBehind (s.mark .endPositional).tokens =
      ⟨.arguments, own ++ [⟨.endPositional, .at s.cursor.offset⟩]⟩ :: lvs := by
  rw [tokens_mark s rfl, levelsBehind_concat, hlevels]
  rfl

theorem closed_mark (h : Closed source s.tokens) : Closed source (s.mark .endPositional).tokens := by
  rw [tokens_mark s rfl]
  exact h.snoc (by simp)

/-- The arguments are split where their parenthesis closes. -/
theorem tracks_closeArguments (h : Closed source s.tokens) (hlevels : levelsBehind s.tokens = ⟨.arguments, own⟩ :: lvs)
    (hfits : Fits source fs lvs) (hitems : Reads.outerItems fs = Reads.outerItems s.frames)
    (hsplit : SplitArguments (Untabbed source) own) :
    State.Tracks source { s.emit .closeParen 1 with frames := fs } := by
  have htokens : State.tokens { s.emit .closeParen 1 with frames := fs } =
      s.tokens ++ [⟨.closeParen, ⟨s.cursor.offset, (s.cursor.skip 1).offset⟩⟩] := by
    rw [← tokens_emit s 1 rfl]
    exact tokens_reframe (s.emit .closeParen 1) hitems
  refine ⟨?_, ?_⟩
  · rw [htokens, levelsBehind_concat, hlevels]
    exact hfits.at _
  · rw [htokens]
    refine h.snoc fun _ own' lvs' heq => ?_
    rw [hlevels] at heq
    obtain rfl : own = own' := congrArg Level.own (List.cons.inj heq).1
    exact hsplit

/-- A token of some arguments is read that opens nothing. -/
theorem tracks_emitArgument (h : Closed source s.tokens) (hlevels : levelsBehind s.tokens = ⟨.arguments, own⟩ :: lvs)
    (hfits : Fits source fs lvs) (hitems : Reads.outerItems fs = Reads.outerItems s.frames)
    (hbracket : x ∉ Open.arguments.brackets) (n : Nat) (p : Bool)
    (hargues : Argues source (s.cursor.skip n) p
      (own ++ [⟨(Token.scan x rest).1, ⟨s.cursor.offset, (s.cursor.skip n).offset⟩⟩])) :
    State.Tracks source { s.emit (Token.scan x rest).1 n with
      frames := .arguments p ((Token.scan x rest).1 == .comma) :: fs } := by
  have htext := (Token.isText_scan x rest).1
  refine tracksFrom_put h (l := ⟨(Token.scan x rest).1, ⟨s.cursor.offset, (s.cursor.skip n).offset⟩⟩) ?_ ?_ ?_
  · rw [← tokens_emit s n htext]
    exact tokens_reframe (s.emit (Token.scan x rest).1 n) hitems
  · intro hclose
    have hparen : x = ')' := Token.eq_of_scan (congrArg Token.bracket? hclose)
    exact absurd (by simp [hparen, Open.brackets]) hbracket
  · rw [hlevels, levelsAfter_still htext (stackAfter_scan [] hbracket (by simp) (by simp))]
    refine .cons ⟨rfl, ?_⟩ hfits
    intro positional' atStart' heq
    obtain ⟨rfl, rfl⟩ := Frame.arguments.inj heq
    exact ⟨by simp [startsArgument_concat], hargues⟩

/-- Inside of arguments a token is read behind the layout that follows the token before it. -/
theorem tracks_readArguments (h : s.TracksFrom source c)
    (hfs : s.frames = .arguments positional atStart :: fs) (hc : fromOffset? c.offset source = some c.rest)
    (hover : c.Over gap s.cursor) (hgap : ∀ y ∈ gap, isLayout y = true) (hrest : s.cursor.rest = x :: rest)
    (hx : isLayout x = false) : (s.readArguments limit positional atStart fs).state.Tracks source := by
  obtain ⟨own, lvs, hlevels, hfits, -, hargs⟩ := (hfs ▸ h.fits).of_cons (o := .arguments) rfl
  obtain ⟨hstart, hargues⟩ := hargs positional atStart rfl
  have hitems := Reads.outerItems_of_frames hfs rfl
  -- what opens a construct inside is neither a name nor a colon
  have hkeeps : ∀ k : Token, k ≠ .endPositional → k ≠ .comma → k.isIdentifier = false → k ≠ .colon → x ≠ ':' →
      KeepsFitting source { s with frames := .arguments positional false :: fs } (.arguments positional false)
        .arguments own k := by
    rintro k hmarker hcomma hname hcolon hne l e rfl hspan
    refine ⟨rfl, ?_⟩
    intro positional' atStart' heq
    obtain ⟨rfl, rfl⟩ := Frame.arguments.inj heq
    refine ⟨?_, hargues.snoc hc hover hgap hrest hx hmarker hspan ?_ ?_⟩
    · simp [startsArgument_concat, hcomma]
    · exact ⟨fun h => absurd h hcolon, fun h => absurd h hne⟩
    · intro _ _ hl
      rw [hname] at hl
      cases hl
  have hreframe : State.tokens { s with frames := .arguments positional false :: fs } = s.tokens :=
    tokens_reframe s hitems
  have hreads := s.argumentsReads limit positional atStart fs
  generalize s.readArguments limit positional atStart fs = r at hreads
  cases hreads with
  | nothing hnil =>
    rw [hnil] at hrest
    cases hrest
  | close hparen =>
    obtain ⟨rfl, rfl⟩ := List.cons.inj (hrest.symm.trans hparen)
    cases positional with
    | true =>
      exact tracks_closeArguments (closed_mark h.closed) (levelsBehind_mark hlevels) hfits hitems
        (Unnamed.split hargues _)
    | false =>
      obtain ⟨as, marker, name, bs, rfl, hnamed⟩ := hargues
      exact tracks_closeArguments h.closed hlevels hfits hitems (hnamed.split hover hgap hrest hx (by simp) marker)
  | placeable hbrace =>
    obtain ⟨rfl, rfl⟩ := List.cons.inj (hrest.symm.trans hbrace)
    exact tracks_openPlaceable (hreframe.symm ▸ h.closed) rfl ((congrArg levelsBehind hreframe).trans hlevels) hfits rfl
      (hkeeps _ (by simp) (by simp) rfl (by simp) (by simp)) (hkeeps _ (by simp) (by simp) rfl (by simp) (by simp))
  | arguments hparen =>
    obtain ⟨rfl, rfl⟩ := List.cons.inj (hrest.symm.trans hparen)
    exact tracks_openArguments (hreframe.symm ▸ h.closed) rfl ((congrArg levelsBehind hreframe).trans hlevels) hfits rfl
      (hkeeps _ (by simp) (by simp) rfl (by simp) (by simp)) (hkeeps _ (by simp) (by simp) rfl (by simp) (by simp))
  | @token y ys named hcons hbracket hnamed =>
    obtain ⟨rfl, rfl⟩ := List.cons.inj (hrest.symm.trans hcons)
    -- behind a name the text goes on where the name can go no further
    have hname : (Token.scan x rest).1.isIdentifier = true → isIdentifierStart x = true ∧
        (s.cursor.skip ((Token.scan x rest).2.length + 1)).rest = rest.dropWhile isIdentifierChar := by
      intro hidentifier
      have hletter := isIdentifierStart_of_scan hidentifier
      refine ⟨hletter, ?_⟩
      rw [Token.scan_of_isIdentifierStart rest hletter]
      show s.cursor.rest.drop _ = _
      rw [hrest, List.drop_succ_cons, drop_length_takeWhile]
    cases named with
    | true =>
      obtain ⟨⟨⟨rfl, rfl⟩, hletter⟩, hahead⟩ : ((positional = true ∧ atStart = true) ∧ isIdentifierStart x = true) ∧
          namedArgumentAhead (x :: rest) = true := by simpa using hnamed.symm
      have hidentifier : (Token.scan x rest).1.isIdentifier = true := by
        rw [Token.scan_of_isIdentifierStart rest hletter]
        rfl
      refine tracks_emitArgument (closed_mark h.closed) (levelsBehind_mark hlevels) hfits hitems hbracket _ false
        ⟨own, _, _, [], by rw [List.append_assoc]; rfl, ?_⟩
      refine Unnamed.mark hargues (hstart.1 rfl) hidentifier rfl ?_
      have hskip := (hname hidentifier).2
      show ColonAhead (s.cursor.skip _).rest
      rw [hskip]
      exact (namedArgumentAhead_iff hletter).1 hahead
    | false =>
      simp only [Bool.not_false, Bool.and_true, Bool.false_eq_true, if_false]
      refine tracks_emitArgument h.closed hlevels hfits hitems hbracket _ positional ?_
      refine hargues.snoc hc hover hgap hrest hx ?_ rfl (colon_scan_iff x rest) ?_
      · intro hmarker
        have hno := Token.isMarker_scan (c := x) rest (by rintro rfl; cases hx)
        rw [show (Token.scan x rest).1 = .endPositional from hmarker] at hno
        cases hno
      · rintro rfl hargument hidentifier
        obtain ⟨hletter, hskip⟩ := hname hidentifier
        refine ⟨rfl, ?_⟩
        rw [hskip, ← namedArgumentAhead_iff hletter]
        simpa [hstart.2 hargument, hletter] using hnamed.symm

end

end Readers

/-- Layout in front of the next token leaves the levels as they are. What is read at the content may take into account
which layout was passed, which is where a tab matters. -/
theorem tracks_onContent (h : s.Tracks source) {read : State → Step}
    (hread : ∀ (d : Cursor) (x : Char) (rest gap : List Char), s.cursor.Over gap d → (∀ y ∈ gap, isLayout y = true) →
      d.rest = x :: rest → isLayout x = false → (read { s with cursor := d }).state.Tracks source) :
    (s.onContent read).state.Tracks source := by
  unfold onContent
  split
  · exact h
  · rename_i d hd
    obtain ⟨gap, x, rest, hgap, hover, hrest, hx, -⟩ := Cursor.over_skipBlank hd
    exact hread d x rest gap hover hgap hrest hx

/-- **A step** leaves the arguments that it closes split. Here each kind of step is held against the level that the
frame on top stands for. -/
theorem tracks_step (h : s.Tracks source) (hkeys : KeysInVariants s.frames)
    (hcursor : fromOffset? s.cursor.offset source = some s.cursor.rest) (limit : Nat) :
    (s.step limit).state.Tracks source := by
  have hmove : ∀ e : Cursor, State.TracksFrom source s.cursor { s with cursor := e } := fun _ => ⟨h.fits, h.closed⟩
  have hreads := s.stepReads limit
  generalize s.step limit = r at hreads
  cases hreads with
  | outside hfs => exact tracks_betweenAttributes h hfs
  | pattern hfs => exact tracks_readText h hfs
  | placeable hfs => exact tracks_onContent h fun d x rest gap _ _ hrest _ => tracks_readPlaceable (hmove d) hfs hrest
  | arguments hfs =>
    exact tracks_onContent h fun d x rest gap hover hgap hrest hx =>
      tracks_readArguments (hmove d) hfs hcursor hover hgap hrest hx
  | variants hfs => exact tracks_onContent h fun d x rest gap _ _ hrest _ => tracks_readVariants (hmove d) hfs hrest
  | key hfs => exact tracks_onContent h fun d x rest gap _ _ hrest _ => tracks_readKey (hmove d) hfs hkeys hrest

/-- **A run** leaves the arguments that it closes split, since each of its steps does, and keeps the levels of the
constructs that are still open. -/
theorem tracks_run {pre t : List Char} (hc : (Cursor.ofChars source).Over pre c) (h : s.Tracks source)
    (hsound : s.Sound c t) (limit : Nat) : (s.run limit).2.Tracks source :=
  run_of_step hc (fun _ _ hsound hcursor h => tracks_step h hsound.keys hcursor limit) hsound h

theorem tracks_ofHeader (c : Cursor) (isTerm : Bool) (a : Line.Assignment) :
    (ofHeader c isTerm a).Tracks source := by
  have hstart : State.Tracks source ⟨c, [], []⟩ := by
    refine ⟨.nil, ?_⟩
    intro pre l post heq
    simp [tokens, held, Reads.outerItems] at heq
  cases isTerm with
  | true =>
    have hminus := tracks_emit_outside (k := .minus) hstart rfl rfl (by simp) 1
    exact tracks_beginValue (tracks_emitAssignment hminus rfl a) (.inl rfl)
  | false => exact tracks_beginValue (tracks_emitAssignment hstart rfl a) (.inl rfl)

end State

/-- **Every argument list that is closed is split.** In front of any closing parenthesis of an entry, at any depth, the
tokens of its list, those of inner constructs apart, have a single marker: right before the first named argument, or at
the end if there is none. An argument is named if it is a name with a colon behind it, and no tab between the two. -/
theorem splitArguments_of_closed (limit : Nat) (source : List Char) {isTerm : Bool} {name : String} {start : Nat}
    {ls : List Lexeme} {ending : Ending} (hb : .entry isTerm name start ls ending ∈ blocks limit source)
    {pre post : List Lexeme} {span : Span} (hls : ls = pre ++ ⟨.closeParen, span⟩ :: post) {own : List Lexeme}
    {lvs : List Level} (hlevels : levelsBehind pre = ⟨.arguments, own⟩ :: lvs) :
    SplitArguments (Untabbed source) own := by
  obtain ⟨c, ⟨before, hc, -⟩, hblock⟩ := exists_block_of_mem (Cursor.atBreak_ofChars source) hb
  obtain ⟨hblank, hlevel, a, ha, -⟩ := header_of_block hblock
  rw [block_of_header hblank hlevel ha] at hblock
  injection hblock with _ _ _ hlexemes _
  obtain ⟨t, hsound⟩ := State.sound_ofHeader ha
  have htracks := State.tracks_run hc (State.tracks_ofHeader c isTerm a) hsound limit
  have htokens := State.tokens_lexemes ((State.ofHeader c isTerm a).run limit).2
  rw [hlexemes, hls, List.filter_append, List.filter_cons_of_pos rfl] at htokens
  exact htracks.closed _ _ _ htokens.symm rfl own lvs (by rw [levelsBehind_filter, hlevels])

/-- The tokens of the entries of a source. -/
def entryLexemes (limit : Nat) (source : List Char) : List (List Lexeme) :=
  (blocks limit source).filterMap fun
    | .entry _ _ _ ls _ => some ls
    | _ => none

theorem exists_of_mem_entryLexemes {limit : Nat} (h : ls ∈ entryLexemes limit source) :
    ∃ isTerm name start ending, Block.entry isTerm name start ls ending ∈ blocks limit source := by
  obtain ⟨b, hb, hls⟩ := List.mem_filterMap.1 h
  cases b with
  | entry isTerm name start ls' ending =>
    obtain rfl := Option.some.inj hls
    exact ⟨isTerm, name, start, ending, hb⟩
  | _ => cases hls

/-- The marker stands before the name in front of a colon. -/
theorem splitArguments_named :
    ∃ ls ∈ entryLexemes 100 "m={F(a:1)}".toList, ∃ pre post span own lvs,
      ls = pre ++ ⟨.closeParen, span⟩ :: post ∧ levelsBehind pre = ⟨.arguments, own⟩ :: lvs ∧
        own.map (·.token) = [.endPositional, .identifier "a", .colon, .number "1"] ∧
          SplitArguments (Untabbed "m={F(a:1)}".toList) own := by
  have hls : entryLexemes 100 "m={F(a:1)}".toList = [[⟨.identifier "m", ⟨0, 1⟩⟩, ⟨.equals, ⟨1, 2⟩⟩,
      ⟨.patternStart, ⟨2, 2⟩⟩, ⟨.openBrace, ⟨2, 3⟩⟩, ⟨.identifier "F", ⟨3, 4⟩⟩, ⟨.openParen, ⟨4, 5⟩⟩,
      ⟨.endPositional, ⟨5, 5⟩⟩, ⟨.identifier "a", ⟨5, 6⟩⟩, ⟨.colon, ⟨6, 7⟩⟩, ⟨.number "1", ⟨7, 8⟩⟩,
      ⟨.closeParen, ⟨8, 9⟩⟩, ⟨.closeBrace, ⟨9, 10⟩⟩, ⟨.patternEnd, ⟨10, 10⟩⟩]] := by
    decide +kernel
  have hmem := hls ▸ List.mem_singleton_self _
  obtain ⟨isTerm, name, start, ending, hb⟩ := exists_of_mem_entryLexemes hmem
  refine ⟨_, hmem, [_, _, _, _, _, _, _, _, _, _], _, _, _, _, rfl, rfl, rfl, ?_⟩
  exact splitArguments_of_closed 100 _ hb (rfl : _ = [_, _, _, _, _, _, _, _, _, _] ++ _) rfl

/-- Behind a tab the colon is not seen, and the marker stands after the argument that it names. -/
theorem exists_tabbed :
    ∃ ls ∈ entryLexemes 100 "m=\x7bF(a\t:1)\x7d".toList, ∃ pre post span own lvs,
      ls = pre ++ ⟨.closeParen, span⟩ :: post ∧ levelsBehind pre = ⟨.arguments, own⟩ :: lvs ∧
        ¬ SplitArguments (fun _ _ => True) own := by
  have hls : entryLexemes 100 "m=\x7bF(a\t:1)\x7d".toList = [[⟨.identifier "m", ⟨0, 1⟩⟩, ⟨.equals, ⟨1, 2⟩⟩,
      ⟨.patternStart, ⟨2, 2⟩⟩, ⟨.openBrace, ⟨2, 3⟩⟩, ⟨.identifier "F", ⟨3, 4⟩⟩, ⟨.openParen, ⟨4, 5⟩⟩,
      ⟨.identifier "a", ⟨5, 6⟩⟩, ⟨.colon, ⟨7, 8⟩⟩, ⟨.number "1", ⟨8, 9⟩⟩, ⟨.endPositional, ⟨9, 9⟩⟩,
      ⟨.closeParen, ⟨9, 10⟩⟩, ⟨.closeBrace, ⟨10, 11⟩⟩, ⟨.patternEnd, ⟨11, 11⟩⟩]] := by
    decide +kernel
  refine ⟨_, hls ▸ List.mem_singleton_self _, [_, _, _, _, _, _, _, _, _, _], _, _, _, _, rfl, rfl, ?_⟩
  rintro ⟨as, marker, bs, heq, -, -, hnone⟩
  -- the marker is not among the first two tokens, and those begin a named argument
  match as, heq with
  | [], heq => cases heq
  | [_], heq => cases heq
  | a :: b :: as, heq =>
    obtain ⟨rfl, htail⟩ := List.cons.inj heq
    obtain ⟨rfl, -⟩ := List.cons.inj htail
    exact hnone [] _ rfl (Nat.succ_pos _) startsArgument_nil ⟨rfl, rfl, trivial⟩

end Fluent
