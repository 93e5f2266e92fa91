import Fluent.Proofs.Legible
import Fluent.Proofs.Spelled
import Fluent.Tree.Display

/-!
# What is displayed is read

An expression without select expressions is displayed on one line. The machine reads that text as tokens that spell the
expression, in a placeable as well as among the arguments of a call.

* `State.Reaches`: some steps of the machine.
* `step_argument`, `step_scanned`: the step at a token that opens and closes nothing.
* `Expression.Readable`: the displayed text of an expression is read as tokens that spell it.
* `Expression.readable`: legible expressions are readable.
-/

namespace Fluent

/-! ## Stretches of text -/

namespace Cursor

variable {c d e : Cursor} {xs ys gap : List Char}

/-- A run of characters ends where something else stands. -/
theorem Over.skipWhile {p : Char → Bool} (h : c.Over xs d) (hxs : ∀ x ∈ xs, p x = true)
    (hend : ∀ x ∈ d.rest.head?, p x = false) : c.skipWhile p = d ∧ c.rest.takeWhile p = xs := by
  have htake : c.rest.takeWhile p = xs := by
    rw [h.rest, takeWhile_append_of_head hend, List.takeWhile_eq_self_iff.2 hxs]
  have hskip := over_skipWhile p c
  rw [htake] at hskip
  exact ⟨hskip.eq h, htake⟩

/-- An expression goes on where blanks end. -/
theorem Over.skipBlank? {x : Char} {rest : List Char} (h : c.Over gap d)
    (hgap : ∀ y ∈ gap, Line.isBlankChar y = true) (hrest : d.rest = x :: rest) (hx : isLayout x = false) :
    c.skipBlank? = some d := by
  simp only [isLayout, Bool.or_eq_false_iff, beq_eq_false_iff_ne] at hx
  have hend : ∀ y ∈ d.rest.head?, Line.isBlankChar y = false := by
    rw [hrest]
    rintro y ⟨⟩
    exact hx.1
  obtain ⟨rfl, -⟩ := h.skipWhile hgap hend
  exact skipBlank?_of_cons hrest hx.2

end Cursor

/-! ## Steps -/

namespace State

/-- Some steps lead from one state to another. What a displayed text leads over is put together from its parts, and a
run is known once a state is reached in which it stops. -/
inductive Reaches (limit : Nat) : State → State → Prop
  | refl (s : State) : Reaches limit s s
  | head {s t u : State} : s.step limit = .next t → Reaches limit t u → Reaches limit s u

variable {limit : Nat} {s t u : State}

theorem Reaches.single (h : s.step limit = .next t) : s.Reaches limit t := .head h (.refl t)

/-- Stretches of steps can be put together. Each part of a displayed text gives one of them. -/
theorem Reaches.trans (h : s.Reaches limit t) (h' : t.Reaches limit u) : s.Reaches limit u := by
  induction h with
  | refl => exact h'
  | head hstep _ ih => exact .head hstep (ih h')

/-- A run goes on from what it reaches. -/
theorem Reaches.run_eq (h : s.Reaches limit t) : s.run limit = t.run limit := by
  induction h with
  | refl => rfl
  | head hstep _ ih => rw [run_of_next hstep, ih]

end State

/-- An open construct whose tokens are those of expressions. -/
def Frame.holdsExpression : Frame → Bool
  | placeable | arguments .. => true
  | _ => false

/-- A construct behind a token other than a comma. -/
def Frame.within : Frame → Frame
  | arguments positional _ => arguments positional false
  | f => f

/-- What stands behind a displayed expression. In a placeable this is the space in front of the brace, and in an
argument list a comma or the parenthesis. -/
def Frame.EndsExpression : Frame → Char → Prop
  | placeable, x => x = ' '
  | arguments .., x => x = ',' ∨ x = ')'
  | _, _ => False

/-- What stands behind a name in a displayed expression. -/
def Frame.EndsName (f : Frame) (x : Char) : Prop := x = '.' ∨ x = '(' ∨ f.EndsExpression x

/-- The items behind some tokens. -/
def written (items : List PatternItem) (ls : List Lexeme) : List PatternItem :=
  ls.foldl (fun items l => .lexeme l :: items) items

theorem written_cons (items : List PatternItem) (l : Lexeme) (ls : List Lexeme) :
    written items (l :: ls) = written (.lexeme l :: items) ls := rfl

theorem written_append (items : List PatternItem) (ls ms : List Lexeme) :
    written items (ls ++ ms) = written (written items ls) ms := List.foldl_append

/-- Tokens that are written on a stack of items lie on top of them, the last one first. -/
theorem written_eq (items : List PatternItem) (ls : List Lexeme) :
    written items ls = (ls.map .lexeme).reverse ++ items := by
  induction ls generalizing items with
  | nil => rfl
  | cons l ls ih =>
    rw [written, List.foldl_cons, ← written, ih, List.map_cons, List.reverse_cons, List.append_assoc]
    rfl

@[simp] theorem Frame.within_within (f : Frame) : f.within.within = f.within := by cases f <;> rfl

@[simp] theorem Frame.holdsExpression_within (f : Frame) : f.within.holdsExpression = f.holdsExpression := by
  cases f <;> rfl

@[simp] theorem Frame.nests_within (f : Frame) : f.within.nests = f.nests := by cases f <;> rfl

theorem Frame.countP_within (f : Frame) (fs : List Frame) :
    (f.within :: fs).countP Frame.nests = (f :: fs).countP Frame.nests := by
  simp [List.countP_cons]

@[simp] theorem Frame.endsExpression_within (f : Frame) (x : Char) :
    f.within.EndsExpression x = f.EndsExpression x := by
  cases f <;> rfl

@[simp] theorem Frame.endsName_within (f : Frame) (x : Char) : f.within.EndsName x = f.EndsName x := by
  cases f <;> rfl

theorem Frame.EndsName.not_identifierChar {f : Frame} {x : Char} (h : f.EndsName x) : isIdentifierChar x = false := by
  cases f with
  | placeable => rcases h with rfl | rfl | rfl <;> decide
  | arguments => rcases h with rfl | rfl | rfl | rfl <;> decide
  | pattern | variants | key => rcases h with rfl | rfl | h <;> first | decide | exact h.elim

theorem Frame.EndsExpression.not_extendsNumber {f : Frame} {x : Char} (h : f.EndsExpression x) :
    extendsNumber x = false := by
  cases f with
  | placeable => rw [show x = ' ' from h]; decide
  | arguments => rcases h with rfl | rfl <;> decide
  | pattern | variants | key => exact h.elim

/-- No colon stands behind a name that is no name of an argument. -/
theorem Frame.EndsName.not_ahead {p a : Bool} {x : Char} (h : (Frame.arguments p a).EndsName x) {name rest : List Char}
    (hname : ∀ y ∈ name, isIdentifierChar y = true) : State.namedArgumentAhead (name ++ x :: rest) = false := by
  have hx := h.not_identifierChar
  have hgap : isGap x = false ∧ x ≠ ':' := by
    rcases h with rfl | rfl | rfl | rfl <;> decide
  rw [namedArgumentAhead_eq, List.dropWhile_append_of_pos hname, List.dropWhile_cons, if_neg (by simp [hx]),
    List.dropWhile_cons, if_neg (by simp [hgap.1])]
  simp [hgap.2]

section

variable (limit : Nat) {c d e : Cursor} {x : Char} {xs gap : List Char} {t : Token} (items : List PatternItem)
  {f : Frame} (fs : List Frame)

theorem isBlankChar_space : ∀ y ∈ [' '], Line.isBlankChar y = true := by
  simp [Line.isBlankChar]

/-- A character that opens or closes nothing in an expression, and is no layout: a token begins with it, and no
construct does. -/
def IsPlain (x : Char) : Prop := isLayout x = false ∧ x ∉ ['{', '}', '(', ')']

/-- **A step among arguments** at a token that opens and closes nothing. -/
theorem step_argument {positional atStart : Bool} (hgap : c.Over gap d) (hblank : ∀ y ∈ gap, Line.isBlankChar y = true)
    (htoken : d.Over (x :: xs) e) (hscan : Token.scan x (xs ++ e.rest) = (t, xs)) (hx : IsPlain x) {named : Bool}
    (hnamed : named = (positional && atStart && isIdentifierStart x &&
      State.namedArgumentAhead (x :: (xs ++ e.rest)))) :
    State.step limit ⟨c, items, .arguments positional atStart :: fs⟩ =
      .next ⟨e, .lexeme ⟨t, ⟨d.offset, e.offset⟩⟩ ::
        (if named then .lexeme ⟨.endPositional, .at d.offset⟩ :: items else items),
        .arguments (positional && !named) (t == .comma) :: fs⟩ := by
  have hrest : d.rest = x :: (xs ++ e.rest) := htoken.rest
  obtain ⟨hlayout, hbracket⟩ := hx
  simp only [List.mem_cons, List.not_mem_nil, or_false, not_or] at hbracket
  have hskip := hgap.skipBlank? hblank hrest hlayout
  have hlength : d.skip (xs.length + 1) = e := htoken.skip
  simp only [State.step, State.onContent, hskip]
  rw [State.readArguments_otherwise hrest hbracket.2.2.2 hbracket.1 hbracket.2.2.1, ← hnamed, State.readArgument, hscan]
  cases named <;> simp only [State.emit, State.mark, hlength, if_true, if_false, Bool.false_eq_true]

/-- One expression token is read. -/
theorem emitScanned_over (htoken : c.Over (x :: xs) d) (hscan : Token.scan x (xs ++ d.rest) = (t, xs)) :
    State.emitScanned ⟨c, items, fs⟩ = .next ⟨d, .lexeme ⟨t, ⟨c.offset, d.offset⟩⟩ :: items, fs⟩ := by
  have hrest : c.rest = x :: (xs ++ d.rest) := htoken.rest
  have hskip : c.skip (xs.length + 1) = d := htoken.skip
  simp only [State.emitScanned, hrest, hscan, State.emit, hskip]

/-- **A step in an expression** at a token that opens and closes nothing, and is no name of an argument. -/
theorem step_scanned (hf : f.holdsExpression = true) (hgap : c.Over gap d)
    (hblank : ∀ y ∈ gap, Line.isBlankChar y = true) (htoken : d.Over (x :: xs) e)
    (hscan : Token.scan x (xs ++ e.rest) = (t, xs)) (hx : IsPlain x) (harrow : x = '-' → ∀ ys, xs ++ e.rest ≠ '>' :: ys)
    (hcomma : t ≠ .comma) (hahead : ∀ p, f = .arguments p true → isIdentifierStart x = true →
      State.namedArgumentAhead (x :: (xs ++ e.rest)) = false) :
    State.step limit ⟨c, items, f :: fs⟩ =
      .next ⟨e, .lexeme ⟨t, ⟨d.offset, e.offset⟩⟩ :: items, f.within :: fs⟩ := by
  cases f with
  | placeable =>
    have hrest : d.rest = x :: (xs ++ e.rest) := htoken.rest
    obtain ⟨hlayout, hbracket⟩ := hx
    simp only [List.mem_cons, List.not_mem_nil, or_false, not_or] at hbracket
    have hskip := hgap.skipBlank? hblank hrest hlayout
    simp only [State.step, State.onContent, hskip]
    rw [State.readPlaceable_otherwise hrest hbracket.2.1 hbracket.1 hbracket.2.2.1 harrow,
      emitScanned_over items _ htoken hscan]
    rfl
  | arguments positional atStart =>
    have hnamed : false = (positional && atStart && isIdentifierStart x &&
        State.namedArgumentAhead (x :: (xs ++ e.rest))) := by
      cases atStart with
      | false => simp
      | true =>
        cases hstart : isIdentifierStart x with
        | false => simp
        | true => simp [hahead positional rfl hstart]
    rw [step_argument limit items fs hgap hblank htoken hscan hx hnamed]
    simp [Frame.within, hcomma]
  | pattern | variants | key => cases hf

/-! ## Tokens -/

theorem isPlain_of_isIdentifierStart (hx : isIdentifierStart x = true) : IsPlain x := by
  constructor
  · by_contra hlayout
    have hchar := isIdentifierChar_of_isLayout x (by simpa using hlayout)
    rw [isIdentifierChar_of_isIdentifierStart hx] at hchar
    cases hchar
  · intro hbracket
    simp only [List.mem_cons, List.not_mem_nil, or_false] at hbracket
    rcases hbracket with rfl | rfl | rfl | rfl <;> revert hx <;> decide

/-- A name is read where no name of an argument is expected. -/
theorem step_name {name : String} (hf : f.holdsExpression = true) (hgap : c.Over gap d)
    (hblank : ∀ y ∈ gap, Line.isBlankChar y = true) (hname : IsName name.toList) (hover : d.Over name.toList e)
    (hend : ∃ y rest, e.rest = y :: rest ∧ f.EndsName y) :
    State.step limit ⟨c, items, f :: fs⟩ =
      .next ⟨e, .lexeme ⟨.identifier name, ⟨d.offset, e.offset⟩⟩ :: items, f.within :: fs⟩ := by
  obtain ⟨y, rest, hrest, hy⟩ := hend
  obtain ⟨x, xs, hcons, hx, hxs⟩ := hname
  have hchars : ∀ z ∈ x :: xs, isIdentifierChar z = true :=
    List.forall_mem_cons.2 ⟨isIdentifierChar_of_isIdentifierStart hx, hxs⟩
  rw [hcons] at hover
  have hscan : Token.scan x (xs ++ e.rest) = (.identifier name, xs) := by
    rw [scan_name ⟨x, xs, rfl, hx, hxs⟩ ?_, ← hcons, String.ofList_toList]
    intro z hz
    rw [hrest] at hz
    exact Option.some.inj hz ▸ hy.not_identifierChar
  refine step_scanned limit items fs hf hgap hblank hover hscan (isPlain_of_isIdentifierStart hx) ?_ (by simp) ?_
  · rintro rfl
    cases hx
  · rintro p rfl -
    rw [hrest, ← List.cons_append]
    exact hy.not_ahead hchars

/-- A sign is read that is a token on its own. -/
theorem step_sign (hf : f.holdsExpression = true) (hgap : c.Over gap d)
    (hblank : ∀ y ∈ gap, Line.isBlankChar y = true) (htoken : d.Over [x] e)
    (hscan : Token.scan x e.rest = (t, [])) (hx : IsPlain x) (harrow : x = '-' → ∀ ys, e.rest ≠ '>' :: ys)
    (hcomma : t ≠ .comma) (hstart : isIdentifierStart x = false) :
    State.step limit ⟨c, items, f :: fs⟩ =
      .next ⟨e, .lexeme ⟨t, ⟨d.offset, e.offset⟩⟩ :: items, f.within :: fs⟩ := by
  refine step_scanned limit items fs hf hgap hblank htoken hscan hx harrow hcomma ?_
  intro _ _ hletter
  rw [hstart] at hletter
  cases hletter

/-- The dot and the name of an accessor are read. -/
theorem reaches_accessor {accessor : Option Identifier} (hf : f.holdsExpression = true) (hwithin : f.within = f)
    (haccessor : LegibleAccessor accessor) (hover : c.Over (displayAccessor accessor).toList e)
    (hend : ∃ y rest, e.rest = y :: rest ∧ f.EndsName y) :
    ∃ ls, SpellsAccessor c.offset accessor ls ∧
      State.Reaches limit ⟨c, items, f :: fs⟩ ⟨e, written items ls, f :: fs⟩ := by
  cases accessor with
  | none =>
    obtain rfl : e = c := hover.eq (.refl c)
    exact ⟨[], .none, .refl _⟩
  | some id =>
    rw [toList_displayAccessor_some] at hover
    obtain ⟨d, hdot, hname⟩ := hover.split
    have hscan : Token.scan '.' d.rest = (.dot, []) := rfl
    have hplain : IsPlain '.' := ⟨rfl, by decide⟩
    have hfirst := step_sign limit items fs hf (.refl c) (by simp) hdot hscan hplain (by simp) (by simp) rfl
    have hsecond := step_name limit (.lexeme ⟨.dot, ⟨c.offset, d.offset⟩⟩ :: items) fs hf (.refl d) (by simp)
      (haccessor id rfl) hname hend
    rw [hwithin] at hfirst hsecond
    exact ⟨[⟨.dot, ⟨c.offset, d.offset⟩⟩, ⟨.identifier id.name, ⟨d.offset, e.offset⟩⟩], .some rfl rfl,
      .head hfirst (.single hsecond)⟩

/-! ## Braces, parentheses and commas -/

/-- The space in front of a closing brace is passed, and the brace closes the placeable in the same step. -/
theorem step_closeBrace (hgap : c.Over gap d) (hblank : ∀ y ∈ gap, Line.isBlankChar y = true)
    (hclose : d.Over ['}'] e) :
    State.step limit ⟨c, items, .placeable :: fs⟩ =
      .next ⟨e, .lexeme ⟨.closeBrace, ⟨d.offset, e.offset⟩⟩ :: items, fs⟩ := by
  have hrest : d.rest = '}' :: e.rest := hclose.rest
  have hskip := hgap.skipBlank? hblank hrest rfl
  have hlength : d.skip 1 = e := hclose.skip
  simp only [State.step, State.onContent, hskip, State.readPlaceable, hrest, State.emit, hlength]

/-- Where the parenthesis closes positional arguments, their marker stands. -/
theorem step_closeParen {p a : Bool} (hgap : c.Over gap d)
    (hblank : ∀ y ∈ gap, Line.isBlankChar y = true) (hclose : d.Over [')'] e) :
    State.step limit ⟨c, items, .arguments p a :: fs⟩ =
      .next ⟨e, .lexeme ⟨.closeParen, ⟨d.offset, e.offset⟩⟩ ::
        (if p then .lexeme ⟨.endPositional, .at d.offset⟩ :: items else items), fs⟩ := by
  have hrest : d.rest = ')' :: e.rest := hclose.rest
  have hskip := hgap.skipBlank? hblank hrest rfl
  have hlength : d.skip 1 = e := hclose.skip
  simp only [State.step, State.onContent, hskip, State.readArguments, hrest]
  cases p <;> simp only [State.emit, State.mark, hlength, if_true, if_false, Bool.false_eq_true]

/-- Behind a comma another argument begins. -/
theorem step_comma {p a : Bool} (hcomma : c.Over [','] e) :
    State.step limit ⟨c, items, .arguments p a :: fs⟩ =
      .next ⟨e, .lexeme ⟨.comma, ⟨c.offset, e.offset⟩⟩ :: items, .arguments p true :: fs⟩ := by
  have hscan : Token.scan ',' ([] ++ e.rest) = (.comma, []) := rfl
  have hplain : IsPlain ',' := ⟨rfl, by decide⟩
  have hnamed : false = (p && a && isIdentifierStart ',' &&
      State.namedArgumentAhead (',' :: ([] ++ e.rest))) := by
    rw [show isIdentifierStart ',' = false from rfl, Bool.and_false, Bool.false_and]
  rw [step_argument limit items fs (.refl c) (by simp) hcomma hscan hplain hnamed]
  simp

/-- The name of an argument is read where it ends the positional arguments, or where they have ended. -/
theorem step_argumentName {positional atStart : Bool} {name : String} (hgap : c.Over gap d)
    (hblank : ∀ y ∈ gap, Line.isBlankChar y = true) (hname : IsName name.toList) (hover : d.Over name.toList e)
    {rest : List Char} (hcolon : e.rest = ':' :: rest) (hstart : positional = true → atStart = true) :
    State.step limit ⟨c, items, .arguments positional atStart :: fs⟩ =
      .next ⟨e, .lexeme ⟨.identifier name, ⟨d.offset, e.offset⟩⟩ ::
        (if positional then .lexeme ⟨.endPositional, .at d.offset⟩ :: items else items),
        .arguments false false :: fs⟩ := by
  obtain ⟨x, xs, hcons, hx, hxs⟩ := hname
  rw [hcons] at hover
  have hchars : ∀ z ∈ x :: xs, isIdentifierChar z = true :=
    List.forall_mem_cons.2 ⟨isIdentifierChar_of_isIdentifierStart hx, hxs⟩
  have hscan : Token.scan x (xs ++ e.rest) = (.identifier name, xs) := by
    rw [scan_name ⟨x, xs, rfl, hx, hxs⟩ ?_, ← hcons, String.ofList_toList]
    intro z hz
    rw [hcolon] at hz
    exact Option.some.inj hz ▸ rfl
  have hahead : State.namedArgumentAhead (x :: (xs ++ e.rest)) = true := by
    rw [hcolon, ← List.cons_append, namedArgumentAhead_eq, List.dropWhile_append_of_pos hchars]
    rfl
  have hnamed : positional = (positional && atStart && isIdentifierStart x &&
      State.namedArgumentAhead (x :: (xs ++ e.rest))) := by
    cases positional with
    | false => rfl
    | true => rw [hstart rfl, hx, hahead]; rfl
  rw [step_argument limit items fs hgap hblank hover hscan (isPlain_of_isIdentifierStart hx) hnamed]
  simp

/-! ## Expressions -/

/-- The displayed text of an expression, blanks in front of it, is read as tokens that spell the expression. -/
def Expression.Readable (e : Expression) : Prop :=
  ∀ (f : Frame) (fs : List Frame) (items : List PatternItem) {c d b : Cursor} {gap : List Char},
    f.holdsExpression = true → c.Over gap d → (∀ y ∈ gap, Line.isBlankChar y = true) → d.Over e.display.toList b →
    (∃ y rest, b.rest = y :: rest ∧ f.EndsExpression y) → (∀ k ∈ e.depths ((f :: fs).countP Frame.nests), k ≤ limit) →
    ∃ ls, Spells (.inline e) ls ∧
      State.Reaches limit ⟨c, items, f :: fs⟩ ⟨b, written items ls, f.within :: fs⟩

/-- A displayed placeable is read as it stands, in any construct that may hold one: from behind its brace the machine
reaches the end of it, with tokens that spell it, if it is within the limit. -/
def Placeable.Readable (p : Placeable) : Prop :=
  ∀ (fs : List Frame) (items : List PatternItem) {c b : Cursor}, c.Over p.display.toList b →
    (∀ k ∈ p.depths (fs.countP Frame.nests), k ≤ limit) →
    ∃ ls t, Spells (.placeable p) ls ∧ State.openPlaceable limit ⟨c, items, fs⟩ = .next t ∧
      t.Reaches limit ⟨b, written items ls, fs⟩

/-- The displayed arguments of a call are read as they stand, in any construct: the machine reaches their end with
tokens that spell them, if they are within the limit. -/
def CallArguments.Readable (a : CallArguments) : Prop :=
  ∀ (fs : List Frame) (items : List PatternItem) {c b : Cursor}, c.Over a.display.toList b →
    (∀ k ∈ a.depths (fs.countP Frame.nests), k ≤ limit) →
    ∃ ls t, Spells (.arguments a) ls ∧ State.openArguments limit ⟨c, items, fs⟩ = .next t ∧
      t.Reaches limit ⟨b, written items ls, fs⟩

variable {limit}

/-- A placeable begins with its brace. -/
theorem Placeable.exists_brace (p : Placeable) : ∃ rest, p.display.toList = '{' :: rest := by
  obtain ⟨e, location⟩ := p
  exact ⟨_, Placeable.toList_display⟩

/-- A brace opens a placeable where that does not nest too deep. -/
theorem openPlaceable_over (hopen : c.Over ['{'] d) (hroom : fs.countP Frame.nests < limit) :
    State.openPlaceable limit ⟨c, items, fs⟩ =
      .next ⟨d, .lexeme ⟨.openBrace, ⟨c.offset, d.offset⟩⟩ :: items, .placeable :: fs⟩ := by
  have hskip : c.skip 1 = d := hopen.skip
  rw [State.openPlaceable, if_pos (show State.depth ⟨c, items, fs⟩ < limit from hroom)]
  simp only [State.emit, hskip]

/-- A placeable is readable if its expression is. -/
theorem Expression.Readable.placeable {e : Expression} (he : e.Readable limit) (location : Location) :
    (Placeable.mk e location).Readable limit := by
  intro fs items c b hover hdepths
  rw [Placeable.toList_display] at hover
  obtain ⟨c₁, hopen, hover⟩ := hover.split
  obtain ⟨c₂, hspace, hover⟩ := hover.split
  obtain ⟨c₃, hexpression, hover⟩ := hover.split
  obtain ⟨c₄, hspace', hclose⟩ := hover.split
  obtain ⟨hroom, hinner⟩ := List.forall_mem_cons.1 hdepths
  have hbrace := openPlaceable_over items fs hopen hroom
  rw [← List.countP_cons_of_pos (a := Frame.placeable) (p := Frame.nests) (l := fs) rfl] at hinner
  obtain ⟨ls, hspells, hreaches⟩ := he .placeable fs (.lexeme ⟨.openBrace, ⟨c.offset, c₁.offset⟩⟩ :: items) rfl hspace
    isBlankChar_space hexpression ⟨' ', _, hspace'.rest, rfl⟩ hinner
  have hlast := step_closeBrace limit (written (.lexeme ⟨.openBrace, ⟨c.offset, c₁.offset⟩⟩ :: items) ls) fs hspace'
    isBlankChar_space hclose
  refine ⟨⟨.openBrace, ⟨c.offset, c₁.offset⟩⟩ :: (ls ++ [⟨.closeBrace, ⟨c₄.offset, b.offset⟩⟩]), _,
    .placeable hspells, hbrace, ?_⟩
  rw [written_cons, written_append]
  exact hreaches.trans (.single hlast)

/-! ## Arguments -/

/-- The displayed arguments of a call, without the parentheses. -/
def argumentsText (es : List Expression) (as : List NamedArgument) : List Char :=
  [',', ' '].intercalate ((displayExpressions es ++ displayArguments as).map String.toList)

theorem toList_display_arguments (es : List Expression) (as : List NamedArgument) (location : Location) :
    (CallArguments.mk es as location).display.toList = ['('] ++ (argumentsText es as ++ [')']) := by
  change ("(" ++ ", ".intercalate (displayExpressions es ++ displayArguments as) ++ ")").toList = _
  simp [argumentsText, String.toList_append, String.toList_intercalate]

theorem intercalate_cons_text (cs : List Char) {l : List (List Char)} (h : l ≠ []) :
    [',', ' '].intercalate (cs :: l) = cs ++ ([','] ++ ([' '] ++ [',', ' '].intercalate l)) := by
  rw [List.intercalate_cons_of_ne_nil h]
  simp

theorem argumentsText_last (e : Expression) : argumentsText [e] [] = e.display.toList := by
  simp [argumentsText, displayExpressions_eq_map, displayArguments_eq_map]

theorem argumentsText_cons (e : Expression) {es : List Expression} {as : List NamedArgument} (h : es ≠ [] ∨ as ≠ []) :
    argumentsText (e :: es) as = e.display.toList ++ ([','] ++ ([' '] ++ argumentsText es as)) := by
  refine intercalate_cons_text _ ?_
  simpa [displayExpressions_eq_map, displayArguments_eq_map, or_iff_not_imp_left] using h

theorem argumentsText_namedLast (a : NamedArgument) : argumentsText [] [a] = a.display.toList := by
  simp [argumentsText, displayExpressions_eq_map, displayArguments_eq_map]

theorem argumentsText_namedCons (a : NamedArgument) {as : List NamedArgument} (h : as ≠ []) :
    argumentsText [] (a :: as) = a.display.toList ++ ([','] ++ ([' '] ++ argumentsText [] as)) := by
  refine intercalate_cons_text _ ?_
  simpa [displayExpressions_eq_map, displayArguments_eq_map] using h

/-- The text of a readable named argument is read up to its end. -/
theorem reaches_namedArgument {name : Identifier} {value : Expression} {location : Location} {positional atStart : Bool}
    {b : Cursor} (hname : IsName name.name.toList) (hvalue : value.Readable limit) (hgap : c.Over gap d)
    (hblank : ∀ y ∈ gap, Line.isBlankChar y = true)
    (hover : d.Over (NamedArgument.mk name value location).display.toList b)
    (hend : ∃ y rest, b.rest = y :: rest ∧ (Frame.arguments false false).EndsExpression y)
    (hstart : positional = true → atStart = true)
    (hdepths : ∀ k ∈ value.depths ((.arguments false false :: fs).countP Frame.nests), k ≤ limit) :
    ∃ span colon ls, Spells (.inline value) ls ∧
      State.Reaches limit ⟨c, items, .arguments positional atStart :: fs⟩
        ⟨b, written (if positional then .lexeme ⟨.endPositional, .at d.offset⟩ :: items else items)
          (⟨.identifier name.name, span⟩ :: ⟨.colon, colon⟩ :: ls), .arguments false false :: fs⟩ := by
  rw [NamedArgument.toList_display] at hover
  obtain ⟨c₁, hletters, hover⟩ := hover.split
  obtain ⟨c₂, hcolon, hover⟩ := hover.split
  obtain ⟨c₃, hspace, hover⟩ := hover.split
  have hfirst := step_argumentName limit items fs hgap hblank hname hletters hcolon.rest hstart
  have hscan : Token.scan ':' c₂.rest = (.colon, []) := rfl
  have hplain : IsPlain ':' := ⟨rfl, by decide⟩
  have hsecond := step_sign limit (.lexeme ⟨.identifier name.name, ⟨d.offset, c₁.offset⟩⟩ ::
    (if positional then .lexeme ⟨.endPositional, .at d.offset⟩ :: items else items)) fs
    (f := .arguments false false) rfl (.refl c₁) (by simp) hcolon hscan hplain (by simp) (by simp) rfl
  obtain ⟨ls, hspells, hreaches⟩ := hvalue (.arguments false false) fs (.lexeme ⟨.colon, ⟨c₁.offset, c₂.offset⟩⟩ ::
    .lexeme ⟨.identifier name.name, ⟨d.offset, c₁.offset⟩⟩ ::
    (if positional then .lexeme ⟨.endPositional, .at d.offset⟩ :: items else items)) rfl hspace isBlankChar_space hover
    hend hdepths
  exact ⟨_, _, ls, hspells, .head hfirst (.head hsecond hreaches)⟩

/-- **Named arguments are read**, the closing parenthesis included. The marker of the positional ones stands in front. -/
theorem reaches_named {as : List NamedArgument} (has : ∀ a ∈ as, IsName a.name.name.toList ∧ a.value.Readable limit)
    (seen : List String) {p q : Bool} {b : Cursor} (hgap : c.Over gap d)
    (hblank : ∀ y ∈ gap, Line.isBlankChar y = true) (hover : d.Over (argumentsText [] as ++ [')']) b)
    (hstart : as ≠ [] → p = true → q = true)
    (hdepths : ∀ k ∈ namedDepths ((.arguments false false :: fs).countP Frame.nests) as, k ≤ limit) :
    ∃ ls closing, Spells (.named seen as closing) ls ∧
      State.Reaches limit ⟨c, items, .arguments p q :: fs⟩
        ⟨b, written (if p then .lexeme ⟨.endPositional, .at d.offset⟩ :: items else items) ls, fs⟩ := by
  induction as generalizing c d gap seen p q items with
  | nil => exact ⟨[_], _, .namedEnd, .single (step_closeParen limit items fs hgap hblank hover)⟩
  | cons a as ih =>
    obtain ⟨name, value, location⟩ := a
    obtain ⟨⟨hname, hvalue⟩, hrest⟩ := List.forall_mem_cons.1 has
    obtain ⟨hdeep, hdeeper⟩ := List.forall_mem_append.1 hdepths
    by_cases hlast : as = []
    · subst hlast
      rw [argumentsText_namedLast] at hover
      obtain ⟨c₁, htext, hclose⟩ := hover.split
      obtain ⟨span, colon, ls, hspells, hreaches⟩ := reaches_namedArgument items fs hname hvalue hgap hblank htext
        ⟨')', _, hclose.rest, .inr rfl⟩ (hstart (by simp)) hdeep
      -- the marker stands in front by now, and all that comes is written behind it
      generalize (if p then .lexeme ⟨.endPositional, .at d.offset⟩ :: items else items) = js at hreaches ⊢
      have hend := step_closeParen limit (written js (⟨.identifier name.name, span⟩ :: ⟨.colon, colon⟩ :: ls)) fs
        (p := false) (a := false) (.refl c₁) (by simp) hclose
      have hspelled : Spells (.named seen [⟨name, value, location⟩] ⟨c₁.offset, b.offset⟩)
          ((⟨.identifier name.name, span⟩ :: ⟨.colon, colon⟩ :: ls) ++ [⟨.closeParen, ⟨c₁.offset, b.offset⟩⟩]) :=
        .namedLast hspells
      refine ⟨_, _, hspelled, ?_⟩
      rw [written_append]
      exact hreaches.trans (.single hend)
    · rw [argumentsText_namedCons _ hlast, List.append_assoc, List.append_assoc, List.append_assoc] at hover
      obtain ⟨c₁, htext, hover⟩ := hover.split
      obtain ⟨c₂, hcomma, hover⟩ := hover.split
      obtain ⟨c₃, hspace, hover⟩ := hover.split
      obtain ⟨span, colon, ls, hspells, hreaches⟩ := reaches_namedArgument items fs hname hvalue hgap hblank htext
        ⟨',', _, hcomma.rest, .inl rfl⟩ (hstart (by simp)) hdeep
      generalize (if p then .lexeme ⟨.endPositional, .at d.offset⟩ :: items else items) = js at hreaches ⊢
      have hnext := step_comma limit (written js (⟨.identifier name.name, span⟩ :: ⟨.colon, colon⟩ :: ls)) fs
        (p := false) (a := false) hcomma
      obtain ⟨ms, closing, hspells', hreaches'⟩ := ih (p := false) (.lexeme ⟨.comma, ⟨c₁.offset, c₂.offset⟩⟩ ::
        written js (⟨.identifier name.name, span⟩ :: ⟨.colon, colon⟩ :: ls)) hrest (name.name :: seen) hspace
        isBlankChar_space hover (by simp) hdeeper
      have hspelled : Spells (.named seen (⟨name, value, location⟩ :: as) closing)
          ((⟨.identifier name.name, span⟩ :: ⟨.colon, colon⟩ :: ls) ++ ⟨.comma, ⟨c₁.offset, c₂.offset⟩⟩ :: ms) :=
        .namedCons hspells hspells'
      refine ⟨_, closing, hspelled, ?_⟩
      rw [written_append, written_cons]
      exact hreaches.trans (.head hnext hreaches')

/-- **The arguments of a call are read**, the closing parenthesis included. -/
theorem reaches_positional {es : List Expression} {as : List NamedArgument} (hes : ∀ e ∈ es, e.Readable limit)
    (has : ∀ a ∈ as, IsName a.name.name.toList ∧ a.value.Readable limit) {b : Cursor} (hgap : c.Over gap d)
    (hblank : ∀ y ∈ gap, Line.isBlankChar y = true) (hover : d.Over (argumentsText es as ++ [')']) b)
    (hdeep : ∀ k ∈ positionalDepths ((.arguments false false :: fs).countP Frame.nests) es, k ≤ limit)
    (hdeeper : ∀ k ∈ namedDepths ((.arguments false false :: fs).countP Frame.nests) as, k ≤ limit) :
    ∃ ls ms closing, Spells (.positional es) ls ∧ Spells (.named [] as closing) ms ∧
      State.Reaches limit ⟨c, items, .arguments true true :: fs⟩ ⟨b, written items (ls ++ ms), fs⟩ := by
  induction es generalizing c d gap items with
  | nil =>
    obtain ⟨ms, closing, hspells, hreaches⟩ := reaches_named items fs has [] hgap hblank hover (fun _ h => h) hdeeper
    refine ⟨[⟨.endPositional, .at d.offset⟩], ms, closing, .positionalEnd, hspells, ?_⟩
    exact hreaches
  | cons e es ih =>
    obtain ⟨he, hrest⟩ := List.forall_mem_cons.1 hes
    obtain ⟨hfirst, hdeeps⟩ := List.forall_mem_append.1 hdeep
    by_cases hlast : es = [] ∧ as = []
    · obtain ⟨rfl, rfl⟩ := hlast
      rw [argumentsText_last] at hover
      obtain ⟨c₁, htext, hclose⟩ := hover.split
      obtain ⟨ls, hspells, hreaches⟩ := he (.arguments true true) fs items rfl hgap hblank htext
        ⟨')', _, hclose.rest, .inr rfl⟩ hfirst
      obtain ⟨ms, closing, hspells', hreaches'⟩ := reaches_named (written items ls) fs has [] (.refl c₁) (by simp)
        hclose (p := true) (q := false) (fun h => absurd rfl h) hdeeper
      refine ⟨ls ++ [⟨.endPositional, .at c₁.offset⟩], ms, closing, .positionalLast hspells, hspells', ?_⟩
      rw [written_append, written_append]
      exact hreaches.trans hreaches'
    · rw [argumentsText_cons e (by tauto), List.append_assoc, List.append_assoc, List.append_assoc] at hover
      obtain ⟨c₁, htext, hover⟩ := hover.split
      obtain ⟨c₂, hcomma, hover⟩ := hover.split
      obtain ⟨c₃, hspace, hover⟩ := hover.split
      obtain ⟨ls, hspells, hreaches⟩ := he (.arguments true true) fs items rfl hgap hblank htext
        ⟨',', _, hcomma.rest, .inl rfl⟩ hfirst
      have hnext := step_comma limit (written items ls) fs (p := true) (a := false) hcomma
      obtain ⟨ms, ns, closing, hspells', hspells'', hreaches'⟩ := ih
        (.lexeme ⟨.comma, ⟨c₁.offset, c₂.offset⟩⟩ :: written items ls) hrest hspace isBlankChar_space hover hdeeps
      refine ⟨ls ++ ⟨.comma, ⟨c₁.offset, c₂.offset⟩⟩ :: ms, ns, closing, .positionalCons hspells hspells', hspells'',
        ?_⟩
      rw [List.append_assoc, written_append, List.cons_append, written_cons]
      exact hreaches.trans (.head hnext hreaches')

/-- The arguments of a call are readable if each of them is. -/
theorem CallArguments.readable_of {es : List Expression} {as : List NamedArgument} (hes : ∀ e ∈ es, e.Readable limit)
    (has : ∀ a ∈ as, IsName a.name.name.toList ∧ a.value.Readable limit) (location : Location) :
    (CallArguments.mk es as location).Readable limit := by
  intro fs items c b hover hdepths
  rw [toList_display_arguments] at hover
  obtain ⟨c₁, hopen, hover⟩ := hover.split
  obtain ⟨hroom, hinner⟩ := List.forall_mem_cons.1 hdepths
  have hskip : c.skip 1 = c₁ := hopen.skip
  have hparen : State.openArguments limit ⟨c, items, fs⟩ =
      .next ⟨c₁, .lexeme ⟨.openParen, ⟨c.offset, c₁.offset⟩⟩ :: items, .arguments true true :: fs⟩ := by
    rw [State.openArguments, if_pos (show State.depth ⟨c, items, fs⟩ < limit from hroom)]
    simp only [State.emit, hskip]
  rw [← List.countP_cons_of_pos (a := Frame.arguments false false) (p := Frame.nests) (l := fs) rfl] at hinner
  obtain ⟨hdeep, hdeeper⟩ := List.forall_mem_append.1 hinner
  obtain ⟨ls, ms, closing, hspells, hspells', hreaches⟩ := reaches_positional
    (.lexeme ⟨.openParen, ⟨c.offset, c₁.offset⟩⟩ :: items) fs hes has (.refl c₁) (by simp) hover hdeep hdeeper
  exact ⟨⟨.openParen, ⟨c.offset, c₁.offset⟩⟩ :: (ls ++ ms), _, .arguments hspells hspells', hparen, hreaches⟩

/-! ## Legible expressions -/

/-- An expression that a single token spells is readable. -/
theorem Expression.readable_of_token {e : Expression} {t : Token} {x : Char} {xs : List Char}
    (htext : e.display.toList = x :: xs) (hspells : ∀ span, Spells (.inline e) [⟨t, span⟩]) (hx : IsPlain x)
    (hcomma : t ≠ .comma) (hstart : isIdentifierStart x = false)
    (hscan : ∀ (f : Frame) (y : Char) (rest : List Char), f.EndsExpression y →
      Token.scan x (xs ++ y :: rest) = (t, xs) ∧ (x = '-' → ∀ ys, xs ++ y :: rest ≠ '>' :: ys)) :
    e.Readable limit := by
  intro f fs items c d b gap hf hgap hblank hover hend _
  obtain ⟨y, rest, hrest, hy⟩ := hend
  obtain ⟨hscan, harrow⟩ := hscan f y rest hy
  rw [htext] at hover
  rw [← hrest] at hscan harrow
  refine ⟨[⟨t, ⟨d.offset, b.offset⟩⟩], hspells _, .single ?_⟩
  refine step_scanned limit items fs hf hgap hblank hover hscan hx harrow hcomma ?_
  intro _ _ hletter
  rw [hstart] at hletter
  cases hletter

/-- A displayed string literal is read as one token, since no quote within its text ends it earlier. -/
theorem Expression.readable_string {raw : String} (hraw : IsStringBody raw.toList) (value : String)
    (location : Location) : (Expression.string value raw location).Readable limit := by
  refine readable_of_token Expression.toList_display_string (fun _ => .string) ⟨rfl, by decide⟩ (by simp) rfl ?_
  intro f y rest _
  rw [List.append_assoc, List.singleton_append, scan_string _ hraw, String.ofList_toList]
  exact ⟨rfl, by simp⟩

theorem isPlain_of_isDigit (hx : x.isDigit = true) : IsPlain x := by
  constructor
  · by_contra hlayout
    rw [isDigit_of_isLayout x (by simpa using hlayout)] at hx
    cases hx
  · intro hbracket
    simp only [List.mem_cons, List.not_mem_nil, or_false] at hbracket
    rcases hbracket with rfl | rfl | rfl | rfl <;> revert hx <;> decide

/-- A displayed number is read as one token: what stands behind an expression goes on with no number. -/
theorem Expression.readable_number {n : NumberLiteral} (hraw : IsNumber n.raw.toList)
    (hvalue : Binary64.read? n.raw.toList = some n.value) : (Expression.number n).Readable limit := by
  have hspells : ∀ span, Spells (.inline (.number n)) [⟨.number n.raw, span⟩] := fun _ => .number hvalue
  have hhead : ∀ {f : Frame} {y : Char} {rest : List Char}, f.EndsExpression y →
      ∀ z ∈ (y :: rest).head?, extendsNumber z = false := by
    rintro f y rest hy z hz
    exact Option.some.inj hz ▸ hy.not_extendsNumber
  obtain ⟨x, xs, hx, hdigits, hcons⟩ := hraw
  rcases hcons with hcons | hcons
  · refine readable_of_token hcons hspells (isPlain_of_isDigit hx) (by simp) (isIdentifierStart_of_isDigit hx) ?_
    intro f y rest hy
    refine ⟨?_, ?_⟩
    · rw [scan_number ⟨x, xs, hx, hdigits, .inl rfl⟩ (hhead hy), ← hcons, String.ofList_toList]
    · rintro rfl
      cases hx
  · refine readable_of_token hcons hspells ⟨rfl, by decide⟩ (by simp) rfl ?_
    intro f y rest hy
    refine ⟨?_, ?_⟩
    · rw [scan_number ⟨x, xs, hx, hdigits, .inr rfl⟩ (hhead hy), ← hcons, String.ofList_toList]
    · rintro - ys hys
      obtain rfl := (List.cons.inj hys).1
      cases hx

/-! ### References -/

/-- A dot or what stands behind an accessor stands behind the name in front of it. -/
theorem exists_head_accessor {accessor : Option Identifier} {b : Cursor} (hover : c.Over (displayAccessor accessor).toList b)
    (hend : ∃ y rest, b.rest = y :: rest ∧ f.EndsName y) : ∃ y rest, c.rest = y :: rest ∧ f.EndsName y := by
  cases accessor with
  | none =>
    obtain rfl : b = c := hover.eq (.refl c)
    exact hend
  | some id =>
    have hrest := hover.rest
    rw [toList_displayAccessor_some] at hrest
    exact ⟨'.', _, hrest, .inl rfl⟩

/-- A name is read, and the accessor behind it. -/
theorem reaches_reference {id : Identifier} {accessor : Option Identifier} {b : Cursor} (hf : f.holdsExpression = true)
    (hgap : c.Over gap d) (hblank : ∀ y ∈ gap, Line.isBlankChar y = true) (hname : IsName id.name.toList)
    (haccessor : LegibleAccessor accessor) (hover : d.Over (id.name.toList ++ (displayAccessor accessor).toList) b)
    (hend : ∃ y rest, b.rest = y :: rest ∧ f.EndsName y) :
    ∃ span ls, span.start = d.offset ∧ SpellsAccessor span.stop accessor ls ∧
      State.Reaches limit ⟨c, items, f :: fs⟩ ⟨b, written items (⟨.identifier id.name, span⟩ :: ls), f.within :: fs⟩ := by
  obtain ⟨c₁, hletters, hover⟩ := hover.split
  have hfirst := step_name limit items fs hf hgap hblank hname hletters (exists_head_accessor hover hend)
  obtain ⟨ls, hspells, hreaches⟩ := reaches_accessor limit (.lexeme ⟨.identifier id.name, ⟨d.offset, c₁.offset⟩⟩ :: items)
    fs (f := f.within) (by simpa using hf) (by simp) haccessor hover (by simpa using hend)
  exact ⟨⟨d.offset, c₁.offset⟩, ls, rfl, hspells, .head hfirst hreaches⟩

/-- A dash in front of a name is read. -/
theorem step_minus {rest : List Char} (hf : f.holdsExpression = true) (hgap : c.Over gap d)
    (hblank : ∀ y ∈ gap, Line.isBlankChar y = true) (hminus : d.Over ['-'] e) (hrest : e.rest = x :: rest)
    (hx : isIdentifierStart x = true) :
    State.step limit ⟨c, items, f :: fs⟩ =
      .next ⟨e, .lexeme ⟨.minus, ⟨d.offset, e.offset⟩⟩ :: items, f.within :: fs⟩ := by
  have hdigit : x.isDigit = false := by
    by_contra hdigit
    rw [isIdentifierStart_of_isDigit (by simpa using hdigit)] at hx
    cases hx
  have harrow : x ≠ '>' := by
    rintro rfl
    cases hx
  have hscan : Token.scan '-' e.rest = (.minus, []) := by
    rw [hrest]
    simp [Token.scan, hdigit, show isIdentifierStart '-' = false from rfl, show Char.isDigit '-' = false from rfl]
  refine step_sign limit items fs hf hgap hblank hminus hscan ⟨rfl, by decide⟩ ?_ (by simp) rfl
  rintro - ys hys
  rw [hrest] at hys
  exact harrow (List.cons.inj hys).1

/-- A parenthesis in an expression opens arguments. -/
theorem step_openParen {rest : List Char} (hf : f.holdsExpression = true) (hrest : c.rest = '(' :: rest) :
    State.step limit ⟨c, items, f :: fs⟩ = State.openArguments limit ⟨c, items, f.within :: fs⟩ := by
  have hskip := (Cursor.Over.refl c).skipBlank? (by simp) hrest rfl
  cases f with
  | placeable => simp only [State.step, State.onContent, hskip, State.readPlaceable, hrest, Frame.within]
  | arguments => simp only [State.step, State.onContent, hskip, State.readArguments, hrest, Frame.within]
  | pattern | variants | key => cases hf

/-- A brace in an expression opens a placeable. -/
theorem step_openBrace {rest : List Char} (hf : f.holdsExpression = true) (hgap : c.Over gap d)
    (hblank : ∀ y ∈ gap, Line.isBlankChar y = true) (hrest : d.rest = '{' :: rest) :
    State.step limit ⟨c, items, f :: fs⟩ = State.openPlaceable limit ⟨d, items, f.within :: fs⟩ := by
  have hskip := hgap.skipBlank? hblank hrest rfl
  cases f with
  | placeable => simp only [State.step, State.onContent, hskip, State.readPlaceable, hrest, Frame.within]
  | arguments => simp only [State.step, State.onContent, hskip, State.readArguments, hrest, Frame.within]
  | pattern | variants | key => cases hf

/-- Readable arguments are read where a name has been. -/
theorem CallArguments.Readable.reaches {a : CallArguments} (ha : a.Readable limit) (hf : f.holdsExpression = true)
    {b : Cursor} (hover : c.Over a.display.toList b)
    (hdepths : ∀ k ∈ a.depths ((f :: fs).countP Frame.nests), k ≤ limit) :
    ∃ ls, Spells (.arguments a) ls ∧
      State.Reaches limit ⟨c, items, f :: fs⟩ ⟨b, written items ls, f.within :: fs⟩ := by
  rw [← Frame.countP_within] at hdepths
  obtain ⟨ls, t, hspells, hopen, hreaches⟩ := ha (f.within :: fs) items hover hdepths
  obtain ⟨es, as, location⟩ := a
  have hrest := hover.rest
  rw [toList_display_arguments] at hrest
  exact ⟨ls, hspells, .head ((step_openParen items fs hf hrest).trans hopen) hreaches⟩

theorem Placeable.Readable.expression {p : Placeable} (hp : p.Readable limit) :
    (Expression.placeable p).Readable limit := by
  intro f fs items c d b gap hf hgap hblank hover _ hdepths
  rw [← Frame.countP_within] at hdepths
  obtain ⟨ls, t, hspells, hopen, hreaches⟩ := hp (f.within :: fs) items hover hdepths
  obtain ⟨rest, hbrace⟩ := p.exists_brace
  have hrest := hover.rest
  rw [show (Expression.placeable p).display = p.display from rfl, hbrace] at hrest
  exact ⟨ls, .nested hspells, .head ((step_openBrace items fs hf hgap hblank hrest).trans hopen) hreaches⟩

theorem Expression.readable_variableRef {id : Identifier} (hname : IsName id.name.toList) (location : Location) :
    (Expression.variableRef id location).Readable limit := by
  intro f fs items c d b gap hf hgap hblank hover hend _
  have htext : (Expression.variableRef id location).display.toList =
      ['$'] ++ (id.name.toList ++ (displayAccessor none).toList) := by
    rw [Expression.toList_display_variableRef, toList_displayAccessor_none, List.append_nil]
  rw [htext] at hover
  obtain ⟨c₁, hdollar, hover⟩ := hover.split
  obtain ⟨y, rest, hrest, hy⟩ := hend
  have hscan : Token.scan '$' c₁.rest = (.dollar, []) := rfl
  have hfirst := step_sign limit items fs hf hgap hblank hdollar hscan ⟨rfl, by decide⟩ (by simp) (by simp) rfl
  obtain ⟨span, ls, hstart, hspells, hreaches⟩ := reaches_reference
    (.lexeme ⟨.dollar, ⟨d.offset, c₁.offset⟩⟩ :: items) fs (f := f.within) (by simpa using hf) (.refl c₁) (by simp) hname
    (by simp [LegibleAccessor]) hover ⟨y, rest, hrest, .inr (.inr (by simpa using hy))⟩
  cases hspells
  rw [Frame.within_within] at hreaches
  exact ⟨_, .variableRef (hstart.trans hdollar.offset), .head hfirst hreaches⟩

theorem Expression.readable_messageRef {id : Identifier} {accessor : Option Identifier} (hname : IsName id.name.toList)
    (haccessor : LegibleAccessor accessor) (location : Location) :
    (Expression.messageRef id accessor location).Readable limit := by
  intro f fs items c d b gap hf hgap hblank hover hend _
  rw [Expression.toList_display_messageRef] at hover
  obtain ⟨y, rest, hrest, hy⟩ := hend
  obtain ⟨span, ls, -, hspells, hreaches⟩ := reaches_reference items fs hf hgap hblank hname haccessor hover
    ⟨y, rest, hrest, .inr (.inr hy)⟩
  exact ⟨_, .message hspells, hreaches⟩

/-- A displayed call of a function is read as a name and an argument list, which touch. -/
theorem Expression.readable_functionRef {id : Identifier} {a : CallArguments} (hname : IsName id.name.toList)
    (ha : a.Readable limit) (location : Location) : (Expression.functionRef id a location).Readable limit := by
  intro f fs items c d b gap hf hgap hblank hover _ hdepths
  have htext : (Expression.functionRef id a location).display.toList =
      (id.name.toList ++ (displayAccessor none).toList) ++ a.display.toList := by
    rw [Expression.toList_display_functionRef, toList_displayAccessor_none, List.append_nil]
  rw [htext] at hover
  obtain ⟨c₁, hreference, hover⟩ := hover.split
  have hparen := hover.rest
  obtain ⟨es, as, location'⟩ := a
  rw [toList_display_arguments] at hparen
  obtain ⟨span, ls, -, hspells, hreaches⟩ := reaches_reference items fs hf hgap hblank hname
    (by simp [LegibleAccessor]) hreference ⟨'(', _, hparen, .inr (.inl rfl)⟩
  cases hspells
  obtain ⟨ms, hspells', hreaches'⟩ := ha.reaches (written items [⟨.identifier id.name, span⟩]) fs
    (f := f.within) (by simpa using hf) hover (by rwa [Frame.countP_within])
  rw [Frame.within_within] at hreaches'
  exact ⟨_, .function hspells', hreaches.trans hreaches'⟩

/-- A dash and a reference, in front of what may stand behind its accessor. -/
theorem reaches_term {id : Identifier} {accessor : Option Identifier} {b : Cursor} (hf : f.holdsExpression = true)
    (hgap : c.Over gap d) (hblank : ∀ y ∈ gap, Line.isBlankChar y = true) (hname : IsName id.name.toList)
    (haccessor : LegibleAccessor accessor)
    (hover : d.Over (['-'] ++ (id.name.toList ++ (displayAccessor accessor).toList)) b)
    (hend : ∃ y rest, b.rest = y :: rest ∧ f.EndsName y) :
    ∃ minus span ls, span.start = minus.start + 1 ∧ SpellsAccessor span.stop accessor ls ∧
      State.Reaches limit ⟨c, items, f :: fs⟩
        ⟨b, written items (⟨.minus, minus⟩ :: ⟨.identifier id.name, span⟩ :: ls), f.within :: fs⟩ := by
  obtain ⟨c₁, hminus, hover⟩ := hover.split
  have hletters := hname
  obtain ⟨x, xs, hcons, hx, -⟩ := hletters
  have hrest : c₁.rest = x :: (xs ++ ((displayAccessor accessor).toList ++ b.rest)) := by
    rw [hover.rest, hcons, List.append_assoc]
    rfl
  obtain ⟨span, ls, hstart, hspells, hreaches⟩ := reaches_reference
    (.lexeme ⟨.minus, ⟨d.offset, c₁.offset⟩⟩ :: items) fs (f := f.within) (by simpa using hf) (.refl c₁) (by simp) hname
    haccessor hover (by simpa using hend)
  rw [Frame.within_within] at hreaches
  exact ⟨⟨d.offset, c₁.offset⟩, span, ls, hstart.trans hminus.offset, hspells,
    .head (step_minus items fs hf hgap hblank hminus hrest hx) hreaches⟩

theorem Expression.readable_term {id : Identifier} {accessor : Option Identifier} (hname : IsName id.name.toList)
    (haccessor : LegibleAccessor accessor) (location : Location) :
    (Expression.termRef id accessor none location).Readable limit := by
  intro f fs items c d b gap hf hgap hblank hover hend _
  rw [Expression.toList_display_termRef] at hover
  obtain ⟨y, rest, hrest, hy⟩ := hend
  obtain ⟨minus, span, ls, hstart, hspells, hreaches⟩ := reaches_term items fs hf hgap hblank hname haccessor hover
    ⟨y, rest, hrest, .inr (.inr hy)⟩
  exact ⟨_, .term hstart hspells, hreaches⟩

theorem Expression.readable_termCall {id : Identifier} {accessor : Option Identifier} {a : CallArguments}
    (hname : IsName id.name.toList) (haccessor : LegibleAccessor accessor) (ha : a.Readable limit)
    (location : Location) : (Expression.termRef id accessor (some a) location).Readable limit := by
  intro f fs items c d b gap hf hgap hblank hover _ hdepths
  rw [Expression.toList_display_termCall] at hover
  obtain ⟨c₁, hreference, hover⟩ := hover.split
  have hparen := hover.rest
  obtain ⟨es, as, location'⟩ := a
  rw [toList_display_arguments] at hparen
  obtain ⟨minus, span, ls, hstart, hspells, hreaches⟩ := reaches_term items fs hf hgap hblank hname haccessor hreference
    ⟨'(', _, hparen, .inr (.inl rfl)⟩
  obtain ⟨ms, hspells', hreaches'⟩ := ha.reaches (written items (⟨.minus, minus⟩ :: ⟨.identifier id.name, span⟩ :: ls)) fs
    (f := f.within) (by simpa using hf) hover (by rwa [Frame.countP_within])
  rw [Frame.within_within] at hreaches'
  refine ⟨_, .termCall hstart hspells hspells', ?_⟩
  rw [← List.cons_append, ← List.cons_append, written_append]
  exact hreaches.trans hreaches'

mutual

/-- **What is legible is readable.** -/
theorem Expression.readable : ∀ {e : Expression}, e.Legible → e.Readable limit
  | .string value _ location, h => Expression.readable_string h value location
  | .number _, h => Expression.readable_number h.1 h.2
  | .variableRef _ location, h => Expression.readable_variableRef h location
  | .messageRef _ _ location, h => Expression.readable_messageRef h.1 h.2 location
  | .termRef _ _ none location, h => Expression.readable_term h.1 h.2 location
  | .termRef _ _ (some _) location, h => Expression.readable_termCall h.1 h.2.1 (CallArguments.readable h.2.2) location
  | .functionRef _ _ location, h => Expression.readable_functionRef h.1 (CallArguments.readable h.2) location
  | .select .., h => h.elim
  | .placeable _, h => (Placeable.readable h).expression

/-- A legible placeable is read as it is displayed, since its expression is. The lemmas from here on go down the tree
together. -/
theorem Placeable.readable : ∀ {p : Placeable}, p.Legible → p.Readable limit
  | ⟨_, location⟩, h => (Expression.readable h).placeable location

theorem CallArguments.readable : ∀ {a : CallArguments}, a.Legible → a.Readable limit
  | ⟨_, _, location⟩, h => CallArguments.readable_of (positional_readable h.1) (named_readable h.2) location

theorem positional_readable : ∀ {es : List Expression}, LegiblePositional es → ∀ e ∈ es, e.Readable limit
  | [], _, _, he => absurd he List.not_mem_nil
  | _ :: _, h, _, he =>
    (List.mem_cons.1 he).elim (fun heq => heq ▸ Expression.readable h.1) (positional_readable h.2 _)

theorem named_readable : ∀ {as : List NamedArgument}, LegibleNamed as →
    ∀ a ∈ as, IsName a.name.name.toList ∧ a.value.Readable limit
  | [], _, _, ha => absurd ha List.not_mem_nil
  | _ :: _, h, _, ha =>
    (List.mem_cons.1 ha).elim (fun heq => heq ▸ NamedArgument.readable h.1) (named_readable h.2 _)

theorem NamedArgument.readable : ∀ {a : NamedArgument}, a.Legible → IsName a.name.name.toList ∧ a.value.Readable limit
  | ⟨_, _, _⟩, h => ⟨h.1, Expression.readable h.2⟩

end

end

end Fluent
