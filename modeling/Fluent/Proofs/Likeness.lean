import Fluent.Proofs.Escapes
import Fluent.Proofs.Relocated
import Mathlib.Data.List.Forall2

/-!
# Readings that are alike

The grammar looks at the kinds of the tokens, and at their places only to tell what touches: a sign and its name, a
name and its accessor. Everything else about a place goes into the tree, or into the report of a fault. So two
readings whose tokens are of the same kinds, and touch at the same spots, take the same branches throughout. What they
return differs no more than the places do.

A `Likeness` says which places may stand for which, and how much of the faults and of the locations then is the same.
The walk over the grammar is made once, for any likeness. There is one irregularity: behind a token that can open an
argument the two readings may part, if both are known to fail from there on.

* `Alike F R x x'`: related results, or related faults.
* `Likeness`: tokens, offsets and faults that stand for each other, and what is compared of the locations.
* `Likeness.Inputs`: inputs whose tokens stand for each other, up to where they may part.
* `Likeness.Fits`: what the ends of the two readings have to agree in.
* `like_expect`, `like_identifier`, `like_checkSelector`, ...: single tokens and checks are read alike.
-/

namespace Fluent

/-- Related results, or related faults: the outcomes of two readings that took the same branches. What both relations
are is left open, so that one walk over the grammar serves them all. -/
inductive Alike {α β : Type} (F : Fault → Fault → Prop) (R : α → β → Prop) :
    Except Fault α → Except Fault β → Prop
  | ok {a : α} {b : β} : R a b → Alike F R (.ok a) (.ok b)
  | error {x y : Fault} : F x y → Alike F R (.error x) (.error y)

namespace Alike

variable {α α' β β' : Type} {F : Fault → Fault → Prop} {R : α → α' → Prop} {S : β → β' → Prop}

/-- Two readings that go on alike from related results stay alike. -/
theorem bind {x : Except Fault α} {x' : Except Fault α'} {g : α → Except Fault β} {g' : α' → Except Fault β'}
    (h : Alike F R x x') (hg : ∀ a a', R a a' → Alike F S (g a) (g' a')) : Alike F S (x >>= g) (x' >>= g') := by
  cases h with
  | ok h => exact hg _ _ h
  | error h => exact .error h

theorem of_ok {a : α} {x' : Except Fault α'} (h : Alike F R (.ok a) x') : ∃ a', x' = .ok a' ∧ R a a' := by
  cases h with
  | ok h => exact ⟨_, rfl, h⟩

theorem of_ok_right {x : Except Fault α} {a' : α'} (h : Alike F R x (.ok a')) : ∃ a, x = .ok a ∧ R a a' := by
  cases h with
  | ok h => exact ⟨_, rfl, h⟩

theorem of_error {fault : Fault} {x' : Except Fault α'} (h : Alike F R (.error fault) x') :
    ∃ fault', x' = .error fault' ∧ F fault fault' := by
  cases h with
  | error h => exact ⟨_, rfl, h⟩

/-- What is asked of the results and of the faults may be weakened. -/
theorem mono {G : Fault → Fault → Prop} {T : α → α' → Prop} {x : Except Fault α} {x' : Except Fault α'}
    (h : Alike F R x x') (hF : ∀ y y', F y y' → G y y') (hR : ∀ a a', R a a' → T a a') : Alike G T x x' := by
  cases h with
  | ok h => exact .ok (hR _ _ h)
  | error h => exact .error (hF _ _ h)

end Alike

/-! ## Likenesses -/

/-- A sign that its name touches. -/
def Token.isSign : Token → Bool
  | dollar | minus => true
  | _ => false

/-- A token whose ends the grammar compares with those of others. -/
def Token.touches : Token → Bool
  | dollar | minus | dot | identifier _ => true
  | _ => false

theorem Token.touches_of_isSign {t : Token} (h : t.isSign = true) : t.touches = true := by
  cases t with
  | dollar => rfl
  | minus => rfl
  | _ => cases h

/-- A token that an argument of a call may begin behind. -/
def Token.opensArgument : Token → Bool
  | openParen | comma => true
  | _ => false

/-- A way in which two readings can be alike. Tokens that stand for each other are of one kind. Offsets are related
twice over: those that only go into locations and faults, and those that the grammar compares, which are matched one
to one. Of the locations in the trees, what `view` shows of the one has to be what `view'` shows of the other. -/
structure Likeness where
  /-- Tokens that stand for each other. -/
  lexeme : Lexeme → Lexeme → Prop
  /-- What may be left behind a token that opens an argument, where the readings part and both fail. -/
  parted : List Lexeme → List Lexeme → Prop
  offset : Nat → Nat → Prop
  /-- Offsets that the grammar compares. -/
  touch : Nat → Nat → Prop
  fault : Fault → Fault → Prop
  view : Location → Location
  view' : Location → Location
  token : ∀ {l l' : Lexeme}, lexeme l l' → l'.token = l.token
  start : ∀ {l l' : Lexeme}, lexeme l l' → offset l.span.start l'.span.start
  stop : ∀ {l l' : Lexeme}, lexeme l l' → offset l.span.stop l'.span.stop
  touchStart : ∀ {l l' : Lexeme}, lexeme l l' → l.token.touches = true → touch l.span.start l'.span.start
  touchStop : ∀ {l l' : Lexeme}, lexeme l l' → l.token.touches = true → touch l.span.stop l'.span.stop
  /-- A name touches its sign if it begins one byte behind. -/
  touchSign : ∀ {l l' : Lexeme}, lexeme l l' → l.token.isSign = true → touch (l.span.start + 1) (l'.span.start + 1)
  touch_iff : ∀ {p q p' q' : Nat}, touch p p' → touch q q' → (p = q ↔ p' = q')
  unexpected : ∀ {o o' : Nat} {e : Expected} {found : Found}, offset o o' →
    fault (.unexpected o e found) (.unexpected o' e found)
  unterminated : ∀ {raw : String} {s s' : Span},
    lexeme ⟨.unterminatedString raw, s⟩ ⟨.unterminatedString raw, s'⟩ →
    fault (.unterminatedString s) (.unterminatedString s')
  /-- A bad escape stands at the same place within its string. -/
  badEscape : ∀ {raw : String} {s s' : Span} {k : Nat} {text : List Char},
    lexeme ⟨.string raw, s⟩ ⟨.string raw, s'⟩ → k + byteCount text ≤ byteCount raw.toList →
    fault (.ofBadEscape ⟨⟨s.start + 1 + k, s.start + 1 + k + byteCount text⟩, text⟩)
      (.ofBadEscape ⟨⟨s'.start + 1 + k, s'.start + 1 + k + byteCount text⟩, text⟩)
  /-- The box around some locations shows what the locations show. -/
  box : ∀ {ls ls' : List Location}, ls'.map view' = ls.map view →
    (Location.boundingBox? ls').map view' = (Location.boundingBox? ls).map view

namespace Likeness

variable (K : Likeness)

/-- Token by token the lists stand for each other, to their ends or to where they part. -/
inductive Tokens : List Lexeme → List Lexeme → Prop
  | nil : Tokens [] []
  | cons {l l' : Lexeme} {ls ls' : List Lexeme} : K.lexeme l l' → Tokens ls ls' → Tokens (l :: ls) (l' :: ls')
  | parts {l l' : Lexeme} {ls ls' : List Lexeme} : K.lexeme l l' → l.token.opensArgument = true → K.parted ls ls' →
      Tokens (l :: ls) (l' :: ls')

/-- What the two readings have in front of them: tokens that stand for each other, behind tokens whose ends do. -/
structure Inputs (i i' : Input) : Prop where
  tokens : K.Tokens i.lexemes i'.lexemes
  readTo : K.offset i.readTo i'.readTo

/-- What the two readings have in front of them once they have read a token: they may have parted if it opens an
argument. -/
def Behind (t : Token) (i i' : Input) : Prop :=
  K.Inputs i i' ∨ t.opensArgument = true ∧ K.parted i.lexemes i'.lexemes

/-- The trees agree in everything but locations, and in what is compared of these. Where that is nothing, they are the
same but for places; where it is all, they are moved as a whole. -/
def Same {α : Type} (relocate : (Location → Location) → α → α) (a a' : α) : Prop :=
  relocate K.view' a' = relocate K.view a

/-- Both ends stand for each other. -/
structure Spans (s s' : Span) : Prop where
  start : K.offset s.start s'.start
  stop : K.offset s.stop s'.stop

/-- The trees agree, and so do the ends of their locations, which those of larger trees are made of. -/
structure Located {α : Type} (relocate : (Location → Location) → α → α) (location : α → Location) (a a' : α) :
    Prop where
  same : K.Same relocate a a'
  spans : K.Spans (location a).span (location a').span

/-- The identifiers agree, and their ends are matched, so that an accessor touches both or neither. -/
structure Identifiers (id id' : Identifier) : Prop where
  located : K.Located Identifier.relocate Identifier.location id id'
  touch : K.touch id.location.span.stop id'.location.span.stop

/-- Related things that are read, and inputs behind them that stand for each other: what a reading hands on to what
comes next. -/
structure Reread {α β : Type} (R : α → β → Prop) {p p' : Input → Prop} (r : α × Subtype p) (r' : β × Subtype p') :
    Prop where
  read : R r.1 r'.1
  rest : K.Inputs r.2.1 r'.2.1

/-- Reading positional arguments fails where it fails in the other reading. Or it gives something else there, but
the named arguments behind it have a fault, and that is the one to compare. -/
inductive Positional (f' : Fence) {p p' : Input → Prop} (x : Except Fault (List Expression × Subtype p))
    (x' : Except Fault (List Expression × Subtype p')) : Prop
  | alike : Alike K.fault (K.Reread (K.Same relocatePositional)) x x' → Positional f' x x'
  | parted {fault fault' : Fault} {es : List Expression} {j : Subtype p'} : x = .error fault → x' = .ok (es, j) →
      namedArguments f' [] j.1 = .error fault' → K.fault fault fault' → Positional f' x x'

/-- What the ends of the two readings have to agree in: where they are, what a fault finds there, how offsets make
locations, and that where the readings have parted both fail. -/
structure Fits (f f' : Fence) : Prop where
  position : K.offset f.position f'.position
  found : ∀ e, K.fault (.unexpected f.position e f.found) (.unexpected f'.position e f'.found)
  locate : ∀ {o p o' p' : Nat}, K.offset o o' → K.offset p p' → K.view' (f'.locate o' p') = K.view (f.locate o p)
  positional : ∀ {i i' : Input}, K.parted i.lexemes i'.lexemes →
    K.Positional f' (positionalArguments f i) (positionalArguments f' i')
  named : ∀ {i i' : Input} (seen : List String), K.parted i.lexemes i'.lexemes →
    ∃ fault fault', namedArguments f seen i = .error fault ∧ namedArguments f' seen i' = .error fault' ∧
      K.fault fault fault'

end Likeness

/-- Reading on after something that is read: if this is alike, and whatever is read from there on, then the whole is. -/
theorem Alike.read {α α' β β' : Type} {K : Likeness} {R : α → α' → Prop} {S : β → β' → Prop} {p p' : Input → Prop}
    {x : Except Fault (α × Subtype p)} {x' : Except Fault (α' × Subtype p')} {g : α × Subtype p → Except Fault β}
    {g' : α' × Subtype p' → Except Fault β'} (h : Alike K.fault (K.Reread R) x x')
    (hg : ∀ (a : α) (a' : α') (j j' : Input) (hj : p j) (hj' : p' j'), R a a' → K.Inputs j j' →
      Alike K.fault S (g (a, ⟨j, hj⟩)) (g' (a', ⟨j', hj'⟩))) : Alike K.fault S (x >>= g) (x' >>= g') := by
  refine h.bind ?_
  rintro ⟨a, j, hj⟩ ⟨a', j', hj'⟩ ⟨ha, hrest⟩
  exact hg a a' j j' hj hj' ha hrest

/-! ## Tokens -/

section Tokens

variable {K : Likeness} {f f' : Fence} {i i' : Input} {e : Expected}

/-- Readings part behind nothing but what opens an argument. -/
theorem Likeness.Behind.inputs {t : Token} (h : K.Behind t i i') (ht : t.opensArgument = false) : K.Inputs i i' := by
  rcases h with hinputs | ⟨hopens, -⟩
  · exact hinputs
  · rw [ht] at hopens
    cases hopens

namespace Likeness.Inputs

/-- Both readings see a token of one kind next, or none. -/
theorem next? (hi : K.Inputs i i') :
    (i.next? = none ∧ i'.next? = none) ∨ ∃ t span span' j j' hj hj',
      i.next? = some (⟨t, span⟩, ⟨j, hj⟩) ∧ i'.next? = some (⟨t, span'⟩, ⟨j', hj'⟩) ∧
        K.lexeme ⟨t, span⟩ ⟨t, span'⟩ ∧ K.Behind t j j' := by
  obtain ⟨lexemes, readTo⟩ := i
  obtain ⟨lexemes', readTo'⟩ := i'
  obtain ⟨htokens, hread⟩ := hi
  simp only at htokens hread
  have hnext (l l' : Lexeme) (ls ls' : List Lexeme) (hl : K.lexeme l l')
      (hrest : K.offset (if l.token.isMarker then readTo else l.span.stop)
        (if l.token.isMarker then readTo' else l'.span.stop) →
        K.Behind l.token ⟨ls, if l.token.isMarker then readTo else l.span.stop⟩
          ⟨ls', if l.token.isMarker then readTo' else l'.span.stop⟩) :
      ∃ t span span' j j' hj hj', Input.next? ⟨l :: ls, readTo⟩ = some (⟨t, span⟩, ⟨j, hj⟩) ∧
        Input.next? ⟨l' :: ls', readTo'⟩ = some (⟨t, span'⟩, ⟨j', hj'⟩) ∧
          K.lexeme ⟨t, span⟩ ⟨t, span'⟩ ∧ K.Behind t j j' := by
    obtain ⟨t, span⟩ := l
    obtain ⟨t', span'⟩ := l'
    obtain rfl : t' = t := K.token hl
    refine ⟨t', span, span', _, _, _, _, rfl, rfl, hl, hrest ?_⟩
    split
    · exact hread
    · exact K.stop hl
  cases htokens with
  | nil => exact .inl ⟨rfl, rfl⟩
  | cons hl hls => exact .inr (hnext _ _ _ _ hl fun hread => .inl ⟨hls, hread⟩)
  | parts hl hopens hls => exact .inr (hnext _ _ _ _ hl fun _ => .inr ⟨hopens, hls⟩)

theorem peek? (hi : K.Inputs i i') : i'.peek? = i.peek? := by
  obtain ⟨lexemes, readTo⟩ := i
  obtain ⟨lexemes', readTo'⟩ := i'
  cases hi.tokens with
  | nil => rfl
  | cons hl _ => exact congrArg some (K.token hl)
  | parts hl _ _ => exact congrArg some (K.token hl)

theorem isEmpty (hi : K.Inputs i i') : i'.lexemes.isEmpty = i.lexemes.isEmpty := by
  obtain ⟨lexemes, readTo⟩ := i
  obtain ⟨lexemes', readTo'⟩ := i'
  cases hi.tokens <;> rfl

/-- Both see a token that may be missing, or neither does. -/
theorem takes (hi : K.Inputs i i') {t : Token} {b b' : Bool} {j j' : Input} (ht : t.opensArgument = false)
    (h : i.Takes t b j) (h' : i'.Takes t b' j') : b' = b ∧ K.Inputs j j' := by
  cases h with
  | read hnext =>
    cases h' with
    | read hnext' =>
      rcases hi.next? with ⟨hnone, -⟩ | ⟨_, _, _, _, _, _, _, hsome, hsome', -, hrest⟩
      · cases hnext.symm.trans hnone
      · cases hnext.symm.trans hsome
        cases hnext'.symm.trans hsome'
        exact ⟨rfl, hrest.inputs ht⟩
    | missing hpeek => exact absurd (hi.peek?.trans (Input.peek?_of_next? hnext)) hpeek
  | missing hpeek =>
    cases h' with
    | read hnext' => exact absurd (hi.peek?.symm.trans (Input.peek?_of_next? hnext')) hpeek
    | missing => exact ⟨rfl, hi⟩

/-- The next tokens begin at offsets that stand for each other. -/
theorem offset (hi : K.Inputs i i') (hf : K.Fits f f') : K.offset (f.offset i) (f'.offset i') := by
  obtain ⟨lexemes, readTo⟩ := i
  obtain ⟨lexemes', readTo'⟩ := i'
  cases hi.tokens with
  | nil => exact hf.position
  | cons hl _ => exact K.start hl
  | parts hl _ _ => exact K.start hl

/-- A name that is read next begins at offsets that the grammar may compare. -/
theorem touch (hi : K.Inputs i i') {name : String} (hname : i.peek? = some (.identifier name)) :
    K.touch (f.offset i) (f'.offset i') := by
  obtain ⟨lexemes, readTo⟩ := i
  obtain ⟨lexemes', readTo'⟩ := i'
  have htouches (l : Lexeme) (h : l.token = .identifier name) : l.token.touches = true := by
    rw [h]
    rfl
  cases hi.tokens with
  | nil => cases hname
  | cons hl _ => exact K.touchStart hl (htouches _ (Option.some.inj hname))
  | parts hl _ _ => exact K.touchStart hl (htouches _ (Option.some.inj hname))

/-- Something else than what is expected stands next. -/
theorem fault (hi : K.Inputs i i') (hf : K.Fits f f') {α β : Type} {R : α → β → Prop} :
    Alike K.fault R (.error (f.fault i e)) (.error (f'.fault i' e)) := by
  have hoffset := hi.offset hf
  obtain ⟨lexemes, readTo⟩ := i
  obtain ⟨lexemes', readTo'⟩ := i'
  refine .error ?_
  rw [Fence.fault, Fence.fault]
  cases hi.tokens with
  | nil => exact hf.found e
  | cons hl _ =>
    simp only [K.token hl]
    exact K.unexpected hoffset
  | parts hl _ _ =>
    simp only [K.token hl]
    exact K.unexpected hoffset

end Likeness.Inputs

/-- Something that is read cannot stand where it does. -/
theorem like_unexpected {o o' : Nat} {found : Found} (h : K.offset o o') {α β : Type} {R : α → β → Prop} :
    Alike K.fault R (.error (.unexpected o e found)) (.error (.unexpected o' e found)) := .error (K.unexpected h)

/-- The token at a location is located alike. -/
theorem Likeness.Fits.located (hf : K.Fits f f') {l l' : Lexeme} (hl : K.lexeme l l') :
    K.view' (f'.lines.locate l'.span) = K.view (f.lines.locate l.span) := hf.locate (K.start hl) (K.stop hl)

theorem Likeness.spans_of_lexeme {l l' : Lexeme} (hl : K.lexeme l l') : K.Spans l.span l'.span :=
  ⟨K.start hl, K.stop hl⟩

/-- The readings stand behind the token that both expect, if they see it. -/
theorem like_expect_behind {t : Token} (hf : K.Fits f f') (hi : K.Inputs i i') :
    Alike K.fault (fun r r' => K.Spans r.1 r'.1 ∧ K.Behind t r.2.1 r'.2.1) (f.expect t e i) (f'.expect t e i') := by
  unfold Fence.expect
  rcases hi.next? with ⟨hnone, hnone'⟩ | ⟨u, span, span', j, j', hlt, hlt', hnext, hnext', hl, hj⟩
  · rw [hnone, hnone']
    exact hi.fault hf
  · rw [hnext, hnext']
    by_cases ht : u = t
    · simp only [if_pos ht]
      exact .ok ⟨K.spans_of_lexeme hl, ht ▸ hj⟩
    · simp only [if_neg ht]
      exact hi.fault hf

/-- A token that is asked for is read alike. Behind one that opens an argument the readings may part, so for these there
is no such lemma. -/
theorem like_expect {t : Token} (ht : t.opensArgument = false) (hf : K.Fits f f') (hi : K.Inputs i i') :
    Alike K.fault (K.Reread K.Spans) (f.expect t e i) (f'.expect t e i') := by
  refine (like_expect_behind hf hi).mono (fun _ _ h => h) ?_
  intro r r' hr
  exact ⟨hr.1, hr.2.inputs ht⟩

theorem like_identifier (hf : K.Fits f f') (hi : K.Inputs i i') :
    Alike K.fault (K.Reread K.Identifiers) (f.identifier e i) (f'.identifier e i') := by
  unfold Fence.identifier
  rcases hi.next? with ⟨hnone, hnone'⟩ | ⟨t, span, span', j, j', hlt, hlt', hnext, hnext', hl, hj⟩
  · rw [hnone, hnone']
    exact hi.fault hf
  · rw [hnext, hnext']
    cases t with
    | identifier name =>
      have hsame : K.Same Identifier.relocate ⟨name, f.lines.locate span⟩ ⟨name, f'.lines.locate span'⟩ :=
        congrArg (Identifier.mk name) (hf.located hl)
      exact .ok ⟨⟨⟨hsame, K.spans_of_lexeme hl⟩, K.touchStop hl rfl⟩, hj.inputs rfl⟩
    | _ => exact hi.fault hf

/-- Without an identifier there is a fault at any offset. -/
theorem identifierAt_of_not_identifier (h : ∀ name, i.peek? ≠ some (.identifier name)) (o : Nat) :
    f.identifierAt o e i = .error (f.fault i e) := by
  have hfault : f.identifier e i = .error (f.fault i e) := by
    obtain ⟨lexemes, readTo⟩ := i
    cases lexemes with
    | nil => rfl
    | cons l ls =>
      obtain ⟨t, span⟩ := l
      cases t with
      | identifier name => exact absurd rfl (h name)
      | _ => rfl
  rw [Fence.identifierAt, hfault, ite_self]

/-- An identifier that has to touch what stands in front of it is read alike, since offsets that the grammar compares
are matched one to one. -/
theorem like_identifierAt (hf : K.Fits f f') (hi : K.Inputs i i') {o o' : Nat} (ho : K.touch o o') :
    Alike K.fault (K.Reread K.Identifiers) (f.identifierAt o e i) (f'.identifierAt o' e i') := by
  by_cases hname : ∃ name, i.peek? = some (.identifier name)
  · obtain ⟨name, hname⟩ := hname
    have hstart : f.offset i = o ↔ f'.offset i' = o' := K.touch_iff (hi.touch hname) ho
    unfold Fence.identifierAt
    by_cases h : f.offset i = o
    · rw [if_pos h, if_pos (hstart.1 h)]
      exact like_identifier hf hi
    · rw [if_neg h, if_neg (mt hstart.2 h)]
      exact hi.fault hf
  · have hname' : ∀ name, i.peek? ≠ some (.identifier name) := not_exists.1 hname
    rw [identifierAt_of_not_identifier hname', identifierAt_of_not_identifier (by rwa [hi.peek?])]
    exact hi.fault hf

theorem like_number (hf : K.Fits f f') (hi : K.Inputs i i') :
    Alike K.fault (K.Reread (K.Located NumberLiteral.relocate NumberLiteral.location)) (f.number i e)
      (f'.number i' e) := by
  unfold Fence.number
  rcases hi.next? with ⟨hnone, hnone'⟩ | ⟨t, span, span', j, j', hlt, hlt', hnext, hnext', hl, hj⟩
  · rw [hnone, hnone']
    exact hi.fault hf
  · rw [hnext, hnext']
    cases t with
    | number raw =>
      simp only
      cases Binary64.read? raw.toList with
      | none => exact like_unexpected (K.start hl)
      | some value =>
        have hsame : K.Same NumberLiteral.relocate ⟨raw, value, f.lines.locate span⟩
            ⟨raw, value, f'.lines.locate span'⟩ := congrArg (NumberLiteral.mk raw value) (hf.located hl)
        exact .ok ⟨⟨hsame, K.spans_of_lexeme hl⟩, hj.inputs rfl⟩
    | _ => exact hi.fault hf

/-- A dot at an offset and the name behind it are read alike; whether the dot is at the offset is the same in both
readings. -/
theorem like_accessor (hf : K.Fits f f') (hi : K.Inputs i i') {o o' : Nat} (ho : K.touch o o') :
    Alike K.fault (K.Reread (K.Same fun g => Option.map (Identifier.relocate g))) (f.accessor o i)
      (f'.accessor o' i') := by
  unfold Fence.accessor
  rcases hi.next? with ⟨hnone, hnone'⟩ | ⟨t, span, span', j, j', hlt, hlt', hnext, hnext', hl, hj⟩
  · rw [hnone, hnone']
    exact .ok ⟨rfl, hi⟩
  · rw [hnext, hnext']
    cases t with
    | dot =>
      have hstart : span.start = o ↔ span'.start = o' := K.touch_iff (K.touchStart hl rfl) ho
      simp only
      by_cases h : span.start = o
      · rw [if_pos h, if_pos (hstart.1 h)]
        refine (like_identifierAt hf (hj.inputs rfl) (K.touchStop hl rfl)).read ?_
        intro id id' k k' hk hk' hid hrest
        exact .ok ⟨congrArg some hid.located.same, hrest⟩
      · rw [if_neg h, if_neg (mt hstart.2 h)]
        exact .ok ⟨rfl, hi⟩
    | _ => exact .ok ⟨rfl, hi⟩

theorem like_variantKey (hf : K.Fits f f') (hi : K.Inputs i i') :
    Alike K.fault (K.Reread (K.Same VariantKey.relocate)) (variantKey f i) (variantKey f' i') := by
  have hid := like_identifier (e := .variantKey) hf hi
  have hnumber := like_number (e := .variantKey) hf hi
  unfold variantKey
  rw [hi.peek?]
  split
  · refine hid.read ?_
    intro id id' j j' hj hj' hid hrest
    exact .ok ⟨congrArg VariantKey.identifier hid.located.same, hrest⟩
  · refine hnumber.read ?_
    intro n n' j j' hj hj' hn hrest
    exact .ok ⟨congrArg VariantKey.number hn.same, hrest⟩
  · exact hi.fault hf

/-- Variants that agree one by one agree as a list. -/
theorem Likeness.relocateVariants_of_forall₂ (K : Likeness) {vs vs' : List Variant}
    (h : List.Forall₂ (K.Located Variant.relocate Variant.location) vs vs') : K.Same relocateVariants vs vs' := by
  rw [Same, relocateVariants_eq, relocateVariants_eq]
  induction h with
  | nil => rfl
  | @cons v v' vs vs' hv _ ih => rw [List.map_cons, List.map_cons, hv.same, ih]

/-- What elements agree in, their locations do. -/
theorem Likeness.Same.locations {es es' : List PatternElement} (h : K.Same relocateElements es es') :
    (es'.map (·.location)).map K.view' = (es.map (·.location)).map K.view := by
  have hlocations (g : Location → Location) (es : List PatternElement) :
      (relocateElements g es).map (·.location) = (es.map (·.location)).map g := by
    rw [relocateElements_eq, List.map_map, List.map_map]
    exact List.map_congr_left fun e _ => e.location_relocate
  rw [← hlocations, ← hlocations]
  exact congrArg (List.map (·.location)) h

/-! ## Checks -/

/-- Whether exactly one variant is the default is told by the flags, which agree, and the fault that is reported
otherwise is at places that stand for each other. -/
theorem like_checkVariants (hf : K.Fits f f') (hi : K.Inputs i i') {vs vs' : List Variant}
    (hvs : List.Forall₂ (K.Located Variant.relocate Variant.location) vs vs') :
    Alike K.fault (fun _ _ => True) (checkVariants f i vs) (checkVariants f' i' vs') := by
  have hempty : vs'.isEmpty = vs.isEmpty := by
    cases hvs <;> rfl
  have hdefaults : List.Forall₂ (K.Located Variant.relocate Variant.location) (vs.filter (·.isDefault))
      (vs'.filter (·.isDefault)) := by
    refine List.rel_filter ?_ hvs
    intro v v' hv
    show v.isDefault = true ↔ v'.isDefault = true
    rw [← v'.isDefault_relocate, ← v.isDefault_relocate, hv.same]
  unfold checkVariants
  rw [hempty]
  split
  · exact hi.fault hf
  · generalize vs.filter (·.isDefault) = defaults, vs'.filter (·.isDefault) = defaults' at hdefaults
    -- no default, the one that there has to be, or more than one
    cases hdefaults with
    | nil => exact like_unexpected (hi.offset hf)
    | cons _ hrest =>
      cases hrest with
      | nil => exact .ok trivial
      | cons hsecond _ => exact like_unexpected hsecond.spans.start

theorem like_checkSelector {e e' : Expression} (he : K.Located Expression.relocate Expression.location e e') :
    Alike K.fault (fun _ _ => True) (checkSelector e) (checkSelector e') := by
  have hselector : e'.isSelector = e.isSelector := by
    rw [← e'.isSelector_relocate, ← e.isSelector_relocate]
    exact congrArg Expression.isSelector he.same
  have hdescribe : e'.describe = e.describe := by
    rw [← e'.describe_relocate, ← e.describe_relocate]
    exact congrArg Expression.describe he.same
  unfold checkSelector
  rw [hselector, hdescribe]
  split
  · exact .ok trivial
  · exact like_unexpected he.spans.start

theorem like_checkPlaced {e e' : Expression} (he : K.Located Expression.relocate Expression.location e e') :
    Alike K.fault (fun _ _ => True) (checkPlaced e) (checkPlaced e') := by
  have hattribute : e'.isTermAttribute = e.isTermAttribute := by
    rw [← e'.isTermAttribute_relocate, ← e.isTermAttribute_relocate]
    exact congrArg Expression.isTermAttribute he.same
  rw [checkPlaced_eq, checkPlaced_eq, hattribute]
  split
  · exact like_unexpected he.spans.start
  · exact .ok trivial

end Tokens

/-- The text of a string literal has the same meaning wherever it stands, or the same bad escape in it. -/
theorem unescape_elsewhere (o o' : Nat) (cs : List Char) :
    (∃ value, Text.unescape o cs = .ok value ∧ Text.unescape o' cs = .ok value) ∨
      ∃ k text, k + byteCount text ≤ byteCount cs ∧
        Text.unescape o cs = .error ⟨⟨o + k, o + k + byteCount text⟩, text⟩ ∧
        Text.unescape o' cs = .error ⟨⟨o' + k, o' + k + byteCount text⟩, text⟩ := by
  rcases Text.exists_units cs with ⟨value, hvalue⟩ | ⟨front, stop, value, rfl, hfront, hstop⟩
  · exact .inl ⟨value, Text.unescape_eq_ok_iff.2 hvalue, Text.unescape_eq_ok_iff.2 hvalue⟩
  · obtain ⟨rest, hrest⟩ := Text.reported_prefix stop
    refine .inr ⟨byteCount front, Text.reported stop, ?_,
      Text.unescape_eq_error_iff.2 ⟨front, stop, value, rfl, hfront, hstop, rfl⟩,
      Text.unescape_eq_error_iff.2 ⟨front, stop, value, rfl, hfront, hstop, rfl⟩⟩
    conv_rhs => rw [← hrest]
    rw [byteCount_append, byteCount_append]
    omega

end Fluent
