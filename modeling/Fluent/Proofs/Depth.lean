import Fluent.Proofs.Phrase

/-!
# How deep placeables and argument lists stand

The depth of a placeable or an argument list is the number of placeables and argument lists around it, itself
included. A variant stands as deep as the placeable that it is part of.

A tree shows the depths, and so do its tokens: reading them one by one, a stack tells which constructs are open, and
a brace or a parenthesis makes it higher. On the tokens that the grammar takes both come to the same.

* `Entry.depths`: the depths of the placeables and argument lists of an entry.
* `stackAfter`, `depthsFrom`: the stack of open constructs, and the depths that some tokens reach.
* `Derives.depthsFrom_eq`: what is derived has the depths that its tokens reach.
* `Entry.Derived.depths_eq`: the same of an entry.
-/

namespace Fluent

/-! ## Depths in a tree -/

mutual

/-- The depths of the placeables and argument lists in an expression that has some of them around it. -/
def Expression.depths (around : Nat) : Expression → List Nat
  | .string .. | .number _ | .variableRef .. | .messageRef .. | .termRef _ _ none _ => []
  | .termRef _ _ (some a) _ => a.depths around
  | .functionRef _ a _ => a.depths around
  | .select e vs _ => e.depths around ++ variantsDepths around vs
  | .placeable p => p.depths around

def Placeable.depths (around : Nat) : Placeable → List Nat
  | ⟨e, _⟩ => (around + 1) :: e.depths (around + 1)

def CallArguments.depths (around : Nat) : CallArguments → List Nat
  | ⟨es, as, _⟩ => (around + 1) :: (positionalDepths (around + 1) es ++ namedDepths (around + 1) as)

def positionalDepths (around : Nat) : List Expression → List Nat
  | [] => []
  | e :: es => e.depths around ++ positionalDepths around es

def namedDepths (around : Nat) : List NamedArgument → List Nat
  | [] => []
  | a :: as => a.depths around ++ namedDepths around as

def NamedArgument.depths (around : Nat) : NamedArgument → List Nat
  | ⟨_, e, _⟩ => e.depths around

def variantsDepths (around : Nat) : List Variant → List Nat
  | [] => []
  | v :: vs => v.depths around ++ variantsDepths around vs

def Variant.depths (around : Nat) : Variant → List Nat
  | ⟨_, p, _, _⟩ => p.depths around

def Pattern.depths (around : Nat) : Pattern → List Nat
  | ⟨es, _⟩ => elementsDepths around es

def elementsDepths (around : Nat) : List PatternElement → List Nat
  | [] => []
  | e :: es => e.depths around ++ elementsDepths around es

def PatternElement.depths (around : Nat) : PatternElement → List Nat
  | .text _ => []
  | .placeable p => p.depths around

end

def valueDepths : Option Pattern → List Nat
  | none => []
  | some p => p.depths 0

/-- The depths of the placeables and argument lists of an entry, in source order. -/
def Entry.depths : Entry → List Nat
  | message m => valueDepths m.value ++ m.attributes.flatMap fun a => a.value.depths 0
  | term t => t.value.depths 0 ++ t.attributes.flatMap fun a => a.value.depths 0
  | comment _ | junk _ => []

/-! ## Depths in a token stream -/

/-- A construct that some tokens leave open. A stack of them tells how deep the next placeable or argument list is
nested, before it is opened. -/
inductive Open where
  | value
  | placeable
  | arguments
  | variants
  /-- The brackets of a variant, before its key. -/
  | key
  deriving DecidableEq, Repr

namespace Open

/-- A construct that counts towards the depth. -/
def nests : Open → Bool
  | placeable | arguments | variants => true
  | value | key => false

/-- A construct that an expression stands in. -/
def holdsExpression : Open → Bool
  | placeable | arguments => true
  | _ => false

/-- A construct that a placeable stands in. -/
def holdsPlaceable : Open → Bool
  | value | placeable | arguments => true
  | _ => false

/-- What a token makes of the innermost construct; an arrow makes a placeable one of variants. -/
def after : Open → Token → List Open
  | value, .openBrace => [placeable, value]
  | value, .patternEnd => []
  | placeable, .openBrace => [placeable, placeable]
  | placeable, .openParen => [arguments, placeable]
  | placeable, .arrow => [variants]
  | placeable, .closeBrace => []
  | arguments, .openBrace => [placeable, arguments]
  | arguments, .openParen => [arguments, arguments]
  | arguments, .closeParen => []
  | variants, .openBracket => [key, variants]
  | variants, .closeBrace => []
  | key, _ => []
  | c, _ => [c]

theorem holdsPlaceable_of_holdsExpression {c : Open} (h : c.holdsExpression = true) : c.holdsPlaceable = true := by
  cases c <;> first | rfl | cases h

end Open

/-- The open constructs behind a token, the innermost first. -/
def stackAfter (t : Token) (st : List Open) : List Open :=
  if t = .patternStart then .value :: st
  else
    match st with
    | [] => []
    | c :: st => c.after t ++ st

/-- The depth below some open constructs. -/
def openDepth (st : List Open) : Nat := st.countP Open.nests

/-- The depth that is reached if a stack becomes higher. -/
def reached (st st' : List Open) : List Nat := if openDepth st < openDepth st' then [openDepth st'] else []

/-- The depths that tokens reach. -/
def depthsFrom : List Open → List Token → List Nat
  | _, [] => []
  | st, t :: ts => reached st (stackAfter t st) ++ depthsFrom (stackAfter t st) ts

/-- The open constructs behind some tokens. -/
def stackBehind (st : List Open) (ts : List Token) : List Open := ts.foldl (fun st t => stackAfter t st) st

theorem depthsFrom_append (st : List Open) (ts us : List Token) :
    depthsFrom st (ts ++ us) = depthsFrom st ts ++ depthsFrom (stackBehind st ts) us := by
  induction ts generalizing st with
  | nil => rfl
  | cons t ts ih => rw [List.cons_append, depthsFrom, depthsFrom, ih, List.append_assoc]; rfl

theorem openDepth_cons {c : Open} (st : List Open) (hc : c.nests = true) : openDepth (c :: st) = openDepth st + 1 :=
  List.countP_cons_of_pos hc

theorem reached_cons {c : Open} (st : List Open) (hc : c.nests = true) : reached st (c :: st) = [openDepth st + 1] := by
  rw [reached, openDepth_cons st hc, if_pos (Nat.lt_succ_self _)]

/-- Nothing is reached unless the stack becomes higher. -/
theorem reached_of_le {st st' : List Open} (h : openDepth st' ≤ openDepth st) : reached st st' = [] :=
  if_neg (Nat.not_lt.2 h)

/-- A token that means something for the constructs around it: all but text. -/
def Lexeme.sign? (l : Lexeme) : Option Token :=
  match l.token with
  | .pureText _ => none
  | t => some t

/-- The tokens still to be read, but for text. -/
def Input.signs (i : Input) : List Token := i.lexemes.filterMap Lexeme.sign?

/-! ## Depths of what is derived -/

section

variable {m : LineMap} {i j k : Input} {st : List Open} {c : Open} {t : Token} {span : Span}

theorem Input.Spends.signs_eq (h : i.Spends [⟨t, span⟩] j) (ht : Lexeme.sign? ⟨t, span⟩ = some t) :
    i.signs = t :: j.signs := by
  rw [signs, signs, h.lexemes, List.singleton_append, List.filterMap_cons_some ht]

/-- A token that opens something deeper. -/
theorem Input.Spends.depths_open (h : i.Spends [⟨t, span⟩] j) (ht : Lexeme.sign? ⟨t, span⟩ = some t)
    (hst : stackAfter t st = c :: st) (hc : c.nests = true) :
    depthsFrom st i.signs = (openDepth st + 1) :: depthsFrom (c :: st) j.signs := by
  rw [h.signs_eq ht, depthsFrom, hst, reached_cons st hc]
  rfl

/-- A token that opens nothing deeper. -/
theorem Input.Spends.depths_pass (h : i.Spends [⟨t, span⟩] j) (ht : Lexeme.sign? ⟨t, span⟩ = some t)
    {st' : List Open} (hst : stackAfter t st = st') (hle : openDepth st' ≤ openDepth st) :
    depthsFrom st i.signs = depthsFrom st' j.signs := by
  rw [h.signs_eq ht, depthsFrom, hst, reached_of_le hle, List.nil_append]

/-- A token that leaves the stack as it is. -/
theorem Input.Spends.depths_still (h : i.Spends [⟨t, span⟩] j) (ht : Lexeme.sign? ⟨t, span⟩ = some t)
    (hst : stackAfter t st = st) : depthsFrom st i.signs = depthsFrom st j.signs :=
  h.depths_pass ht hst (Nat.le_refl _)

/-- A token that closes the innermost construct. -/
theorem Input.Spends.depths_close (h : i.Spends [⟨t, span⟩] j) (c : Open) (st : List Open)
    (ht : Lexeme.sign? ⟨t, span⟩ = some t) (hst : stackAfter t (c :: st) = st) :
    depthsFrom (c :: st) i.signs = depthsFrom st j.signs :=
  h.depths_pass ht hst (List.sublist_cons_self c st).countP_le

/-- A part of an expression that is no brace and no parenthesis. -/
def Token.isPlain : Token → Bool
  | string _ | number _ | identifier _ | dollar | minus | dot | comma | colon | endPositional => true
  | _ => false

/-- Where expressions stand such a token changes nothing. -/
theorem stackAfter_plain (hc : c.holdsExpression = true) (ht : t.isPlain = true) (st : List Open) :
    stackAfter t (c :: st) = c :: st := by
  cases c with
  | placeable | arguments => cases t <;> first | rfl | cases ht
  | value | variants | key => cases hc

theorem stackAfter_openBrace (hc : c.holdsPlaceable = true) (st : List Open) :
    stackAfter .openBrace (c :: st) = .placeable :: c :: st := by
  cases c <;> first | rfl | cases hc

theorem stackAfter_openParen (hc : c.holdsExpression = true) (st : List Open) :
    stackAfter .openParen (c :: st) = .arguments :: c :: st := by
  cases c <;> first | rfl | cases hc

/-- The stack that a phrase begins with, and the one that it ends with. Most phrases leave it as it is; named arguments
close the list around them, and elements the value that they belong to. -/
def Phrase.Spans : Phrase → List Open → List Open → Prop
  | inline _, st, st' | arguments _, st, st' => st' = st ∧ ∃ c st₀, st = c :: st₀ ∧ c.holdsExpression = true
  | placeable _, st, st' => st' = st ∧ ∃ c st₀, st = c :: st₀ ∧ c.holdsPlaceable = true
  | positional _, st, st' => st' = st ∧ ∃ st₀, st = .arguments :: st₀
  | named .., st, st' => st = .arguments :: st'
  | variants _, st, st' | variant _, st, st' => st' = st ∧ ∃ st₀, st = .variants :: st₀
  | pattern _, st, st' => st' = st ∧ st.head? ≠ some .key
  | elements _, st, st' => st = .value :: st'
  | oneAttribute _, st, st' | attributes _, st, st' => st = [] ∧ st' = []

/-- The depths of the placeables and argument lists in a phrase. -/
def Phrase.depths (around : Nat) : Phrase → List Nat
  | inline e => e.depths around
  | placeable p => p.depths around
  | arguments a => a.depths around
  | positional es => positionalDepths around es
  | named _ as _ => namedDepths around as
  | variants vs => variantsDepths around vs
  | variant v => v.depths around
  | pattern none => []
  | pattern (some p) => p.depths around
  | elements es => elementsDepths around es
  | oneAttribute a => a.value.depths around
  | attributes as => as.flatMap fun a => a.value.depths around

theorem depths_accessor {offset : Nat} {accessor : Option Identifier}
    (h : Input.SpendsAccessor m offset i accessor j) (hc : c.holdsExpression = true) :
    depthsFrom (c :: st) i.signs = depthsFrom (c :: st) j.signs := by
  cases h with
  | none => rfl
  | some hdot _ hid _ =>
    rw [hdot.depths_still rfl (stackAfter_plain hc rfl st), hid.1.depths_still rfl (stackAfter_plain hc rfl st)]

/-- The marker of a value opens nothing deeper. -/
theorem Input.Spends.depths_start (h : i.Spends [⟨.patternStart, span⟩] j) :
    depthsFrom st i.signs = depthsFrom (.value :: st) j.signs := h.depths_pass rfl rfl (Nat.le_refl _)

theorem depths_arrow (h : i.Spends [⟨.arrow, span⟩] j) :
    depthsFrom (.placeable :: st) i.signs = depthsFrom (.variants :: st) j.signs :=
  h.depths_pass rfl rfl (Nat.le_refl _)

theorem depths_key {key : VariantKey} (h : i.SpendsKey m key j) :
    depthsFrom (.key :: st) i.signs = depthsFrom st j.signs := by
  cases h with
  | identifier hid => exact hid.1.depths_pass rfl rfl (Nat.le_refl _)
  | number hnumber => exact hnumber.1.depths_pass rfl rfl (Nat.le_refl _)

theorem depths_bracket {isDefault : Bool} {start : Nat} (h : i.SpendsBracket isDefault start j) :
    depthsFrom (.variants :: st) i.signs = depthsFrom (.key :: .variants :: st) j.signs := by
  cases h with
  | plain hbracket => exact hbracket.depths_pass rfl rfl (Nat.le_refl _)
  | starred hstar hbracket =>
    rw [hstar.depths_still rfl rfl]
    exact hbracket.depths_pass rfl rfl (Nat.le_refl _)

theorem stackAfter_patternSkip (h : st.head? ≠ some .key) : stackAfter .patternSkip st = st := by
  cases st with
  | nil => rfl
  | cons c st => cases c <;> first | rfl | exact absurd rfl h

/-- **What is derived has the depths that its tokens reach.** -/
theorem Derives.depthsFrom_eq {p : Phrase} (h : Derives m i p j) {st st' : List Open} (hst : p.Spans st st') :
    depthsFrom st i.signs = p.depths (openDepth st) ++ depthsFrom st' j.signs := by
  -- by induction on what is derived, for every stack of what is open around it
  induction h generalizing st st' with
  | string hstring _ =>
    obtain ⟨rfl, c, st, rfl, hc⟩ := hst
    exact hstring.depths_still rfl (stackAfter_plain hc rfl st)
  | number hnumber =>
    obtain ⟨rfl, c, st, rfl, hc⟩ := hst
    exact hnumber.1.depths_still rfl (stackAfter_plain hc rfl st)
  | variableRef hdollar hid _ =>
    obtain ⟨rfl, c, st, rfl, hc⟩ := hst
    rw [hdollar.depths_still rfl (stackAfter_plain hc rfl st), hid.1.depths_still rfl (stackAfter_plain hc rfl st)]
    rfl
  | term hminus hid _ haccessor _ =>
    obtain ⟨rfl, c, st, rfl, hc⟩ := hst
    rw [hminus.depths_still rfl (stackAfter_plain hc rfl st), hid.1.depths_still rfl (stackAfter_plain hc rfl st),
      depths_accessor haccessor hc]
    rfl
  | termCall hminus hid _ haccessor _ ih =>
    obtain ⟨rfl, c, st, rfl, hc⟩ := hst
    rw [hminus.depths_still rfl (stackAfter_plain hc rfl st), hid.1.depths_still rfl (stackAfter_plain hc rfl st),
      depths_accessor haccessor hc]
    exact ih ⟨rfl, c, st, rfl, hc⟩
  | message hid _ haccessor =>
    obtain ⟨rfl, c, st, rfl, hc⟩ := hst
    rw [hid.1.depths_still rfl (stackAfter_plain hc rfl st), depths_accessor haccessor hc]
    rfl
  | function hid _ _ ih =>
    obtain ⟨rfl, c, st, rfl, hc⟩ := hst
    rw [hid.1.depths_still rfl (stackAfter_plain hc rfl st)]
    exact ih ⟨rfl, c, st, rfl, hc⟩
  | nested _ ih =>
    obtain ⟨rfl, c, st, rfl, hc⟩ := hst
    exact ih ⟨rfl, c, st, rfl, Open.holdsPlaceable_of_holdsExpression hc⟩
  | select hopening _ harrow _ _ _ hclosing ihe ihvs =>
    -- the braces of a select open twice over: as the placeable, and as its variants from the arrow on
    obtain ⟨rfl, c, st, rfl, hc⟩ := hst
    rw [hopening.depths_open rfl (stackAfter_openBrace hc st) rfl, ihe ⟨rfl, _, _, rfl, rfl⟩,
      depths_arrow harrow, ihvs ⟨rfl, _, rfl⟩, hclosing.depths_close .variants (c :: st) rfl rfl]
    have hplaceable := openDepth_cons (c := .placeable) (c :: st) rfl
    have hvariants := openDepth_cons (c := .variants) (c :: st) rfl
    simp [Phrase.depths, Placeable.depths, Expression.depths, hplaceable, hvariants]
  | placeable hopening _ _ hclosing ih =>
    obtain ⟨rfl, c, st, rfl, hc⟩ := hst
    rw [hopening.depths_open rfl (stackAfter_openBrace hc st) rfl, ih ⟨rfl, _, _, rfl, rfl⟩,
      hclosing.depths_close .placeable (c :: st) rfl rfl]
    have hplaceable := openDepth_cons (c := .placeable) (c :: st) rfl
    simp [Phrase.depths, Placeable.depths, hplaceable]
  | arguments hopening _ _ ihes ihas =>
    obtain ⟨rfl, c, st, rfl, hc⟩ := hst
    rw [hopening.depths_open rfl (stackAfter_openParen hc st) rfl, ihes ⟨rfl, _, rfl⟩, ihas rfl]
    have harguments := openDepth_cons (c := .arguments) (c :: st) rfl
    simp [Phrase.depths, CallArguments.depths, harguments]
  | positionalEnd hmarker =>
    obtain ⟨rfl, st, rfl⟩ := hst
    exact hmarker.depths_still rfl rfl
  | positionalLast _ hmarker ih =>
    obtain ⟨rfl, st, rfl⟩ := hst
    rw [ih ⟨rfl, _, _, rfl, rfl⟩, hmarker.depths_still rfl rfl]
    simp [Phrase.depths, positionalDepths]
  | positionalCons _ hcomma _ ihe ihes =>
    obtain ⟨rfl, st, rfl⟩ := hst
    rw [ihe ⟨rfl, _, _, rfl, rfl⟩, hcomma.depths_still rfl rfl, ihes ⟨rfl, _, rfl⟩]
    simp [Phrase.depths, positionalDepths]
  | namedEnd hclosing =>
    obtain rfl := hst
    exact hclosing.depths_close .arguments st' rfl rfl
  | namedLast hname hcolon _ _ hclosing ih =>
    obtain rfl := hst
    rw [hname.1.depths_still rfl rfl, hcolon.depths_still rfl rfl, ih ⟨rfl, _, _, rfl, rfl⟩,
      hclosing.depths_close .arguments st' rfl rfl]
    simp [Phrase.depths, namedDepths, NamedArgument.depths]
  | namedCons hname hcolon _ _ hcomma _ ihe ihas =>
    obtain rfl := hst
    rw [hname.1.depths_still rfl rfl, hcolon.depths_still rfl rfl, ihe ⟨rfl, _, _, rfl, rfl⟩,
      hcomma.depths_still rfl rfl, ihas rfl]
    simp [Phrase.depths, namedDepths, NamedArgument.depths]
  | variantsEnd =>
    obtain ⟨rfl, -⟩ := hst
    rfl
  | variantsCons _ _ ihv ihvs =>
    obtain ⟨rfl, hst⟩ := hst
    rw [ihv ⟨rfl, hst⟩, ihvs ⟨rfl, hst⟩]
    simp [Phrase.depths, variantsDepths]
  | variant hbracket hkey hclosing _ ih =>
    obtain ⟨rfl, st, rfl⟩ := hst
    rw [depths_bracket hbracket, depths_key hkey, hclosing.depths_still rfl rfl, ih ⟨rfl, by simp⟩]
    rfl
  | noPattern hmarker =>
    obtain ⟨rfl, hkey⟩ := hst
    exact hmarker.depths_still rfl (stackAfter_patternSkip hkey)
  | pattern hmarker _ _ ih =>
    obtain ⟨rfl, -⟩ := hst
    rw [hmarker.depths_start, ih rfl]
    rfl
  | elementsEnd hmarker =>
    obtain rfl := hst
    exact hmarker.depths_pass rfl rfl (Nat.le_refl _)
  | elementsText htext _ ih =>
    -- a piece of text has no sign
    have hsigns := congrArg (List.filterMap Lexeme.sign?) htext.lexemes
    have hih := ih hst
    obtain rfl := hst
    rw [Input.signs, hsigns]
    exact hih
  | elementsPlaceable _ _ ihp ihes =>
    obtain rfl := hst
    rw [ihp ⟨rfl, _, _, rfl, rfl⟩, ihes rfl]
    simp [Phrase.depths, elementsDepths, PatternElement.depths]
  | oneAttribute hdot hid hequals _ ih =>
    obtain ⟨rfl, rfl⟩ := hst
    rw [hdot.depths_still rfl rfl, hid.1.depths_still rfl rfl, hequals.depths_still rfl rfl, ih ⟨rfl, by simp⟩]
    rfl
  | attributesEnd =>
    obtain ⟨rfl, rfl⟩ := hst
    rfl
  | attributesCons _ _ iha ihas =>
    obtain ⟨rfl, rfl⟩ := hst
    rw [iha ⟨rfl, rfl⟩, ihas ⟨rfl, rfl⟩]
    simp [Phrase.depths]

/-- **An entry has the depths that its tokens reach.** -/
theorem Entry.Derived.depths_eq {e : Entry} (h : e.Derived m i) : e.depths = depthsFrom [] i.signs := by
  have hnil {j : Input} (hj : j.lexemes = []) : depthsFrom [] j.signs = [] := by
    rw [Input.signs, hj]
    rfl
  cases h with
  | @message _ _ _ _ _ _ value _ hid hequals hvalue has hend _ =>
    rw [hid.1.depths_still rfl rfl, hequals.depths_still rfl rfl, hvalue.depthsFrom_eq ⟨rfl, by simp⟩,
      has.depthsFrom_eq ⟨rfl, rfl⟩, hnil hend, List.append_nil]
    cases value <;> rfl
  | term hminus hid hequals hvalue has hend =>
    rw [hminus.depths_still rfl rfl, hid.1.depths_still rfl rfl, hequals.depths_still rfl rfl,
      hvalue.depthsFrom_eq ⟨rfl, by simp⟩, has.depthsFrom_eq ⟨rfl, rfl⟩, hnil hend, List.append_nil]
    rfl

end

end Fluent
