import Fluent.Proofs.Excerpt
import Fluent.Proofs.Nested

/-!
# The parts of a tree

Patterns and placeables stand at any depth of an entry. Each of them was found by the grammar on its own, somewhere
among the tokens of the entry.

* `Part`, `Entry.parts`: the patterns and placeables of an entry.
* `Derives.part`: where the tokens of a part stand.
* `exists_run_of_part`: the tokens of a part of a resource are read by the machine.
-/

namespace Fluent

/-- A pattern or a placeable: what the trees of entries are searched for, at whatever depth it stands. -/
inductive Part where
  | pattern (p : Pattern)
  | placeable (p : Placeable)

/-- A part as what a function of the grammar finds. -/
def Part.phrase : Part → Phrase
  | pattern p => .pattern (some p)
  | placeable p => .placeable p

mutual

/-- The patterns and placeables in an expression. -/
def Expression.parts : Expression → List Part
  | .string .. | .number _ | .variableRef .. | .messageRef .. | .termRef _ _ none _ => []
  | .termRef _ _ (some a) _ => a.parts
  | .functionRef _ a _ => a.parts
  | .select e vs _ => e.parts ++ variantsParts vs
  | .placeable p => p.parts

def Placeable.parts : Placeable → List Part
  | ⟨e, location⟩ => .placeable ⟨e, location⟩ :: e.parts

def CallArguments.parts : CallArguments → List Part
  | ⟨positional, named, _⟩ => positionalParts positional ++ namedParts named

def positionalParts : List Expression → List Part
  | [] => []
  | e :: es => e.parts ++ positionalParts es

def namedParts : List NamedArgument → List Part
  | [] => []
  | a :: as => a.parts ++ namedParts as

def NamedArgument.parts : NamedArgument → List Part
  | ⟨_, value, _⟩ => value.parts

def variantsParts : List Variant → List Part
  | [] => []
  | v :: vs => v.parts ++ variantsParts vs

def Variant.parts : Variant → List Part
  | ⟨_, value, _, _⟩ => value.parts

def Pattern.parts : Pattern → List Part
  | ⟨elements, location⟩ => .pattern ⟨elements, location⟩ :: elementsParts elements

def elementsParts : List PatternElement → List Part
  | [] => []
  | e :: es => e.parts ++ elementsParts es

def PatternElement.parts : PatternElement → List Part
  | .text _ => []
  | .placeable p => p.parts

end

def valueParts : Option Pattern → List Part
  | none => []
  | some p => p.parts

/-- The patterns and placeables of a message or a term, those of its attributes included. -/
def Entry.parts : Entry → List Part
  | message m => valueParts m.value ++ m.attributes.flatMap (·.value.parts)
  | term t => t.value.parts ++ t.attributes.flatMap (·.value.parts)
  | _ => []

/-- The patterns of a resource, at any depth: values of messages, terms, attributes and variants. -/
def Resource.patterns (r : Resource) : List Pattern :=
  (r.body.flatMap Entry.parts).filterMap fun
    | .pattern p => some p
    | .placeable _ => none

/-- The placeables of a resource, at any depth. -/
def Resource.placeables (r : Resource) : List Placeable :=
  (r.body.flatMap Entry.parts).filterMap fun
    | .pattern _ => none
    | .placeable p => some p

theorem Resource.mem_patterns {r : Resource} {p : Pattern} (h : p ∈ r.patterns) :
    ∃ e ∈ r.body, .pattern p ∈ e.parts := by
  obtain ⟨q, hq, heq⟩ := List.mem_filterMap.1 h
  cases q with
  | pattern q => exact Option.some.inj heq ▸ List.mem_flatMap.1 hq
  | placeable q => cases heq

theorem Resource.mem_placeables {r : Resource} {p : Placeable} (h : p ∈ r.placeables) :
    ∃ e ∈ r.body, .placeable p ∈ e.parts := by
  obtain ⟨q, hq, heq⟩ := List.mem_filterMap.1 h
  cases q with
  | pattern q => cases heq
  | placeable q => exact Option.some.inj heq ▸ List.mem_flatMap.1 hq

/-! ## Where the tokens of a part stand -/

/-- The patterns and placeables of a phrase. -/
def Phrase.parts : Phrase → List Part
  | inline e => e.parts
  | placeable p => p.parts
  | arguments a => a.parts
  | positional es => positionalParts es
  | named _ as _ => namedParts as
  | variants vs => variantsParts vs
  | variant v => v.parts
  | pattern p => valueParts p
  | elements es => elementsParts es
  | oneAttribute a => a.value.parts
  | attributes as => as.flatMap (·.value.parts)

variable {m : LineMap} {i j k : Input} {q : Part} {p : Phrase}

theorem Input.Spends.suffix {ls : List Lexeme} (h : i.Spends ls j) : j.lexemes <:+ i.lexemes :=
  ⟨ls, h.lexemes.symm⟩

theorem Input.Writes.suffix {ts : List Token} (h : i.Writes ts j) : j.lexemes <:+ i.lexemes := by
  obtain ⟨ls, hspends, -⟩ := h
  exact hspends.suffix

/-- A part is derived from an input on whose tokens are the last ones of another. -/
def Part.DerivedWithin (m : LineMap) (i : Input) (q : Part) : Prop :=
  ∃ i' j', i'.lexemes <:+ i.lexemes ∧ Derives m i' q.phrase j'

theorem Part.DerivedWithin.mono (h : q.DerivedWithin m j) (hsuffix : j.lexemes <:+ i.lexemes) :
    q.DerivedWithin m i := by
  obtain ⟨i', j', hi', hderives⟩ := h
  exact ⟨i', j', hi'.trans hsuffix, hderives⟩

/-- **A part of what is derived is derived** from some input on in between. -/
theorem Derives.part (h : Derives m i p j) (hq : q ∈ p.parts) : q.DerivedWithin m i := by
  have hhere : ∀ {i j : Input} {r : Part}, Derives m i r.phrase j → q = r → q.DerivedWithin m i := by
    rintro i j r hderives rfl
    exact ⟨i, j, List.suffix_refl _, hderives⟩
  -- a select, a placeable and a pattern are parts themselves; the parts of all else are those of what it holds
  induction h with
  | string | number | variableRef | term | message | positionalEnd | namedEnd | variantsEnd | noPattern
  | elementsEnd | attributesEnd => cases hq
  | termCall hminus hid _ haccessor _ ih =>
    exact (ih hq).mono ((haccessor.writes.suffix.trans hid.writes.suffix).trans hminus.suffix)
  | function hid _ _ ih => exact (ih hq).mono hid.writes.suffix
  | nested _ ih => exact ih hq
  | select hopen he harrow hselector hvs hdefault hclose ihe ihvs =>
    rcases List.mem_cons.1 hq with heq | hq
    · exact hhere (r := .placeable _) (.select hopen he harrow hselector hvs hdefault hclose) heq
    rcases List.mem_append.1 hq with hq | hq
    · exact (ihe hq).mono hopen.suffix
    · exact (ihvs hq).mono ((harrow.suffix.trans he.writes.suffix).trans hopen.suffix)
  | placeable hopen he hplaced hclose ih =>
    rcases List.mem_cons.1 hq with heq | hq
    · exact hhere (r := .placeable _) (.placeable hopen he hplaced hclose) heq
    · exact (ih hq).mono hopen.suffix
  | arguments hopen hes has ihes ihas =>
    rcases List.mem_append.1 hq with hq | hq
    · exact (ihes hq).mono hopen.suffix
    · exact (ihas hq).mono (hes.writes.suffix.trans hopen.suffix)
  | positionalLast he _ ih =>
    rcases List.mem_append.1 hq with hq | hq
    · exact ih hq
    · cases hq
  | positionalCons he hcomma _ ihe ihes =>
    rcases List.mem_append.1 hq with hq | hq
    · exact ihe hq
    · exact (ihes hq).mono (hcomma.suffix.trans he.writes.suffix)
  | namedLast hname hcolon he _ _ ih =>
    rcases List.mem_append.1 hq with hq | hq
    · exact (ih hq).mono (hcolon.suffix.trans hname.writes.suffix)
    · cases hq
  | namedCons hname hcolon he _ hcomma _ ihe ihas =>
    have hvalue := hcolon.suffix.trans hname.writes.suffix
    rcases List.mem_append.1 hq with hq | hq
    · exact (ihe hq).mono hvalue
    · exact (ihas hq).mono ((hcomma.suffix.trans he.writes.suffix).trans hvalue)
  | variantsCons hv _ ihv ihvs =>
    rcases List.mem_append.1 hq with hq | hq
    · exact ihv hq
    · exact (ihvs hq).mono hv.writes.suffix
  | variant hbracket hkey hclose _ ih =>
    exact (ih hq).mono ((hclose.suffix.trans hkey.writes.suffix).trans hbracket.writes.suffix)
  | pattern hmarker hes hbox ih =>
    rcases List.mem_cons.1 hq with heq | hq
    · exact hhere (r := .pattern _) (.pattern hmarker hes hbox) heq
    · exact (ih hq).mono hmarker.suffix
  | elementsText htext _ ih => exact (ih hq).mono htext.suffix
  | elementsPlaceable hp _ ihp ihes =>
    rcases List.mem_append.1 hq with hq | hq
    · exact ihp hq
    · exact (ihes hq).mono hp.writes.suffix
  | oneAttribute hdot hid hequals _ ih =>
    exact (ih hq).mono ((hequals.suffix.trans hid.writes.suffix).trans hdot.suffix)
  | attributesCons ha _ iha ihas =>
    simp only [Phrase.parts, List.flatMap_cons, List.mem_append] at hq
    rcases hq with hq | hq
    · exact iha hq
    · exact (ihas hq).mono ha.writes.suffix

/-- A part of an entry is derived among the tokens of the entry. -/
theorem Entry.Derived.part {e : Entry} (h : e.Derived m i) (hq : q ∈ e.parts) : q.DerivedWithin m i := by
  cases h with
  | message hid hequals hvalue has _ _ =>
    have hstart := hequals.suffix.trans hid.writes.suffix
    rcases List.mem_append.1 hq with hq | hq
    · exact (hvalue.part hq).mono hstart
    · exact (has.part hq).mono (hvalue.writes.suffix.trans hstart)
  | term hminus hid hequals hvalue has _ =>
    have hstart := (hequals.suffix.trans hid.writes.suffix).trans hminus.suffix
    rcases List.mem_append.1 hq with hq | hq
    · exact (hvalue.part hq).mono hstart
    · exact (has.part hq).mono (hvalue.writes.suffix.trans hstart)

theorem Entry.parts_document (c : Comment) (e : Entry) : (e.document c).parts = e.parts := by
  cases e <;> rfl

/-- Only messages and terms have parts. -/
theorem Entry.id?_of_mem_parts {e : Entry} (hq : q ∈ e.parts) : e.id? ≠ none := by
  intro hnone
  cases e with
  | message | term => cases hnone
  | comment | junk => cases hq

/-- The blocks from a break on are the blocks at breaks. -/
theorem exists_block_of_mem {limit : Nat} {source : List Char} {c : Cursor} {b : Block} (hc : c.AtBreak source)
    (hb : b ∈ blocksFrom limit c) : ∃ d : Cursor, d.AtBreak source ∧ (block limit d).1 = b := by
  obtain ⟨as, bs, hblocks⟩ := List.append_of_mem hb
  obtain ⟨d, hd, hsplit⟩ := blocksFrom_split hc hblocks
  exact ⟨d, hd, (blocksFrom_eq_cons hsplit).2.1⟩

/-- A message or term of a resource is derived, its comment apart, from the tokens that the machine reads from a header
of the source on. -/
theorem exists_run_of_entry {o : ParseOptions} {source : String} {e : Entry} (he : e ∈ (parse o source).body)
    (hid : e.id? ≠ none) :
    ∃ (c : Cursor) (isTerm : Bool) (a : Line.Assignment) (e' : Entry), c.AtBreak source.toList ∧
      Line.entryHeader? c.rest = some (isTerm, a) ∧
      e'.Derived (Source.ofString source).lines ⟨((State.ofHeader c isTerm a).run o.maxNesting).2.lexemes, 0⟩ ∧
      (e = e' ∨ ∃ comment, e = e'.document comment) := by
  obtain ⟨b, hb, isTerm, name, start, l, ls, ending, bs, e', rfl, hok, hdoc⟩ :=
    (grouped_body o.maxNesting source).makes (mem_body_of_mem_parse he hid) hid
  obtain ⟨c, hc, hblock⟩ := exists_block_of_mem (Cursor.atBreak_ofChars source.toList) hb
  obtain ⟨hblank, hlevel, a, ha, -⟩ := header_of_block hblock
  rw [block_of_header hblank hlevel ha] at hblock
  injection hblock with _ _ _ hlexemes _
  have hderived := derived_entry hok
  rw [lines_fenceAt, ← hlexemes] at hderived
  exact ⟨c, isTerm, a, e', hc, ha, hderived, hdoc⟩

/-- **A part of a resource** is derived among the tokens that the machine reads from a header of the source on. -/
theorem exists_run_of_part {o : ParseOptions} {source : String} {e : Entry} (he : e ∈ (parse o source).body)
    (hq : q ∈ e.parts) :
    ∃ (c : Cursor) (isTerm : Bool) (a : Line.Assignment), c.AtBreak source.toList ∧
      Line.entryHeader? c.rest = some (isTerm, a) ∧
      q.DerivedWithin (Source.ofString source).lines
        ⟨((State.ofHeader c isTerm a).run o.maxNesting).2.lexemes, 0⟩ := by
  obtain ⟨c, isTerm, a, e', hc, ha, hderived, hdoc⟩ := exists_run_of_entry he (Entry.id?_of_mem_parts hq)
  have hparts : e.parts = e'.parts := by
    rcases hdoc with rfl | ⟨comment, rfl⟩
    · rfl
    · exact Entry.parts_document comment e'
  exact ⟨c, isTerm, a, hc, ha, hderived.part (hparts ▸ hq)⟩

end Fluent
