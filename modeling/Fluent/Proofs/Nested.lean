import Fluent.Proofs.Origins
import Fluent.Proofs.Coverage
import Fluent.Proofs.Positions

/-!
# Locations nest

The locations of a resource form a tree as its nodes do: every location lies in that of the node above,
and the locations under one node follow one another.

* `LocationTree`, `Resource.locations`: the locations of all nodes, those of identifiers included.
* `LocationTree.Consistent`: what is asked of such a tree.
* `Chain s a ts b`: trees that follow one another between two offsets.
* `Derives.lays`: the locations of what is derived follow one another where its tokens do.
* `Leads.located`: the locations of one entry are consistent.
* `parse_locations`: the locations of a resource are consistent.
-/

namespace Fluent

/-! ## Trees of locations -/

/-- The location of a node, and the trees of the nodes right under it. All that is said of locations is said of these
trees, whatever the kinds of the nodes. -/
inductive LocationTree where
  | node (location : Location) (children : List LocationTree)

namespace LocationTree

def location : LocationTree → Location
  | node location _ => location

def span (t : LocationTree) : Span := t.location.span

/-- The location of a node without nodes under it. -/
def leaf (location : Location) : LocationTree := node location []

end LocationTree

open LocationTree (node leaf)

def accessorLocations : Option Identifier → List LocationTree
  | none => []
  | some id => [leaf id.location]

mutual

/-- An expression that is a placeable is one node with it. -/
def Expression.locations : Expression → LocationTree
  | .string _ _ l => leaf l
  | .number n => leaf n.location
  | .variableRef id l => node l [leaf id.location]
  | .messageRef id accessor l => node l (leaf id.location :: accessorLocations accessor)
  | .termRef id accessor arguments l =>
    node l (leaf id.location :: (accessorLocations accessor ++
      match arguments with
      | none => []
      | some a => [a.locations]))
  | .functionRef id arguments l => node l [leaf id.location, arguments.locations]
  | .select selector variants l => node l (selector.locations :: variantsLocations variants)
  | .placeable inner => inner.locations

def Placeable.locations : Placeable → LocationTree
  | ⟨e, l⟩ => node l [e.locations]

def CallArguments.locations : CallArguments → LocationTree
  | ⟨positional, named, l⟩ => node l (positionalLocations positional ++ namedLocations named)

def positionalLocations : List Expression → List LocationTree
  | [] => []
  | e :: es => e.locations :: positionalLocations es

def namedLocations : List NamedArgument → List LocationTree
  | [] => []
  | a :: as => a.locations :: namedLocations as

def NamedArgument.locations : NamedArgument → LocationTree
  | ⟨name, value, l⟩ => node l [leaf name.location, value.locations]

def variantsLocations : List Variant → List LocationTree
  | [] => []
  | v :: vs => v.locations :: variantsLocations vs

def Variant.locations : Variant → LocationTree
  | ⟨key, value, _, l⟩ => node l [leaf key.location, value.locations]

def Pattern.locations : Pattern → LocationTree
  | ⟨elements, l⟩ => node l (elementsLocations elements)

def elementsLocations : List PatternElement → List LocationTree
  | [] => []
  | e :: es => e.locations :: elementsLocations es

def PatternElement.locations : PatternElement → LocationTree
  | .text chunk => leaf chunk.location
  | .placeable inner => inner.locations

end

def Attribute.locations (a : Attribute) : LocationTree := node a.location [leaf a.id.location, a.value.locations]

def valueLocations : Option Pattern → List LocationTree
  | none => []
  | some p => [p.locations]

/-- The tree of an entry without the comment that belongs to it. -/
def Entry.ownLocations : Entry → LocationTree
  | message m =>
    node m.location (leaf m.id.location :: (valueLocations m.value ++ m.attributes.map Attribute.locations))
  | term t => node t.location (leaf t.id.location :: t.value.locations :: t.attributes.map Attribute.locations)
  | comment c => leaf c.location
  | junk j => leaf j.location

/-- The comment that belongs to an entry is a tree of its own in front of it. -/
def Entry.locations (e : Entry) : List LocationTree :=
  (e.doc?.map fun c => leaf c.location).toList ++ [e.ownLocations]

def Resource.locations (r : Resource) : LocationTree := node r.location (r.body.flatMap Entry.locations)

/-! ## Consistent trees -/

/-- A location in a source: it begins and ends between characters, at the positions of its offsets. -/
structure Location.Of (s : Source) (l : Location) : Prop where
  ordered : l.span.start ≤ l.span.stop
  inBounds : l.span.stop ≤ s.size
  boundary : isBoundary s.chars l.span.start = true ∧ isBoundary s.chars l.span.stop = true
  start : l.start = s.lines.position l.span.start
  stop : l.stop = s.lines.position l.span.stop

/-- **A consistent tree of locations.** They are locations of the source, each lies in the one above, and
those under one node follow one another. -/
inductive LocationTree.Consistent (s : Source) : LocationTree → Prop
  | node {l : Location} {ts : List LocationTree} : l.Of s →
      (∀ t ∈ ts, l.span.start ≤ t.span.start ∧ t.span.stop ≤ l.span.stop) →
      ts.Pairwise (fun t u => t.span.stop ≤ u.span.start) → (∀ t ∈ ts, t.Consistent s) →
      Consistent s (.node l ts)

theorem LocationTree.Consistent.of {s : Source} {t : LocationTree} (h : t.Consistent s) : t.location.Of s := by
  cases h with
  | node hl => exact hl

/-- A located span between characters. -/
theorem Location.of_locate {source : String} {a : Span} (h : a.start ≤ a.stop)
    (hstart : isBoundary source.toList a.start = true) (hstop : isBoundary source.toList a.stop = true) :
    ((Source.ofString source).lines.locate a).Of (.ofString source) := by
  refine ⟨h, ?_, ⟨hstart, hstop⟩, rfl, rfl⟩
  obtain ⟨rest, hrest⟩ := Option.isSome_iff_exists.1 hstop
  have hcount := byteCount_fromOffset? hrest
  have hsize : (Source.ofString source).size = byteCount source.toList := rfl
  show a.stop ≤ (Source.ofString source).size
  omega

theorem isBoundary_zero (cs : List Char) : isBoundary cs 0 = true := by
  rw [isBoundary, fromOffset?]
  rfl

/-- Consistent trees that follow one another between two offsets. Such chains can be put together, and one of them makes
the children of a larger tree. -/
structure Chain (s : Source) (a : Nat) (ts : List LocationTree) (b : Nat) : Prop where
  le : a ≤ b
  within : ∀ t ∈ ts, a ≤ t.span.start ∧ t.span.stop ≤ b
  ordered : ts.Pairwise fun t u => t.span.stop ≤ u.span.start
  consistent : ∀ t ∈ ts, t.Consistent s

namespace Chain

variable {s : Source} {a b c : Nat} {t : LocationTree} {ts us : List LocationTree}

theorem nil (h : a ≤ b) : Chain s a [] b := ⟨h, by simp, .nil, by simp⟩

theorem singleton (h : t.Consistent s) (ha : a ≤ t.span.start) (hb : t.span.stop ≤ b) : Chain s a [t] b :=
  ⟨Nat.le_trans ha (Nat.le_trans h.of.ordered hb), by simpa using ⟨ha, hb⟩, by simp, by simpa using h⟩

theorem append (h : Chain s a ts b) (h' : Chain s b us c) : Chain s a (ts ++ us) c := by
  refine ⟨Nat.le_trans h.le h'.le, ?_, ?_, ?_⟩
  · intro t ht
    rcases List.mem_append.1 ht with ht | ht
    · exact ⟨(h.within t ht).1, Nat.le_trans (h.within t ht).2 h'.le⟩
    · exact ⟨Nat.le_trans h.le (h'.within t ht).1, (h'.within t ht).2⟩
  · rw [List.pairwise_append]
    refine ⟨h.ordered, h'.ordered, ?_⟩
    intro t ht u hu
    exact Nat.le_trans (h.within t ht).2 (h'.within u hu).1
  · intro t ht
    rcases List.mem_append.1 ht with ht | ht
    · exact h.consistent t ht
    · exact h'.consistent t ht

theorem cons (h : t.Consistent s) (ha : a ≤ t.span.start) (h' : Chain s t.span.stop us c) :
    Chain s a (t :: us) c :=
  (singleton h ha (Nat.le_refl _)).append h'

theorem mono (h : Chain s b ts c) {a d : Nat} (ha : a ≤ b) (hd : c ≤ d) : Chain s a ts d := by
  refine ⟨Nat.le_trans ha (Nat.le_trans h.le hd), ?_, h.ordered, h.consistent⟩
  intro t ht
  exact ⟨Nat.le_trans ha (h.within t ht).1, Nat.le_trans (h.within t ht).2 hd⟩

/-- The first tree lies behind the first offset, and the others behind it. -/
theorem uncons (h : Chain s a (t :: ts) b) :
    t.Consistent s ∧ a ≤ t.span.start ∧ Chain s t.span.stop ts b := by
  obtain ⟨hstart, hstop⟩ := h.within t List.mem_cons_self
  obtain ⟨hfirst, hordered⟩ := List.pairwise_cons.1 h.ordered
  refine ⟨h.consistent t List.mem_cons_self, hstart, hstop, ?_, hordered, ?_⟩
  · intro u hu
    exact ⟨hfirst u hu, (h.within u (List.mem_cons_of_mem t hu)).2⟩
  · intro u hu
    exact h.consistent u (List.mem_cons_of_mem t hu)

/-- A location around a chain makes a node of it. -/
theorem node {l : Location} (h : Chain s l.span.start ts l.span.stop) (hl : l.Of s) :
    (LocationTree.node l ts).Consistent s :=
  .node hl h.within h.ordered h.consistent

end Chain

/-- A location in a source is that of its span. -/
theorem Location.Of.eq_locate {s : Source} {l : Location} (h : l.Of s) : l = s.lines.locate l.span := by
  rw [LineMap.locate, ← h.start, ← h.stop]

theorem Location.Of.leaf {s : Source} {l : Location} (h : l.Of s) : (LocationTree.leaf l).Consistent s :=
  (Chain.nil h.ordered).node h

/-! ## Reading -/

/-- Tokens that follow one another behind what is read, with characters between their ends. So what is read of them lies
in order behind what was read before. -/
structure Input.Fits (s : Source) (i : Input) : Prop where
  ordered : i.lexemes.Pairwise fun l m => l.span.stop ≤ m.span.start
  within : ∀ l ∈ i.lexemes, i.readTo ≤ l.span.start ∧ l.span.start ≤ l.span.stop ∧
    isBoundary s.chars l.span.start = true ∧ isBoundary s.chars l.span.stop = true
  boundary : isBoundary s.chars i.readTo = true

namespace Input.Fits

variable {source : String} {i j : Input} {l : Lexeme}

/-- What is left behind a token still fits. -/
theorem spends (hi : i.Fits (.ofString source)) (h : i.Spends [l] j) : j.Fits (.ofString source) := by
  obtain ⟨hlexemes, hreadTo⟩ := h
  have hordered := hi.ordered
  rw [hlexemes] at hordered
  obtain ⟨hfirst, hordered⟩ := List.pairwise_cons.1 hordered
  have hmem : ∀ m ∈ j.lexemes, m ∈ i.lexemes := by
    intro m hm
    rw [hlexemes]
    exact List.mem_cons_of_mem l hm
  have hl : l ∈ i.lexemes := by
    rw [hlexemes]
    exact List.mem_cons_self
  have hread : j.readTo = if l.token.isMarker then i.readTo else l.span.stop := hreadTo
  refine ⟨hordered, ?_, ?_⟩
  · intro m hm
    obtain ⟨hstart, hspan⟩ := hi.within m (hmem m hm)
    refine ⟨?_, hspan⟩
    rw [hread]
    split
    · exact hstart
    · exact hfirst m hm
  · rw [hread]
    split
    · exact hi.boundary
    · exact (hi.within l hl).2.2.2

/-- A token lies behind what is read before it. -/
theorem head (hi : i.Fits (.ofString source)) (h : i.Spends [l] j) :
    i.readTo ≤ l.span.start ∧ ((Source.ofString source).lines.locate l.span).Of (.ofString source) := by
  have hl : l ∈ i.lexemes := by
    rw [h.lexemes]
    exact List.mem_cons_self
  obtain ⟨hstart, hspan, hboundary⟩ := hi.within l hl
  exact ⟨hstart, Location.of_locate hspan hboundary.1 hboundary.2⟩

/-- A token that stands for source text is read up to its end. -/
theorem readTo_eq (h : i.Spends [l] j) (hl : l.token.isMarker = false) : j.readTo = l.span.stop := by
  have hread : j.readTo = if l.token.isMarker then i.readTo else l.span.stop := h.readTo
  rw [hread, hl, if_neg (by simp)]

end Input.Fits

/-- Between two inputs lie some trees: those of what was read between the two, in order, from the end of the one to that
of the other. -/
structure Input.Lays (s : Source) (i : Input) (ts : List LocationTree) (j : Input) : Prop where
  fits : j.Fits s
  chain : Chain s i.readTo ts j.readTo

namespace Input

variable {source : String} {i i₁ j k : Input} {l : Lexeme} {ts us : List LocationTree}

theorem Lays.trans {s : Source} (h : i.Lays s ts j) (h' : j.Lays s us k) : i.Lays s (ts ++ us) k :=
  ⟨h'.fits, h.chain.append h'.chain⟩

/-- A token without a node. -/
theorem Fits.skip (hi : i.Fits (.ofString source)) (h : i.Spends [l] j) : i.Lays (.ofString source) [] j := by
  obtain ⟨hstart, hof⟩ := hi.head h
  refine ⟨hi.spends h, .nil ?_⟩
  have hread : j.readTo = if l.token.isMarker then i.readTo else l.span.stop := h.readTo
  rw [hread]
  split
  · exact Nat.le_refl _
  · exact Nat.le_trans hstart hof.ordered

/-- A node that begins with a token and ends with what is read. -/
theorem Fits.node (hi : i.Fits (.ofString source)) (h : i.Spends [l] i₁) (hj : j.Fits (.ofString source))
    (hchain : Chain (.ofString source) l.span.start ts j.readTo) :
    i.Lays (.ofString source)
      [.node ((Source.ofString source).lines.locate ⟨l.span.start, j.readTo⟩) ts] j := by
  obtain ⟨hstart, hof⟩ := hi.head h
  have hlocation : ((Source.ofString source).lines.locate ⟨l.span.start, j.readTo⟩).Of (.ofString source) :=
    Location.of_locate hchain.le hof.boundary.1 hj.boundary
  have hnode : (LocationTree.node _ ts).Consistent (.ofString source) := hchain.node hlocation
  exact ⟨hj, .singleton hnode hstart (Nat.le_refl _)⟩

/-- A node that begins with a token of its own. -/
theorem Fits.wrap (hi : i.Fits (.ofString source)) (h : i.Spends [l] i₁) (hl : l.token.isMarker = false)
    (hlays : i₁.Lays (.ofString source) ts j) :
    i.Lays (.ofString source)
      [.node ((Source.ofString source).lines.locate ⟨l.span.start, j.readTo⟩) ts] j := by
  have hread : l.span.start ≤ i₁.readTo := by
    rw [Fits.readTo_eq h hl]
    exact (hi.head h).2.ordered
  exact hi.node h hlays.fits (hlays.chain.mono hread (Nat.le_refl _))

/-- A token that is a node. -/
theorem Fits.leaf (hi : i.Fits (.ofString source)) (h : i.Spends [l] j) (hl : l.token.isMarker = false) :
    i.Lays (.ofString source) [.leaf ((Source.ofString source).lines.locate l.span)] j := by
  obtain ⟨hstart, hof⟩ := hi.head h
  refine ⟨hi.spends h, .singleton hof.leaf hstart ?_⟩
  rw [Fits.readTo_eq h hl]
  exact Nat.le_refl _

theorem Fits.id {id : Identifier} (hi : i.Fits (.ofString source))
    (h : i.SpendsId (Source.ofString source).lines id j) :
    i.Lays (.ofString source) [.leaf id.location] j := by
  obtain ⟨hspends, hlocation⟩ := h
  rw [hlocation]
  exact hi.leaf hspends rfl

/-- A node that begins with an identifier. -/
theorem Fits.named {id : Identifier} (hi : i.Fits (.ofString source))
    (h : i.SpendsId (Source.ofString source).lines id i₁) (hlays : i₁.Lays (.ofString source) ts j) :
    i.Lays (.ofString source)
      [.node ((Source.ofString source).lines.locate ⟨id.location.span.start, j.readTo⟩)
        (.leaf id.location :: ts)] j := by
  have hid := (hi.id h).chain.uncons.1
  have hread := Fits.readTo_eq h.1 rfl
  have hrest : Chain (.ofString source) id.location.span.stop ts j.readTo := hread ▸ hlays.chain
  exact hi.node h.1 hlays.fits (.cons hid (Nat.le_refl _) hrest)

/-- A node that begins with an opening bracket or the star in front of it. -/
theorem Fits.bracket {isDefault : Bool} {start : Nat} (hi : i.Fits (.ofString source))
    (h : i.SpendsBracket isDefault start i₁)
    (hlays : i₁.Fits (.ofString source) → i₁.Lays (.ofString source) ts j) :
    i.Lays (.ofString source) [.node ((Source.ofString source).lines.locate ⟨start, j.readTo⟩) ts] j := by
  cases h with
  | plain hbracket => exact hi.wrap hbracket rfl (hlays (hi.spends hbracket))
  | starred hstar hbracket =>
    have hskip := (hi.spends hstar).skip hbracket
    exact hi.wrap hstar rfl (hskip.trans (hlays hskip.fits))

theorem Fits.number {n : NumberLiteral} (hi : i.Fits (.ofString source))
    (h : i.SpendsNumber (Source.ofString source).lines n j) :
    i.Lays (.ofString source) [.leaf n.location] j := by
  obtain ⟨hspends, hlocation, -⟩ := h
  rw [hlocation]
  exact hi.leaf hspends rfl

theorem Fits.accessor {offset : Nat} {accessor : Option Identifier} (hi : i.Fits (.ofString source))
    (h : SpendsAccessor (Source.ofString source).lines offset i accessor j) :
    i.Lays (.ofString source) (accessorLocations accessor) j := by
  cases h with
  | none => exact ⟨hi, .nil (Nat.le_refl _)⟩
  | some hdot _ hid _ =>
    have hskip := hi.skip hdot
    exact hskip.trans (hskip.fits.id hid)

theorem Fits.key {key : VariantKey} (hi : i.Fits (.ofString source))
    (h : i.SpendsKey (Source.ofString source).lines key j) :
    i.Lays (.ofString source) [.leaf key.location] j := by
  cases h with
  | identifier hid => exact hi.id hid
  | number hnumber => exact hi.number hnumber

end Input

/-- A node around trees, from the first of them to what is read. -/
theorem Input.Lays.around {source : String} {i j : Input} {t : LocationTree} {ts : List LocationTree}
    (h : i.Lays (.ofString source) (t :: ts) j) :
    i.Lays (.ofString source)
      [.node ((Source.ofString source).lines.locate ⟨t.location.span.start, j.readTo⟩) (t :: ts)] j := by
  obtain ⟨ht, hstart, hrest⟩ := h.chain.uncons
  have hchain : Chain (.ofString source) t.location.span.start (t :: ts) j.readTo :=
    .cons ht (Nat.le_refl _) hrest
  have hof : ((Source.ofString source).lines.locate ⟨t.location.span.start, j.readTo⟩).Of (.ofString source) :=
    Location.of_locate hchain.le ht.of.boundary.1 h.fits.boundary
  exact ⟨h.fits, .singleton (hchain.node hof) hstart (Nat.le_refl _)⟩

theorem Expression.location_locations (e : Expression) : e.locations.location = e.location := by
  cases e with
  | placeable inner =>
    obtain ⟨e, l⟩ := inner
    rfl
  | _ => rfl

/-! ## What is derived -/

/-- Where the trees of a phrase lie. -/
def Phrase.locations : Phrase → List LocationTree
  | inline e => [e.locations]
  | placeable p => [p.locations]
  | arguments a => [a.locations]
  | positional es => positionalLocations es
  | named _ as _ => namedLocations as
  | variants vs => variantsLocations vs
  | variant v => [v.locations]
  | pattern p => valueLocations p
  | elements es => elementsLocations es
  | oneAttribute a => [a.locations]
  | attributes as => as.map Attribute.locations

/-- Where a phrase ends that tells so itself. -/
def Phrase.stop? : Phrase → Option Nat
  | inline e => some e.location.span.stop
  | placeable p => some p.location.span.stop
  | arguments a => some a.location.span.stop
  | named _ _ closing => some closing.stop
  | _ => none

/-- What is derived ends with what is read. -/
theorem Derives.stop_eq {m : LineMap} {i j : Input} {p : Phrase} (h : Derives m i p j) :
    ∀ n ∈ p.stop?, n = j.readTo := by
  have hsome : ∀ {a b n : Nat}, a = b → n ∈ some a → n = b := by
    rintro a b n rfl hn
    exact (Option.some.inj hn).symm
  induction h with
  | string hspends _ => exact fun _ => hsome (Input.Fits.readTo_eq hspends rfl).symm
  | number hnumber => exact fun _ => hsome (Input.Fits.readTo_eq hnumber.1 rfl).symm
  | variableRef _ hid _ => exact fun _ => hsome (Input.Fits.readTo_eq hid.1 rfl).symm
  | term | termCall | message => exact fun _ => hsome rfl
  | function _ _ _ ih | nested _ ih => exact ih
  | select _ _ _ _ _ _ hclosing | placeable _ _ _ hclosing =>
    exact fun _ => hsome (Input.Fits.readTo_eq hclosing rfl).symm
  | arguments _ _ _ _ ih => exact ih
  | namedEnd hclosing => exact fun _ => hsome (Input.Fits.readTo_eq hclosing rfl).symm
  | namedLast _ _ _ _ hclosing => exact fun _ => hsome (Input.Fits.readTo_eq hclosing rfl).symm
  | namedCons _ _ _ _ _ _ _ ih => exact ih
  | _ => exact fun _ hn => nomatch hn

/-- The trees of the elements of a pattern have their locations at the root. -/
theorem map_location_elementsLocations (es : List PatternElement) :
    (elementsLocations es).map LocationTree.location = es.map (·.location) := by
  induction es with
  | nil => rfl
  | cons e es ih =>
    rw [elementsLocations, List.map_cons, List.map_cons, ih]
    rcases e with chunk | ⟨inner, l⟩ <;> rfl

/-- The box around locations that follow one another reaches from the first over all others. -/
theorem foldl_cover {source : String} {ts : List LocationTree} {l : Location} {b : Nat}
    (hl : l.Of (.ofString source)) (h : Chain (.ofString source) l.span.stop ts b) :
    ((ts.map LocationTree.location).foldl Location.cover l).Of (.ofString source) ∧
      ((ts.map LocationTree.location).foldl Location.cover l).span.start = l.span.start ∧
      ((ts.map LocationTree.location).foldl Location.cover l).span.stop ≤ b ∧
      Chain (.ofString source) l.span.stop ts
        ((ts.map LocationTree.location).foldl Location.cover l).span.stop := by
  induction ts generalizing l with
  | nil => exact ⟨hl, rfl, h.le, .nil (Nat.le_refl _)⟩
  | cons t ts ih =>
    obtain ⟨ht, hstart, hrest⟩ := h.uncons
    -- the box around the first two ends with the second, so the others follow it too
    have hle : l.span.start ≤ t.span.start := Nat.le_trans hl.ordered hstart
    have hcover : l.cover t.location =
        (Source.ofString source).lines.locate ⟨l.span.start, t.span.stop⟩ := by
      rw [hl.eq_locate, ht.of.eq_locate]
      exact cover_locate source.toList hle (Nat.le_trans hstart ht.of.ordered)
    have hboth : (l.cover t.location).Of (.ofString source) := by
      rw [hcover]
      exact Location.of_locate (Nat.le_trans hle ht.of.ordered) hl.boundary.1 ht.of.boundary.2
    have hend : (l.cover t.location).span.stop = t.span.stop := by
      rw [hcover]
      rfl
    obtain ⟨hof, hbegin, hstop, hchain⟩ := ih hboth (hend ▸ hrest)
    rw [List.map_cons, List.foldl_cons]
    refine ⟨hof, ?_, hstop, .cons ht hstart (hend ▸ hchain)⟩
    rw [hbegin, hcover]
    rfl

/-- The box around trees that follow one another makes a node of them. -/
theorem Chain.boundingBox {source : String} {ts : List LocationTree} {l : Location} {a b : Nat}
    (h : Chain (.ofString source) a ts b)
    (hl : Location.boundingBox? (ts.map LocationTree.location) = some l) :
    Chain (.ofString source) a [.node l ts] b := by
  cases ts with
  | nil => cases hl
  | cons t ts =>
    obtain ⟨ht, hstart, hrest⟩ := h.uncons
    obtain ⟨hof, hbegin, hstop, hchain⟩ := foldl_cover ht.of hrest
    obtain rfl := Option.some.inj hl
    have hall := Chain.cons ht (Nat.le_of_eq hbegin) hchain
    exact .singleton (hall.node hof) (hbegin ▸ hstart) hstop

/-- **The locations of what is derived** follow one another where its tokens do. -/
theorem Derives.lays {source : String} {i j : Input} {p : Phrase}
    (h : Derives (Source.ofString source).lines i p j) (hi : i.Fits (.ofString source)) :
    i.Lays (.ofString source) p.locations j := by
  induction h with
  | string hspends _ => exact hi.leaf hspends rfl
  | number hnumber => exact hi.number hnumber
  | variableRef hdollar hid _ =>
    have hname := (hi.spends hdollar).id hid
    rw [← Input.Fits.readTo_eq hid.1 rfl]
    exact hi.wrap hdollar rfl hname
  | term hminus hid _ haccessor _ =>
    have hname := (hi.spends hminus).id hid
    have hlays := hname.trans (hname.fits.accessor haccessor)
    rw [Phrase.locations, Expression.locations, List.append_nil]
    exact hi.wrap hminus rfl hlays
  | termCall hminus hid _ haccessor _ ih =>
    have hname := (hi.spends hminus).id hid
    have haccessor := hname.fits.accessor haccessor
    exact hi.wrap hminus rfl (hname.trans (haccessor.trans (ih haccessor.fits)))
  | message hid _ haccessor => exact hi.named hid ((hi.id hid).fits.accessor haccessor)
  | function hid _ harguments ih =>
    have hlays := hi.named hid (ih (hi.id hid).fits)
    rw [harguments.stop_eq _ rfl]
    exact hlays
  | nested _ ih => exact ih hi
  | select hopening _ harrow _ _ _ hclosing ihe ihvs =>
    -- the expression is around the selector, the arrow and the variants; the placeable around the expression
    have hselector := ihe (hi.spends hopening)
    have hskip := hselector.fits.skip harrow
    have hselect := (hselector.trans (hskip.trans (ihvs hskip.fits))).around
    rw [Expression.location_locations] at hselect
    rw [← Input.Fits.readTo_eq hclosing rfl]
    exact hi.wrap hopening rfl (hselect.trans (hselect.fits.skip hclosing))
  | placeable hopening _ _ hclosing ih =>
    have he := ih (hi.spends hopening)
    rw [← Input.Fits.readTo_eq hclosing rfl]
    exact hi.wrap hopening rfl (he.trans (he.fits.skip hclosing))
  | arguments hopening _ hnamed ih ih' =>
    have hpositional := ih (hi.spends hopening)
    rw [hnamed.stop_eq _ rfl]
    exact hi.wrap hopening rfl (hpositional.trans (ih' hpositional.fits))
  | positionalEnd hmarker => exact hi.skip hmarker
  | positionalLast _ hmarker ih => exact (ih hi).trans ((ih hi).fits.skip hmarker)
  | positionalCons _ hcomma _ ih ih' =>
    have he := ih hi
    have hskip := he.fits.skip hcomma
    exact he.trans (hskip.trans (ih' hskip.fits))
  | namedEnd hclosing => exact hi.skip hclosing
  | namedLast hname hcolon hvalue _ hclosing ih =>
    have hskip := (hi.id hname).fits.skip hcolon
    have hnode := hi.named hname (hskip.trans (ih hskip.fits))
    rw [hvalue.stop_eq _ rfl]
    exact hnode.trans (hnode.fits.skip hclosing)
  | namedCons hname hcolon hvalue _ hcomma _ ih ih' =>
    have hskip := (hi.id hname).fits.skip hcolon
    have hnode := hi.named hname (hskip.trans (ih hskip.fits))
    have hmore := hnode.fits.skip hcomma
    rw [hvalue.stop_eq _ rfl]
    exact hnode.trans (hmore.trans (ih' hmore.fits))
  | variantsEnd => exact ⟨hi, .nil (Nat.le_refl _)⟩
  | variantsCons _ _ ih ih' => exact (ih hi).trans (ih' (ih hi).fits)
  | variant hbracket hkey hclosing _ ih =>
    refine hi.bracket hbracket ?_
    intro hi₁
    have hkey := hi₁.key hkey
    have hskip := hkey.fits.skip hclosing
    exact hkey.trans (hskip.trans (ih hskip.fits))
  | noPattern hmarker => exact hi.skip hmarker
  | @pattern i i₁ j marker es location hmarker _ hbox ih =>
    -- a pattern has the bounding box of its elements for a location
    have hskip := hi.skip hmarker
    have helements := hskip.trans (ih hskip.fits)
    rw [← map_location_elementsLocations] at hbox
    exact ⟨helements.fits, helements.chain.boundingBox hbox⟩
  | elementsEnd hmarker => exact hi.skip hmarker
  | elementsText htext _ ih =>
    have hchunk := hi.leaf htext rfl
    exact hchunk.trans (ih hchunk.fits)
  | elementsPlaceable _ _ ih ih' => exact (ih hi).trans (ih' (ih hi).fits)
  | oneAttribute hdot hid hequals _ ih =>
    have hname := (hi.spends hdot).id hid
    have hskip := hname.fits.skip hequals
    exact hi.wrap hdot rfl (hname.trans (hskip.trans (ih hskip.fits)))
  | attributesEnd => exact ⟨hi, .nil (Nat.le_refl _)⟩
  | attributesCons _ _ ih ih' => exact (ih hi).trans (ih' (ih hi).fits)

/-! ## Entries -/

/-- **The locations of an entry that is read** are consistent. -/
theorem Entry.Derived.consistent {source : String} {i : Input} {e : Entry}
    (h : e.Derived (Source.ofString source).lines i) (hi : i.Fits (.ofString source)) :
    e.ownLocations.Consistent (.ofString source) ∧ e.doc? = none := by
  cases h with
  | message hid hequals hvalue hattributes _ _ =>
    have hskip := (hi.id hid).fits.skip hequals
    have hpattern := hvalue.lays hskip.fits
    have hnode := hi.named hid (hskip.trans (hpattern.trans (hattributes.lays hpattern.fits)))
    exact ⟨hnode.chain.uncons.1, rfl⟩
  | term hminus hid hequals hvalue hattributes _ =>
    have hname := (hi.spends hminus).id hid
    have hskip := hname.fits.skip hequals
    have hpattern := hvalue.lays hskip.fits
    have hnode := hi.wrap hminus rfl
      (hname.trans (hskip.trans (hpattern.trans (hattributes.lays hpattern.fits))))
    exact ⟨hnode.chain.uncons.1, rfl⟩

theorem Entry.locations_of_doc_none {e : Entry} (h : e.doc? = none) : e.locations = [e.ownLocations] := by
  rw [locations, h]
  rfl

/-- A comment of its own adds its location in front. -/
theorem Entry.mem_locations_document {e : Entry} {c : Comment} {t : LocationTree} (hdoc : e.doc? = none)
    (h : t ∈ (e.document c).locations) : t = .leaf c.location ∨ t = e.ownLocations := by
  cases e with
  | message m => simpa [document, locations, doc?, ownLocations] using h
  | term m => simpa [document, locations, doc?, ownLocations] using h
  | comment | junk =>
    simp only [document, locations, doc?, Option.map_none, Option.toList_none, List.nil_append,
      List.mem_singleton] at h
    exact .inr h

theorem Entry.eq_of_mem_doc?_document {e : Entry} {c c' : Comment} (hdoc : e.doc? = none)
    (h : c' ∈ (e.document c).doc?) : c' = c := by
  cases e with
  | message | term => exact (Option.some.inj h).symm
  | comment | junk => cases h

/-- The tokens of a stretch of the source fit. -/
theorem Reads.fitsInput {source : String} {c d : Cursor} {pre t : List Char} {ls : List Lexeme}
    (h : Reads Anywhere c t (ls.reverse.map .lexeme) d) (hover : (Cursor.ofChars source.toList).Over pre c) :
    Input.Fits (.ofString source) ⟨ls, 0⟩ := by
  refine ⟨List.pairwise_reverse.1 h.pairwise, ?_, isBoundary_zero _⟩
  intro l hl
  obtain ⟨before, text, e₁, e₂, after, h₁, h₂, -, hspan, -⟩ := h.mem (List.mem_reverse.2 hl)
  rw [hspan]
  have hbegin := hover.trans h₁
  exact ⟨Nat.zero_le _, h₂.offset_le, hbegin.isBoundary, (hbegin.trans h₂).isBoundary⟩

/-- A location from the first of some tokens to the last of them. -/
theorem Input.Fits.hull {source : String} {l : Lexeme} {ls ms : List Lexeme} {r : Nat}
    (hi : Input.Fits (.ofString source) ⟨l :: ls ++ ms, r⟩) :
    ((Source.ofString source).lines.locate ⟨l.span.start, ((l :: ls).getLast?.getD l).span.stop⟩).Of
      (.ofString source) := by
  have hlast : (l :: ls).getLast?.getD l ∈ l :: ls := by
    rw [List.getLast?_eq_some_getLast (List.cons_ne_nil l ls)]
    exact List.getLast_mem _
  generalize (l :: ls).getLast?.getD l = m at hlast ⊢
  obtain ⟨-, hl, hstart, -⟩ := hi.within l List.mem_cons_self
  obtain ⟨-, hm, -, hstop⟩ := hi.within m (List.mem_append_left ms hlast)
  refine Location.of_locate ?_ hstart hstop
  rcases List.mem_cons.1 hlast with rfl | hlater
  · exact hl
  · have hordered := (List.pairwise_cons.1 hi.ordered).1 m (List.mem_append_left ms hlater)
    exact Nat.le_trans hl (Nat.le_trans hordered hm)

theorem lines_fenceAt (s : Source) (ls : List Lexeme) : (fenceAt s ls).lines = s.lines := by
  cases ls <;> rfl

theorem consistent_blockEntry {source : String} {m : Lexeme} {ms : List Lexeme} {bs : List Block} {e : Entry}
    (h : blockEntry (.ofString source) m ms bs = .ok e) (hi : Input.Fits (.ofString source) ⟨m :: ms, 0⟩) :
    e.ownLocations.Consistent (.ofString source) ∧ e.doc? = none := by
  have hderived := derived_entry h
  rw [lines_fenceAt] at hderived
  exact hderived.consistent hi

/-! ## Comments in front of entries -/

/-- The token of a comment line ends with its line at the latest. -/
theorem commentLine_stop_le {level : CommentLevel} {c : Cursor} (h : Line.commentLevel? c.rest = some level) :
    (commentLine level c).span.stop ≤ c.lineEnd.offset := by
  obtain ⟨text, hhead, -⟩ := Line.commentLevel?_eq_some h
  have htext := Line.byteCount_dropReturn_le text
  have hend := (Cursor.over_lineEnd c).offset
  rw [hhead, byteCount_append] at hend
  rw [commentLine_of_head hhead]
  simp only [byteCount_append]
  omega

/-- Where a further line follows, it begins behind the line feed. -/
theorem Cursor.lineEnd_lt_nextLine {c : Cursor} (h : c.nextLine.rest ≠ []) :
    c.lineEnd.offset < c.nextLine.offset := by
  apply (Cursor.over_skip 1 c.lineEnd).offset_lt
  intro hnil
  have hrest : c.nextLine.rest = c.lineEnd.rest.drop 1 := rfl
  cases hline : c.lineEnd.rest with
  | nil => exact h (by rw [hrest, hline]; rfl)
  | cons x rest =>
    rw [hline] at hnil
    cases hnil

/-- The last of some comment lines ends before the line behind them. -/
theorem commentLines_stop_lt {level : CommentLevel} {c : Cursor} {l : Lexeme}
    (hl : c.rest ≠ [] → l.span.stop < c.offset) (hrest : (commentLines level c).2.rest ≠ []) :
    ((l :: (commentLines level c).1).getLast?.getD l).span.stop < (commentLines level c).2.offset := by
  fun_induction commentLines level c generalizing l with
  | case1 c hnil => exact absurd hnil hrest
  | case2 c _ _ _ hlevel lines stop heq ih =>
    rw [heq] at ih
    have hline : c.nextLine.rest ≠ [] → (commentLine level c).span.stop < c.nextLine.offset := by
      intro hnext
      exact Nat.lt_of_le_of_lt (commentLine_stop_le hlevel) (Cursor.lineEnd_lt_nextLine hnext)
    have hlast := ih hline hrest
    rw [List.getLast?_cons_cons]
    rw [List.getLast?_cons] at hlast ⊢
    exact hlast
  | case3 c _ _ hcons _ => exact hl hrest

/-- The comment in front of an entry ends before the entry starts. The comment is no part of the location of the
entry. -/
def Entry.DocBefore (e : Entry) : Prop := ∀ c ∈ e.doc?, c.location.span.stop < e.location.span.start

/-- The locations of an entry are consistent, and the comment that belongs to it ends before it starts. -/
def Entry.Located (s : Source) (e : Entry) : Prop := (∀ t ∈ e.locations, t.Consistent s) ∧ e.DocBefore

/-- **The locations of an entry** at the front of the blocks from a break on are consistent. -/
theorem Leads.located {limit : Nat} {source : String} {c : Cursor} {bs : List Block} {e : Entry}
    (hc : c.AtBreak source.toList) (hbs : blocksFrom limit c = bs) (h : Leads (.ofString source) bs e) :
    e.Located (.ofString source) := by
  obtain ⟨end', hlaid⟩ := laid_blocksFrom limit hc.startsLine
  rw [hbs] at hlaid
  obtain ⟨pre, hover, -⟩ := id hc
  cases h with
  | @stray span spans bs _ =>
    obtain ⟨t, d, hreads, -⟩ := Laid.reads_append (.stray span :: spans.map .stray) hlaid
    rw [flatMap_lexemes_stray, flatMap_lexemes_strays] at hreads
    have hfits : Input.Fits (.ofString source) ⟨strayLexeme span :: spans.map strayLexeme ++ [], 0⟩ := by
      rw [List.append_nil]
      exact hreads.fitsInput hover
    exact ⟨List.forall_mem_singleton.2 hfits.hull.leaf, nofun⟩
  | @comment l close ls bs =>
    cases hlaid with
    | cons _ _ hreads _ =>
      have hfits : Input.Fits (.ofString source) ⟨l :: ls ++ [close], 0⟩ := hreads.fitsInput hover
      exact ⟨List.forall_mem_singleton.2 hfits.hull.leaf, nofun⟩
  | @documented l close m ls ms isTerm name start ending bs e' hok =>
    -- the comment is a block of its own, and ends on the line before the one where the entry starts
    cases hlaid with
    | cons _ _ hreads hlaid =>
      cases hlaid with
      | cons _ _ hreads' hlaid =>
        have hfits : Input.Fits (.ofString source) ⟨l :: ls ++ [close], 0⟩ := hreads.fitsInput hover
        have hfits' := hreads'.fitsInput (hover.trans hreads.stretch)
        obtain ⟨hentry, hdoc⟩ := consistent_blockEntry hok hfits'
        refine ⟨?_, ?_⟩
        · intro t ht
          rcases Entry.mem_locations_document hdoc ht with rfl | rfl
          · exact hfits.hull.leaf
          · exact hentry
        · intro c' hc'
          obtain rfl := Entry.eq_of_mem_doc?_document hdoc hc'
          obtain ⟨hne, hb, hbs'⟩ := blocksFrom_eq_cons hbs
          obtain ⟨level, hlevel, rfl, rfl, hend⟩ := block_eq_comment hb
          have hbreak := atBreak_block limit (hc.startsLine_of_ne_nil hne)
          have hstart := (blocksFrom_entry hbreak hbs').2.1
          have hnext := (blocksFrom_eq_cons hbs').1
          rw [Entry.location_document, (blockEntry_spells hok).2.2, hstart]
          rw [hend] at hnext ⊢
          refine commentLines_stop_lt ?_ hnext
          intro hline
          exact Nat.lt_of_le_of_lt (commentLine_stop_le hlevel) (Cursor.lineEnd_lt_nextLine hline)
  | @entry m ms isTerm name start ending bs e' hok =>
    cases hlaid with
    | cons _ _ hreads hlaid =>
      obtain ⟨hentry, hdoc⟩ := consistent_blockEntry hok (hreads.fitsInput hover)
      refine ⟨?_, ?_⟩
      · rw [Entry.locations_of_doc_none hdoc]
        exact List.forall_mem_singleton.2 hentry
      · rw [Entry.DocBefore, hdoc]
        nofun
  | @broken m ms isTerm name start ending bs fault hfault =>
    obtain ⟨-, hstart, t, d, hreads, -, hposition⟩ := blocksFrom_entry hc hbs
    have hjunk : ((Source.ofString source).lines.locate ⟨c.offset, d.offset⟩).Of (.ofString source) :=
      Location.of_locate hreads.stretch.offset_le hover.isBoundary (hover.trans hreads.stretch).isBoundary
    rw [← hstart, ← hposition] at hjunk
    exact ⟨List.forall_mem_singleton.2 hjunk.leaf, nofun⟩

theorem Entry.location_ownLocations (e : Entry) : e.ownLocations.location = e.location := by
  cases e <;> rfl

/-- What takes the place of a rejected entry lies where the entry and its comment do. -/
theorem Entry.Located.rejected {s : Source} {e : Entry} {doc : Option Comment} (h : e.Located s)
    (hc : e.doc? = doc) (name : String) (span : Span) : ∀ e' ∈ rejected s e doc name span, e'.Located s := by
  obtain ⟨hdoc, hown⟩ := List.forall_mem_append.1 h.1
  have hof := (List.forall_mem_singleton.1 hown).of
  rw [location_ownLocations] at hof
  have hjunk : (Entry.junk ⟨s.slice e.location.span, .duplicateId span name, e.location⟩).Located s :=
    ⟨List.forall_mem_singleton.2 hof.leaf, nofun⟩
  refine List.forall_mem_append.2 ⟨?_, List.forall_mem_singleton.2 hjunk⟩
  cases doc with
  | none => exact List.forall_mem_nil _
  | some c =>
    rw [hc] at hdoc
    have hcomment : (Entry.comment c).Located s := ⟨hdoc, nofun⟩
    exact List.forall_mem_singleton.2 hcomment

/-- Rejecting duplicates leaves consistent locations. -/
theorem located_rejectDuplicates {s : Source} {seen : List String} {es : List Entry}
    (h : ∀ e ∈ es, e.Located s) : ∀ e ∈ rejectDuplicates s seen es, e.Located s := by
  fun_induction rejectDuplicates s seen es with
  | case1 => exact List.forall_mem_nil _
  | case2 seen m es key ih | case3 seen t es key ih =>
    obtain ⟨hfirst, hrest⟩ := List.forall_mem_cons.1 h
    refine List.forall_mem_append.2 ⟨?_, ih hrest⟩
    split
    · exact List.forall_mem_singleton.2 hfirst
    · rename_i name span _
      exact hfirst.rejected rfl name span
  | case4 seen e es _ _ ih =>
    obtain ⟨hfirst, hrest⟩ := List.forall_mem_cons.1 h
    exact List.forall_mem_cons.2 ⟨hfirst, ih hrest⟩

/-- The trees of an entry lie where the entry and its comment do. -/
theorem Entry.map_span_locations (e : Entry) : e.locations.map LocationTree.span = e.spans := by
  have hown : e.ownLocations.span = e.location.span := congrArg Location.span e.location_ownLocations
  rw [locations, spans, List.map_append, List.map_singleton, hown]
  cases e.doc? <;> rfl

theorem map_span_flatMap_locations (es : List Entry) :
    (es.flatMap Entry.locations).map LocationTree.span = extents es := by
  rw [List.map_flatMap, extents]
  congr 1
  funext e
  exact e.map_span_locations

/-- The locations of an entry belong to the source. -/
theorem located_of_mem_parse {o : ParseOptions} {source : String} {e : Entry} (he : e ∈ (parse o source).body) :
    e.Located (.ofString source) := by
  have hentries : ∀ e ∈ body (.ofString source) (tokenize o.maxNesting source.toList),
      e.Located (.ofString source) := by
    intro e he
    obtain ⟨c, hc, hleads⟩ := leads_of_mem_body he
    exact hleads.located hc rfl
  obtain ⟨policy, limit⟩ := o
  cases policy with
  | preserve => exact hentries e he
  | reject => exact located_rejectDuplicates hentries e he

/-- **Locations nest.** Every location of a resource is in bounds and between characters, with the line and
the column of both ends; it lies in the location of the node above, and nodes next to each other follow one
another without overlap. The comment that belongs to an entry ends before the entry starts. -/
theorem parse_locations (o : ParseOptions) (source : String) :
    (parse o source).locations.Consistent (.ofString source) ∧ ∀ e ∈ (parse o source).body, e.DocBefore := by
  obtain ⟨d, hlaid⟩ := laid_blocks o.maxNesting source
  obtain ⟨t, hcovered⟩ := (grouped_body o.maxNesting source).covered hlaid (.refl _)
  have htrees : ∀ e ∈ (parse o source).body, e.Located (.ofString source) := fun _ he => located_of_mem_parse he
  have hall : ∀ t ∈ (parse o source).body.flatMap Entry.locations, t.Consistent (.ofString source) := by
    intro t ht
    obtain ⟨e, he, ht⟩ := List.mem_flatMap.1 ht
    exact (htrees e he).1 t ht
  have hordered : ((parse o source).body.flatMap Entry.locations).Pairwise
      fun t u => t.span.stop ≤ u.span.start := by
    have hpairs := hcovered.ordered
    rwa [← extents_parse_body, ← map_span_flatMap_locations, List.pairwise_map] at hpairs
  have hwhole : (Source.ofString source).location.Of (.ofString source) := by
    have hend : isBoundary source.toList (Source.ofString source).size = true := by
      have hrest := fromOffset?_append source.toList []
      rw [List.append_nil] at hrest
      exact Option.isSome_iff_exists.2 ⟨[], hrest⟩
    exact Location.of_locate (Nat.zero_le _) (isBoundary_zero _) hend
  refine ⟨.node hwhole ?_ hordered hall, fun e he => (htrees e he).2⟩
  intro t ht
  exact ⟨Nat.zero_le _, (hall t ht).of.inBounds⟩

end Fluent
