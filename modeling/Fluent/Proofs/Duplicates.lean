import Fluent.Proofs.Nested
import Fluent.Proofs.Repeats

/-!
# Duplicates are rejected as they are warned about

One policy leaves entries with a repeated id or a repeated attribute in the body, for the diagnostics to warn
about; the other puts junk in their place. Both look for the same entries.

* `Resource.WarnsAbout r e`: a warning is at the entry, or at an attribute of it.
* `Apart`: locations tell entries and their attributes apart, as they do in a source.
* `warnsAbout_iff`: an entry is warned about for an id that an earlier one has, or for its own attributes.
* `Replaced s r e es`: what becomes of an entry.
* `reject_replaces_warned`: rejecting replaces what is warned about, and leaves nothing to warn about.
-/

namespace Fluent

/-- A warning is at the entry, or at one of its attributes: an entry in front of it has its id, or an attribute in front
of that one has its name. -/
def Resource.WarnsAbout (r : Resource) (e : Entry) : Prop :=
  (∃ d ∈ r.duplicateIds, d.location = e.location) ∨
    ∃ d ∈ r.duplicateAttributes, ∃ a ∈ e.attributes, d.location = a.location

/-- The name that a message or a term defines. -/
def Entry.name? : Entry → Option Identifier
  | message m => some m.id
  | term t => some t.id
  | _ => none

/-- What takes the place of an entry whose `name`, at `span`, is taken: its comment on its own, and junk of its
text. -/
def Entry.asDuplicate (s : Source) (e : Entry) (name : String) (span : Span) : List Entry :=
  (e.doc?.map Entry.comment).toList ++ [.junk ⟨s.slice e.location.span, .duplicateId span name, e.location⟩]

/-- What becomes of an entry when duplicates are rejected: only a duplicate is replaced, for the first attribute
whose name an earlier one has, or else for its id. -/
inductive Replaced (s : Source) (duplicate : Entry → Prop) : Entry → List Entry → Prop
  | kept {e : Entry} : ¬ duplicate e → Replaced s duplicate e [e]
  | forAttribute {e : Entry} {before after : List Attribute} {a : Attribute} : duplicate e →
      e.attributes = before ++ a :: after → a.id.name ∈ before.map (·.id.name) → (before.map (·.id.name)).Nodup →
      Replaced s duplicate e (e.asDuplicate s a.id.name a.id.location.span)
  | forId {e : Entry} {key : String} {id : Identifier} : duplicate e → (e.attributes.map (·.id.name)).Nodup →
      e.id? = some key → e.name? = some id → Replaced s duplicate e (e.asDuplicate s key id.location.span)

/-- An entry whose id was seen, or one with a repeated attribute: one that the policy to reject duplicates puts junk in
the place of. -/
def Entry.IsDuplicate (seen : List String) (e : Entry) : Prop :=
  (∃ id ∈ e.id?, id ∈ seen) ∨ ¬ (e.attributes.map (·.id.name)).Nodup

/-! ## Locations tell entries apart -/

/-- Entries at different locations, and with attributes at different locations. So the location of a warning tells what
it is about. -/
def Entry.Apart (e e' : Entry) : Prop :=
  e.location ≠ e'.location ∧ ∀ a ∈ e.attributes, ∀ a' ∈ e'.attributes, a.location ≠ a'.location

instance : Std.Symm Entry.Apart :=
  ⟨fun _ _ h => ⟨h.1.symm, fun a ha a' ha' => (h.2 a' ha' a ha).symm⟩⟩

section

variable {es before after : List Entry} {e e' : Entry}

theorem eq_of_location (h : es.Pairwise Entry.Apart) (he : e ∈ es) (he' : e' ∈ es)
    (hl : e.location = e'.location) : e = e' := by
  by_contra hne
  exact (h.forall he he' hne).1 hl

theorem eq_of_attribute (h : es.Pairwise Entry.Apart) (he : e ∈ es) (he' : e' ∈ es) {a a' : Attribute}
    (ha : a ∈ e.attributes) (ha' : a' ∈ e'.attributes) (hl : a.location = a'.location) : e = e' := by
  by_contra hne
  exact (h.forall he he' hne).2 a ha a' ha' hl

/-- An entry that is apart from the others repeats the id of one before it. -/
theorem repeats_iff_of_apart (h : (before ++ e :: after).Pairwise Entry.Apart) :
    Repeats Entry.id? [] (before ++ e :: after) e ↔ ∃ id ∈ e.id?, id ∈ before.filterMap Entry.id? := by
  constructor
  · rintro ⟨before', after', id, hes, hid, hrepeats⟩
    obtain ⟨-, hlater, hbetween⟩ := List.pairwise_append.1 h
    -- the entry stands nowhere else
    have hbefore : e ∉ before := fun hmem => (hbetween e hmem e List.mem_cons_self).1 rfl
    have hafter : e ∉ after := fun hmem => ((List.pairwise_cons.1 hlater).1 e hmem).1 rfl
    obtain ⟨rfl, -, -⟩ := (List.append_cons_inj_of_notMem hbefore hafter).1 hes
    exact ⟨id, hid, by simpa using hrepeats⟩
  · rintro ⟨id, hid, hbefore⟩
    exact ⟨before, after, id, rfl, hid, .inr hbefore⟩

/-- **Who is warned about**: an entry with an id that an earlier one has, or with a repeated attribute. -/
theorem warnsAbout_iff {r : Resource} (hbody : r.body = before ++ e :: after)
    (h : r.body.Pairwise Entry.Apart) :
    r.WarnsAbout e ↔ e.IsDuplicate (before.filterMap Entry.id?) := by
  have he : e ∈ r.body := by
    rw [hbody]
    exact List.mem_append_right _ List.mem_cons_self
  refine or_congr ?_ ?_
  · rw [Resource.duplicateIds, exists_duplicateIdsAfter, ← repeats_iff_of_apart (hbody ▸ h), ← hbody]
    constructor
    · rintro ⟨e', hrepeats, hl⟩
      have he' : e' ∈ r.body := by
        obtain ⟨before', after', -, hes, -⟩ := hrepeats
        rw [hes]
        exact List.mem_append_right _ List.mem_cons_self
      rwa [← eq_of_location h he' he hl]
    · exact fun hrepeats => ⟨e, hrepeats, rfl⟩
  · rw [← forall_not_repeats_attributes, not_forall_not]
    constructor
    · rintro ⟨d, hd, a, ha, hl⟩
      obtain ⟨e', he', hd⟩ := List.mem_flatMap.1 hd
      obtain ⟨a', hrepeats, hl'⟩ := exists_duplicateAttributesAfter.1 ⟨d, hd, rfl⟩
      have ha' : a' ∈ e'.attributes := by
        obtain ⟨before', after', -, has, -⟩ := hrepeats
        rw [has]
        exact List.mem_append_right _ List.mem_cons_self
      obtain rfl := eq_of_attribute h he' he ha' ha (hl'.trans hl)
      exact ⟨a', hrepeats⟩
    · rintro ⟨a, hrepeats⟩
      obtain ⟨d, hd, hl⟩ := exists_duplicateAttributesAfter.2 ⟨a, hrepeats, rfl⟩
      obtain ⟨before', after', -, has, -⟩ := hrepeats
      exact ⟨d, List.mem_flatMap.2 ⟨e, he, hd⟩, a, by simp [has], hl⟩

end

/-! ## Rejecting -/

/-- The name that makes a message or a term a duplicate, and where it stands. -/
theorem duplicate?_eq_some {seen : List String} {key name : String} {id : Identifier} {as : List Attribute}
    {span : Span}
    (h : duplicate? seen key id as = some (name, span)) :
    (∃ before a after, as = before ++ a :: after ∧ a.id.name ∈ before.map (·.id.name) ∧
      (before.map (·.id.name)).Nodup ∧ name = a.id.name ∧ span = a.id.location.span) ∨
    ((as.map (·.id.name)).Nodup ∧ key ∈ seen ∧ name = key ∧ span = id.location.span) := by
  unfold duplicate? at h
  split at h
  · rename_i a ha
    obtain ⟨rfl, rfl⟩ := Prod.mk.inj (Option.some.inj h)
    obtain ⟨before, b, after, rfl, rfl, hrepeats, hbefore⟩ := repeatedAttribute?_eq_some ha
    exact .inl ⟨before, b, after, rfl, by simpa using hrepeats, (repeatedAttribute?_eq_none.1 hbefore).1, rfl, rfl⟩
  · rename_i hnone
    split at h
    · rename_i hseen
      obtain ⟨rfl, rfl⟩ := Prod.mk.inj (Option.some.inj h)
      exact .inr ⟨(repeatedAttribute?_eq_none.1 hnone).1, by simpa using hseen, rfl, rfl⟩
    · cases h

theorem duplicate?_eq_none {seen : List String} {key : String} {id : Identifier} {as : List Attribute} :
    duplicate? seen key id as = none ↔ key ∉ seen ∧ (as.map (·.id.name)).Nodup := by
  have hnames : repeatedAttribute? [] as = none ↔ _ := repeatedAttribute?_eq_none
  unfold duplicate?
  split
  · rename_i a ha
    simp_all
  · rename_i hnone
    simp_all

/-- A message or a term is kept if it repeats nothing, and replaced for what it repeats. -/
theorem replaced_of_duplicate? (s : Source) {e : Entry} (seen : List String) {key : String} {id : Identifier}
    (hkey : e.id? = some key) (hid : e.name? = some id) :
    Replaced s (Entry.IsDuplicate seen) e (match duplicate? seen key id e.attributes with
      | none => [e]
      | some (name, span) => e.asDuplicate s name span) := by
  have hduplicate : e.IsDuplicate seen ↔ key ∈ seen ∨ ¬ (e.attributes.map (·.id.name)).Nodup := by
    simp [Entry.IsDuplicate, hkey]
  split
  · rename_i hnone
    obtain ⟨hseen, hnames⟩ := duplicate?_eq_none.1 hnone
    exact .kept (by simp [hduplicate, hseen, hnames])
  · rename_i name span hsome
    obtain ⟨before, a, after, has, hrepeats, hbefore, rfl, rfl⟩ | ⟨hnames, hseen, rfl, rfl⟩ :=
      duplicate?_eq_some hsome
    · refine .forAttribute (hduplicate.2 (.inr ?_)) has hrepeats hbefore
      rw [has, List.map_append, List.map_cons, List.nodup_append]
      exact fun hnodup => hnodup.2.2 _ hrepeats _ List.mem_cons_self rfl
    · exact .forId (hduplicate.2 (.inl hseen)) hnames hkey hid

/-- An entry behind others whose ids were seen is replaced if it is a duplicate, and its id is seen from then on. -/
theorem exists_replaced (s : Source) (seen : List String) (e : Entry) (es : List Entry) :
    ∃ part, Replaced s (Entry.IsDuplicate seen) e part ∧
      rejectDuplicates s seen (e :: es) = part ++ rejectDuplicates s (e.id?.toList ++ seen) es := by
  cases e with
  | message m => exact ⟨_, replaced_of_duplicate? s seen (e := .message m) rfl rfl, rfl⟩
  | term t => exact ⟨_, replaced_of_duplicate? s seen (e := .term t) rfl rfl, rfl⟩
  | comment c => exact ⟨_, .kept (by simp [Entry.IsDuplicate, Entry.id?, Entry.attributes]), rfl⟩
  | junk j => exact ⟨_, .kept (by simp [Entry.IsDuplicate, Entry.id?, Entry.attributes]), rfl⟩

theorem Replaced.congr {s : Source} {P Q : Entry → Prop} {e : Entry} {part : List Entry}
    (h : Replaced s P e part) (hPQ : P e ↔ Q e) : Replaced s Q e part := by
  cases h with
  | kept hkept => exact .kept (hPQ.not.1 hkept)
  | forAttribute hdup has hrepeats hbefore => exact .forAttribute (hPQ.1 hdup) has hrepeats hbefore
  | forId hdup hnames hkey hid => exact .forId (hPQ.1 hdup) hnames hkey hid

/-- Behind some entries, whose ids were seen, every entry is replaced if it is warned about. -/
theorem replaced_rejectDuplicates (s : Source) {r : Resource} (h : r.body.Pairwise Entry.Apart)
    {seen : List String} {before es : List Entry} (hbody : r.body = before ++ es)
    (hseen : ∀ id, id ∈ seen ↔ id ∈ before.filterMap Entry.id?) :
    ∃ parts, List.Forall₂ (Replaced s r.WarnsAbout) es parts ∧ rejectDuplicates s seen es = parts.flatten := by
  induction es generalizing before seen with
  | nil => exact ⟨[], .nil, rfl⟩
  | cons e es ih =>
    obtain ⟨part, hpart, hreject⟩ := exists_replaced s seen e es
    have hwarns : e.IsDuplicate seen ↔ r.WarnsAbout e := by
      simp only [warnsAbout_iff hbody h, Entry.IsDuplicate, hseen]
    have hsplit : r.body = (before ++ [e]) ++ es := by rw [hbody, List.append_assoc, List.singleton_append]
    have hseen' : ∀ id, id ∈ e.id?.toList ++ seen ↔ id ∈ (before ++ [e]).filterMap Entry.id? := by
      intro id
      cases hid : e.id? <;> simp [hid, hseen, or_comm]
    obtain ⟨parts, hparts, hrest⟩ := ih hsplit hseen'
    exact ⟨part :: parts, .cons (hpart.congr hwarns) hparts, by rw [hreject, hrest, List.flatten_cons]⟩

/-- What takes the place of a duplicate defines nothing. -/
theorem of_mem_asDuplicate {s : Source} {e e' : Entry} {name : String} {span : Span}
    (h : e' ∈ e.asDuplicate s name span) : e'.id? = none ∧ e'.attributes = [] := by
  rcases List.mem_append.1 h with hcomment | hjunk
  · obtain ⟨c, -, rfl⟩ : ∃ c, e.doc? = some c ∧ Entry.comment c = e' := by simpa using hcomment
    exact ⟨rfl, rfl⟩
  · obtain rfl := List.mem_singleton.1 hjunk
    exact ⟨rfl, rfl⟩

/-- What becomes of an entry has no id but that of the entry, and only if it was not seen. -/
theorem Replaced.nodup {s : Source} {seen : List String} {e : Entry} {part : List Entry}
    (h : Replaced s (Entry.IsDuplicate seen) e part) :
    (part.filterMap Entry.id?).Nodup ∧ (∀ id ∈ part.filterMap Entry.id?, id ∈ e.id?.toList ∧ id ∉ seen) ∧
      ∀ e' ∈ part, (e'.attributes.map (·.id.name)).Nodup := by
  -- junk and comments have neither ids nor attributes
  have hduplicate {name : String} {span : Span} : ((e.asDuplicate s name span).filterMap Entry.id?).Nodup ∧
      (∀ id ∈ (e.asDuplicate s name span).filterMap Entry.id?, id ∈ e.id?.toList ∧ id ∉ seen) ∧
      ∀ e' ∈ e.asDuplicate s name span, (e'.attributes.map (·.id.name)).Nodup := by
    have hnone : (e.asDuplicate s name span).filterMap Entry.id? = [] :=
      List.filterMap_eq_nil_iff.2 fun e' he' => (of_mem_asDuplicate he').1
    rw [hnone]
    exact ⟨.nil, List.forall_mem_nil _, fun e' he' => by simp [(of_mem_asDuplicate he').2]⟩
  cases h with
  | kept hkept =>
    obtain ⟨hseen, hnames⟩ := not_or.1 hkept
    refine ⟨?_, ?_, List.forall_mem_singleton.2 (not_not.1 hnames)⟩
    · cases hid : e.id? <;> simp [hid]
    · intro id hid
      have hid : e.id? = some id := by simpa using hid
      exact ⟨by simp [hid], fun hmem => hseen ⟨id, hid, hmem⟩⟩
  | forAttribute => exact hduplicate
  | forId => exact hduplicate

/-- Of the entries that are left none has an id that was seen, no two have the same, and none repeats an
attribute. -/
theorem nodup_rejectDuplicates (s : Source) (seen : List String) (es : List Entry) :
    ((rejectDuplicates s seen es).filterMap Entry.id?).Nodup ∧
      (∀ id ∈ (rejectDuplicates s seen es).filterMap Entry.id?, id ∉ seen) ∧
      ∀ e ∈ rejectDuplicates s seen es, (e.attributes.map (·.id.name)).Nodup := by
  induction es generalizing seen with
  | nil => simp [rejectDuplicates]
  | cons e es ih =>
    obtain ⟨part, hpart, hreject⟩ := exists_replaced s seen e es
    obtain ⟨hnodup, hnew, hnames⟩ := ih (e.id?.toList ++ seen)
    obtain ⟨hnodup', hnew', hnames'⟩ := hpart.nodup
    simp only [List.mem_append, not_or] at hnew
    rw [hreject, List.filterMap_append, List.nodup_append]
    refine ⟨⟨hnodup', hnodup, ?_⟩, ?_, List.forall_mem_append.2 ⟨hnames', hnames⟩⟩
    · rintro id hid _ hlater rfl
      exact (hnew id hlater).1 (hnew' id hid).1
    · exact List.forall_mem_append.2 ⟨fun id hid => (hnew' id hid).2, fun id hid => (hnew id hid).2⟩

/-! ## A source -/

/-- Every name among the tokens takes source text, and so does every minus. So what begins with one lies at a place of
its own. -/
def Input.NamesExtend (i : Input) : Prop :=
  ∀ l ∈ i.lexemes, l.token.opensEntry = true → l.span.start < l.span.stop

theorem Input.NamesExtend.of_spends {i j : Input} {ls : List Lexeme} (h : i.NamesExtend)
    (hspends : i.Spends ls j) : j.NamesExtend := by
  intro l hl
  apply h l
  rw [hspends.lexemes]
  exact List.mem_append_right _ hl

/-- An attribute that is read takes source text. -/
theorem Derives.attribute_lt {source : String} {i j : Input} {as : List Attribute}
    (h : Derives (Source.ofString source).lines i (.attributes as) j) (hi : i.Fits (.ofString source))
    (hnames : i.NamesExtend) : ∀ a ∈ as, a.location.span.start < a.location.span.stop := by
  induction as generalizing i with
  | nil => exact List.forall_mem_nil _
  | cons a as ih =>
    cases h with
    | attributesCons ha has =>
      have hfits := (ha.lays hi).fits
      obtain ⟨ls, hspends, -⟩ := ha.writes
      refine List.forall_mem_cons.2 ⟨?_, ih has hfits (hnames.of_spends hspends)⟩
      cases ha with
      | oneAttribute hdot hid hequals hvalue =>
        -- the name stands between the dot and the end
        have hbegin := (hi.head hdot).2.ordered
        have hbehind := ((hi.spends hdot).head hid.1).1
        rw [Input.Fits.readTo_eq hdot rfl] at hbehind
        have hname := (hnames.of_spends hdot) _ (by rw [hid.1.lexemes]; exact List.mem_cons_self) rfl
        have hskip := ((hi.spends hdot).id hid).fits.skip hequals
        have hend := (hskip.trans (hvalue.lays hskip.fits)).chain.le
        rw [Input.Fits.readTo_eq hid.1 rfl] at hend
        exact Nat.lt_of_lt_of_le (Nat.lt_of_le_of_lt (Nat.le_trans hbegin hbehind) hname) hend

theorem Entry.Derived.attribute_lt {source : String} {i : Input} {e : Entry}
    (h : e.Derived (Source.ofString source).lines i) (hi : i.Fits (.ofString source)) (hnames : i.NamesExtend) :
    ∀ a ∈ e.attributes, a.location.span.start < a.location.span.stop := by
  cases h with
  | message hid hequals hvalue has _ _ =>
    have hskip := (hi.id hid).fits.skip hequals
    obtain ⟨ls, hspends, -⟩ := hvalue.writes
    exact has.attribute_lt (hvalue.lays hskip.fits).fits
      (((hnames.of_spends hid.1).of_spends hequals).of_spends hspends)
  | term hminus hid hequals hvalue has _ =>
    have hskip := ((hi.spends hminus).id hid).fits.skip hequals
    obtain ⟨ls, hspends, -⟩ := hvalue.writes
    exact has.attribute_lt (hvalue.lays hskip.fits).fits
      ((((hnames.of_spends hminus).of_spends hid.1).of_spends hequals).of_spends hspends)

/-- The attributes of an entry block take source text. -/
theorem attribute_lt_blockEntry {source : String} {c d : Cursor} {pre t : List Char} {m : Lexeme} {ms : List Lexeme}
    {bs : List Block} {e : Entry} (h : blockEntry (.ofString source) m ms bs = .ok e)
    (hreads : Reads Anywhere c t ((m :: ms).reverse.map .lexeme) d)
    (hover : (Cursor.ofChars source.toList).Over pre c) :
    ∀ a ∈ e.attributes, a.location.span.start < a.location.span.stop := by
  have hderived := derived_entry h
  rw [lines_fenceAt] at hderived
  refine hderived.attribute_lt (hreads.fitsInput hover) ?_
  intro l hl hopens
  exact hreads.start_lt_stop (List.mem_reverse.2 hl) (.inl hopens)

theorem Entry.attributes_document (c : Comment) (e : Entry) : (e.document c).attributes = e.attributes := by
  cases e <;> rfl

/-- The attributes of an entry of a body take source text. -/
theorem attribute_lt_body {limit : Nat} {source : String} {e : Entry}
    (he : e ∈ body (.ofString source) (tokenize limit source.toList)) :
    ∀ a ∈ e.attributes, a.location.span.start < a.location.span.stop := by
  obtain ⟨c, hc, hleads⟩ := leads_of_mem_body he
  obtain ⟨d, hlaid⟩ := laid_blocksFrom limit hc.startsLine
  obtain ⟨pre, hover, -⟩ := id hc
  generalize blocksFrom limit c = bs at hleads hlaid
  cases hleads with
  | stray | comment | broken => exact List.forall_mem_nil _
  | documented hok =>
    cases hlaid with
    | cons _ _ hreads hlaid =>
      cases hlaid with
      | cons _ _ hreads' _ =>
        rw [Entry.attributes_document]
        exact attribute_lt_blockEntry hok hreads' (hover.trans hreads.stretch)
  | entry hok =>
    cases hlaid with
    | cons _ _ hreads _ => exact attribute_lt_blockEntry hok hreads hover

/-- The location of an attribute lies in that of its entry. -/
theorem Entry.Located.attribute {s : Source} {e : Entry} (h : e.Located s) {a : Attribute} (ha : a ∈ e.attributes) :
    e.location.span.start ≤ a.location.span.start ∧ a.location.span.stop ≤ e.location.span.stop := by
  have hown := h.1 e.ownLocations (List.mem_append_right _ (List.mem_singleton_self _))
  cases e with
  | message m =>
    cases hown with
    | node _ hwithin _ _ =>
      exact hwithin a.locations
        (List.mem_cons_of_mem _ (List.mem_append_right _ (List.mem_map_of_mem (f := Attribute.locations) ha)))
  | term t =>
    cases hown with
    | node _ hwithin _ _ =>
      exact hwithin a.locations
        (List.mem_cons_of_mem _ (List.mem_cons_of_mem _ (List.mem_map_of_mem (f := Attribute.locations) ha)))
  | comment | junk => cases ha

/-- **The entries of a source are apart**, and so are the attributes of any two of them, since each of these takes
source text of its own. -/
theorem apart_body (limit : Nat) (source : String) :
    (body (.ofString source) (tokenize limit source.toList)).Pairwise Entry.Apart := by
  obtain ⟨d, hlaid⟩ := laid_blocks limit source
  obtain ⟨t, hcovered⟩ := (grouped_body limit source).covered hlaid (.refl _)
  have hspan (e : Entry) : e.location.span ∈ e.spans := List.mem_append_right _ (List.mem_singleton_self _)
  have hordered := (List.pairwise_flatMap.1 hcovered.ordered).2
  refine hordered.imp_of_mem ?_
  intro e e' he he' hbehind
  have hbehind := hbehind _ (hspan e) _ (hspan e')
  refine ⟨?_, ?_⟩
  · intro hl
    have hextent := (hcovered.within _ (List.mem_flatMap.2 ⟨e, he, hspan e⟩)).2.1
    rw [hl] at hbehind hextent
    omega
  · intro a ha a' ha' hl
    obtain ⟨c, hc, hleads⟩ := leads_of_mem_body he
    obtain ⟨c', hc', hleads'⟩ := leads_of_mem_body he'
    have hwithin := (hleads.located hc rfl).attribute ha
    have hwithin' := (hleads'.located hc' rfl).attribute ha'
    have hextent := attribute_lt_body he a ha
    rw [hl] at hwithin hextent
    omega

/-- **Rejecting duplicates replaces what the diagnostics warn about.** Where duplicates are kept, an entry is warned
about or not. Where they are rejected the body is the same but for the entries warned about: each of them is replaced,
in its place, by its comment and by junk that names its first repeated attribute, or else its id. Nothing is left to
warn about. -/
theorem reject_replaces_warned (limit : Nat) (source : String) :
    (∃ parts, List.Forall₂ (Replaced (.ofString source) (parse ⟨.preserve, limit⟩ source).WarnsAbout)
        (parse ⟨.preserve, limit⟩ source).body parts ∧ (parse ⟨.reject, limit⟩ source).body = parts.flatten) ∧
      (parse ⟨.reject, limit⟩ source).duplicateIds = [] ∧ (parse ⟨.reject, limit⟩ source).duplicateAttributes = [] := by
  have happart : (parse ⟨.preserve, limit⟩ source).body.Pairwise Entry.Apart := apart_body limit source
  obtain ⟨hids, -, hnames⟩ := nodup_rejectDuplicates (.ofString source) [] (parse ⟨.preserve, limit⟩ source).body
  have hbody : (parse ⟨.preserve, limit⟩ source).body = [] ++ (parse ⟨.preserve, limit⟩ source).body := rfl
  exact ⟨replaced_rejectDuplicates _ happart hbody (by simp), duplicateIds_eq_nil.2 hids,
    duplicateAttributes_eq_nil.2 hnames⟩

end Fluent
