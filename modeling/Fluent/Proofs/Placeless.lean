import Fluent.Proofs.Duplicates
import Fluent.Proofs.Unlocated

/-!
# Bodies but for places

Two bodies say the same if they agree once all locations, the positions of errors and the content of junk are wiped
out. Whether an entry is a duplicate hangs on none of these, nor on the junk before it.

* `Fault.placeless`, `Entry.placeless`: faults and entries with all places wiped out.
* `placeless_rejectDuplicates`: rejecting duplicates respects that.
* `unlocated_rejectDuplicates`: what it keeps hangs on what a body has besides junk.
* `placeless_parse`, `unlocated_parse`: the same under any policy.
-/

namespace Fluent

/-- The fault without the place it was noticed at. -/
def Fault.placeless : Fault → Fault
  | unexpected _ expected found => unexpected 0 expected found
  | unfinishedLine _ => unfinishedLine default
  | unterminatedString _ => unterminatedString default
  | invalidEscape _ raw => invalidEscape default raw
  | duplicateId _ id => duplicateId default id

/-- The entry without its locations; junk keeps only the kind of its fault. -/
def Entry.placeless : Entry → Entry
  | junk j => junk ⟨"", j.fault.placeless, default⟩
  | e => e.unlocated

variable {s : Source} {seen : List String} {e e' : Entry} {es es' : List Entry}

/-! ## What does not hang on places -/

theorem Entry.id?_placeless (e : Entry) : e.placeless.id? = e.id? := by cases e <;> rfl

theorem Entry.doc?_placeless (e : Entry) : e.placeless.doc? = e.doc?.map Comment.unlocated := by cases e <;> rfl

theorem Entry.attributes_placeless (e : Entry) :
    e.placeless.attributes.map (·.id.name) = e.attributes.map (·.id.name) := by
  cases e with
  | message m => exact attributeNames_unlocated (message m)
  | term t => exact attributeNames_unlocated (term t)
  | comment c => rfl
  | junk j => rfl

theorem Entry.placeless_of_junk (h : e.junk? = none) : e.placeless = e.unlocated := by
  cases e with
  | junk j => cases h
  | message | term | comment => rfl

theorem Entry.junk?_placeless (e : Entry) : e.placeless.junk?.isNone = e.junk?.isNone := by cases e <;> rfl

/-- Entries other than junk are located nowhere else. -/
theorem map_placeless_filter (es : List Entry) :
    (es.filter (·.junk?.isNone)).map Entry.placeless = (es.filter (·.junk?.isNone)).map Entry.unlocated := by
  refine List.map_congr_left ?_
  intro e he
  exact e.placeless_of_junk (by simpa using (List.mem_filter.1 he).2)

theorem filter_map_placeless (es : List Entry) :
    (es.map Entry.placeless).filter (·.junk?.isNone) = (es.filter (·.junk?.isNone)).map Entry.placeless := by
  have hjunk : (fun e : Entry => e.junk?.isNone) ∘ Entry.placeless = (·.junk?.isNone) := funext Entry.junk?_placeless
  rw [List.filter_map, hjunk]

theorem Entry.document_unlocated (c : Comment) (e : Entry) :
    (e.document c).unlocated = e.unlocated.document c.unlocated := by cases e <;> rfl

/-- What a comment says hangs on the tokens of its lines alone. -/
theorem unlocated_joinComment (s s' : Source) {l l' : Lexeme} {ls ls' : List Lexeme}
    (h : (l' :: ls').map (·.token) = (l :: ls).map (·.token)) :
    (joinComment s' l' ls').unlocated = (joinComment s l ls).unlocated := by
  have hparts (ls : List Lexeme) :
      ls.filterMap commentPart? = (ls.map (·.token)).filterMap fun t => commentPart? ⟨t, default⟩ := by
    rw [List.filterMap_map]
    rfl
  simp only [joinComment, Comment.unlocated, Comment.relocate, Location.wipe, hparts, h]

/-! ## Duplicates -/

/-- The name of the first repeated attribute hangs on the names alone. -/
theorem repeatedAttribute?_congr {as as' : List Attribute} (h : as.map (·.id.name) = as'.map (·.id.name)) :
    (repeatedAttribute? seen as).map (·.name) = (repeatedAttribute? seen as').map (·.name) := by
  induction as generalizing as' seen with
  | nil =>
    obtain rfl : as' = [] := by simpa using h.symm
    rfl
  | cons a as ih =>
    cases as' with
    | nil => simp at h
    | cons a' as' =>
      obtain ⟨hname, has⟩ : a.id.name = a'.id.name ∧ _ := List.cons.inj h
      rw [repeatedAttribute?, repeatedAttribute?, hname]
      split
      · exact congrArg some hname
      · exact ih has

/-- The name that makes an entry a duplicate, if it is one. -/
def Entry.duplicateName? (seen : List String) (e : Entry) : Option String :=
  e.id?.bind fun key =>
    ((repeatedAttribute? [] e.attributes).map (·.name)).or (if seen.contains key then some key else none)

theorem map_duplicate? {key : String} {id : Identifier} {as : List Attribute} :
    (duplicate? seen key id as).map (·.1) =
      ((repeatedAttribute? [] as).map (·.name)).or (if seen.contains key then some key else none) := by
  unfold duplicate?
  cases repeatedAttribute? [] as with
  | some a => rfl
  | none =>
    simp only [Option.map_none, Option.none_or]
    split <;> rfl

theorem Entry.duplicateName?_congr (h : e.placeless = e'.placeless) :
    e.duplicateName? seen = e'.duplicateName? seen := by
  have hid : e.id? = e'.id? := by rw [← e.id?_placeless, h, e'.id?_placeless]
  have hnames : e.attributes.map (·.id.name) = e'.attributes.map (·.id.name) := by
    rw [← e.attributes_placeless, h, e'.attributes_placeless]
  rw [duplicateName?, duplicateName?, hid, repeatedAttribute?_congr hnames]

/-- What becomes of an entry, but for places: a duplicate leaves its comment and junk of its name. -/
theorem placeless_rejectDuplicates_cons :
    (rejectDuplicates s seen (e :: es)).map Entry.placeless =
      (match e.duplicateName? seen with
        | none => [e.placeless]
        | some name => (e.placeless.doc?.map Entry.comment).toList ++ [.junk ⟨"", .duplicateId default name, default⟩])
        ++ (rejectDuplicates s (e.id?.toList ++ seen) es).map Entry.placeless := by
  -- only messages and terms have a name to be compared
  have hdefinition (d : Option (String × Span)) (hd : d.map (·.1) = e.duplicateName? seen) :
      (d.elim [e] fun found => e.asDuplicate s found.1 found.2).map Entry.placeless =
        match e.duplicateName? seen with
        | none => [e.placeless]
        | some name =>
          (e.placeless.doc?.map Entry.comment).toList ++ [.junk ⟨"", .duplicateId default name, default⟩] := by
    rw [← hd, e.doc?_placeless]
    cases d with
    | none => rfl
    | some d =>
      simp only [Option.map_some, Entry.asDuplicate]
      cases e.doc? <;> rfl
  cases e with
  | message m =>
    rw [← hdefinition (duplicate? seen m.id.name m.id m.attributes) map_duplicate?, ← List.map_append,
      rejectDuplicates]
    cases duplicate? seen m.id.name m.id m.attributes <;> rfl
  | term t =>
    rw [← hdefinition (duplicate? seen ("-" ++ t.id.name) t.id t.attributes) map_duplicate?, ← List.map_append,
      rejectDuplicates]
    cases duplicate? seen ("-" ++ t.id.name) t.id t.attributes <;> rfl
  | comment c => rfl
  | junk j => rfl

/-- **Rejecting duplicates** leaves the same of bodies that are the same but for places. -/
theorem placeless_rejectDuplicates (s s' : Source) (seen : List String)
    (h : es.map Entry.placeless = es'.map Entry.placeless) :
    (rejectDuplicates s seen es).map Entry.placeless = (rejectDuplicates s' seen es').map Entry.placeless := by
  induction es generalizing es' seen with
  | nil =>
    obtain rfl : es' = [] := by simpa using h.symm
    rfl
  | cons e es ih =>
    cases es' with
    | nil => simp at h
    | cons e' es' =>
      obtain ⟨he, hes⟩ := List.cons.inj h
      have hid : e.id? = e'.id? := by rw [← e.id?_placeless, he, e'.id?_placeless]
      rw [placeless_rejectDuplicates_cons, placeless_rejectDuplicates_cons, Entry.duplicateName?_congr he, he, hid,
        ih _ hes]

/-- Junk is left where it is, and has no name. -/
theorem filter_rejectDuplicates (s : Source) (seen : List String) (es : List Entry) :
    (rejectDuplicates s seen es).filter (·.junk?.isNone) =
      (rejectDuplicates s seen (es.filter (·.junk?.isNone))).filter (·.junk?.isNone) := by
  induction es generalizing seen with
  | nil => rfl
  | cons e es ih =>
    cases e with
    | junk j => exact ih seen
    | comment c => exact congrArg (Entry.comment c :: ·) (ih seen)
    | message m =>
      rw [List.filter_cons_of_pos rfl, rejectDuplicates, rejectDuplicates, List.filter_append, List.filter_append, ih]
    | term t =>
      rw [List.filter_cons_of_pos rfl, rejectDuplicates, rejectDuplicates, List.filter_append, List.filter_append, ih]

/-- **What is kept besides junk** hangs on what a body has besides junk. -/
theorem unlocated_rejectDuplicates (s s' : Source) (seen : List String)
    (h : (es.filter (·.junk?.isNone)).map Entry.unlocated = (es'.filter (·.junk?.isNone)).map Entry.unlocated) :
    ((rejectDuplicates s seen es).filter (·.junk?.isNone)).map Entry.unlocated =
      ((rejectDuplicates s' seen es').filter (·.junk?.isNone)).map Entry.unlocated := by
  rw [← map_placeless_filter, ← map_placeless_filter] at h ⊢
  have hkept := congrArg (List.filter (·.junk?.isNone)) (placeless_rejectDuplicates s s' seen h)
  rwa [filter_map_placeless, filter_map_placeless, ← filter_rejectDuplicates, ← filter_rejectDuplicates] at hkept

/-- Under any policy, sources whose bodies are the same but for places are parsed as the same but for places. -/
theorem placeless_parse (o : ParseOptions) {source source' : String}
    (h : (body (.ofString source) (tokenize o.maxNesting source.toList)).map Entry.placeless =
      (body (.ofString source') (tokenize o.maxNesting source'.toList)).map Entry.placeless) :
    (parse o source).body.map Entry.placeless = (parse o source').body.map Entry.placeless := by
  obtain ⟨policy, limit⟩ := o
  cases policy with
  | preserve => exact h
  | reject => exact placeless_rejectDuplicates _ _ [] h

/-- Under any policy, what is kept besides junk hangs on what the bodies have besides junk. -/
theorem unlocated_parse (o : ParseOptions) {source source' : String}
    (h : ((body (.ofString source) (tokenize o.maxNesting source.toList)).filter (·.junk?.isNone)).map Entry.unlocated =
      ((body (.ofString source') (tokenize o.maxNesting source'.toList)).filter (·.junk?.isNone)).map
        Entry.unlocated) :
    ((parse o source).body.filter (·.junk?.isNone)).map Entry.unlocated =
      ((parse o source').body.filter (·.junk?.isNone)).map Entry.unlocated := by
  obtain ⟨policy, limit⟩ := o
  cases policy with
  | preserve => exact h
  | reject => exact unlocated_rejectDuplicates _ _ [] h

end Fluent
