import Mathlib.Data.List.Nodup
import Fluent.Diagnostics
import Fluent.Grammar.Body

/-!
# What a list holds once more

Ids are compared across a resource and attributes within an entry, and the warnings and the policy that rejects
duplicates each have a scan of their own. All of them look for elements whose key an earlier one has.

* `Repeats key seen xs x`: the list `xs` holds the key of `x` once more.
* `forall_not_repeats`: nothing is repeated if the keys differ.
* `exists_duplicateIdsAfter`, `exists_duplicateAttributesAfter`: where the warnings are.
* `repeatedAttribute?_eq_none`, `repeatedAttribute?_eq_some`: the first repeated attribute.
-/

namespace Fluent

section

variable {α : Type} {key : α → Option String} {seen : List String} {x y : α} {xs ys : List α}

/-- The element stands in the list, and its key is in `seen` or is that of an earlier element. -/
def Repeats (key : α → Option String) (seen : List String) (xs : List α) (x : α) : Prop :=
  ∃ before after k, xs = before ++ x :: after ∧ key x = some k ∧ (k ∈ seen ∨ k ∈ before.filterMap key)

/-- The first element repeats a key that was seen; a later one may also repeat that of the first. -/
theorem repeats_cons : Repeats key seen (y :: ys) x ↔
    (y = x ∧ ∃ k ∈ seen, key y = some k) ∨ Repeats key ((key y).toList ++ seen) ys x := by
  have hfirst (before : List α) (k : String) : (k ∈ (key y).toList ++ seen ∨ k ∈ before.filterMap key) ↔
      k ∈ seen ∨ k ∈ (y :: before).filterMap key := by
    cases hy : key y with
    | none => simp [List.filterMap_cons_none hy]
    | some k' => simp [List.filterMap_cons_some hy, or_left_comm, or_assoc]
  constructor
  · rintro ⟨before, after, k, hys, hk, hrepeats⟩
    cases before with
    | nil =>
      obtain ⟨rfl, rfl⟩ := List.cons.inj hys
      exact .inl ⟨rfl, k, by simpa using hrepeats, hk⟩
    | cons z before =>
      obtain ⟨rfl, rfl⟩ := List.cons.inj hys
      exact .inr ⟨before, after, k, rfl, hk, (hfirst before k).2 hrepeats⟩
  · rintro (⟨rfl, k, hseen, hk⟩ | ⟨before, after, k, rfl, hk, hrepeats⟩)
    · exact ⟨[], ys, k, rfl, hk, .inl hseen⟩
    · exact ⟨y :: before, after, k, rfl, hk, (hfirst before k).1 hrepeats⟩

theorem not_repeats_nil : ¬ Repeats key seen [] x := by
  rintro ⟨before, after, k, hnil, -⟩
  simp at hnil

/-- Which keys were seen is all that counts. -/
theorem repeats_congr {seen' : List String} (h : ∀ k, k ∈ seen ↔ k ∈ seen') :
    Repeats key seen xs x ↔ Repeats key seen' xs x := by
  simp only [Repeats, h]

/-- Nothing is repeated where the keys differ, from each other and from those seen. -/
theorem forall_not_repeats : (∀ x, ¬ Repeats key seen xs x) ↔
    (xs.filterMap key).Nodup ∧ ∀ k ∈ xs.filterMap key, k ∉ seen := by
  induction xs generalizing seen with
  | nil => simp [not_repeats_nil]
  | cons y ys ih =>
    simp only [repeats_cons, not_or, forall_and, ih]
    cases hy : key y with
    | none => simp [List.filterMap_cons_none hy]
    | some k =>
      rw [List.filterMap_cons_some hy, List.nodup_cons, List.forall_mem_cons]
      simp only [Option.toList_some, List.singleton_append, List.mem_cons, not_or]
      constructor
      · rintro ⟨hfirst, hnodup, hnew⟩
        exact ⟨⟨fun hk => (hnew k hk).1 rfl, hnodup⟩, fun hseen => hfirst y ⟨rfl, k, hseen, rfl⟩,
          fun k' hk' => (hnew k' hk').2⟩
      · rintro ⟨⟨hk, hnodup⟩, hseen, hnew⟩
        refine ⟨?_, hnodup, fun k' hk' => ⟨fun heq => hk (heq ▸ hk'), hnew k' hk'⟩⟩
        rintro - ⟨rfl, k', hk', heq⟩
        exact hseen (Option.some.inj heq ▸ hk')

end

/-! ## Warnings -/

/-- Attributes are told apart by their names. -/
def Attribute.key (a : Attribute) : Option String := some a.id.name

theorem filterMap_key (as : List Attribute) : as.filterMap Attribute.key = as.map (·.id.name) := by
  rw [show Attribute.key = some ∘ fun a => a.id.name from rfl, List.filterMap_eq_map]

/-- Warnings about ids are at the entries that repeat one. -/
theorem exists_duplicateIdsAfter {seen : List String} {es : List Entry} {l : Location} :
    (∃ d ∈ Resource.duplicateIdsAfter seen es, d.location = l) ↔
      ∃ e, Repeats Entry.id? seen es e ∧ e.location = l := by
  fun_induction Resource.duplicateIdsAfter seen es with
  | case1 => simp [not_repeats_nil]
  | case2 seen e es hnone ih => simp [ih, repeats_cons, hnone]
  | case3 seen e es id hid hseen ih =>
    have hseen : id ∈ seen := by simpa using hseen
    have hagain (e' : Entry) : Repeats Entry.id? (id :: seen) es e' ↔ Repeats Entry.id? seen es e' :=
      repeats_congr (by simpa using hseen)
    simp [ih, repeats_cons, hid, hseen, hagain, or_and_right, exists_or]
  | case4 seen e es id hid hseen ih =>
    have hseen : id ∉ seen := by simpa using hseen
    simp [ih, repeats_cons, hid, hseen]

/-- Warnings about attributes are at those that repeat a name. -/
theorem exists_duplicateAttributesAfter {seen : List String} {as : List Attribute} {l : Location} :
    (∃ d ∈ Resource.duplicateAttributesAfter seen as, d.location = l) ↔
      ∃ a, Repeats Attribute.key seen as a ∧ a.location = l := by
  fun_induction Resource.duplicateAttributesAfter seen as with
  | case1 => simp [not_repeats_nil]
  | case2 seen a as hseen ih =>
    have hseen : a.id.name ∈ seen := by simpa using hseen
    have hagain (a' : Attribute) :
        Repeats Attribute.key (a.id.name :: seen) as a' ↔ Repeats Attribute.key seen as a' :=
      repeats_congr (by simpa using hseen)
    simp [ih, repeats_cons, Attribute.key, hseen, hagain, or_and_right, exists_or]
  | case3 seen a as hseen ih =>
    have hseen : a.id.name ∉ seen := by simpa using hseen
    simp [ih, repeats_cons, Attribute.key, hseen]

/-- No warnings where the ids differ. -/
theorem duplicateIds_eq_nil {r : Resource} : r.duplicateIds = [] ↔ (r.body.filterMap Entry.id?).Nodup := by
  have hnone : (∀ e, ¬ Repeats Entry.id? [] r.body e) ↔ _ := forall_not_repeats
  simp only [List.not_mem_nil, not_false_eq_true, implies_true, and_true] at hnone
  rw [← hnone, Resource.duplicateIds, List.eq_nil_iff_forall_not_mem]
  constructor
  · intro h e he
    obtain ⟨d, hd, -⟩ := exists_duplicateIdsAfter.2 ⟨e, he, rfl⟩
    exact h d hd
  · intro h d hd
    obtain ⟨e, he, -⟩ := exists_duplicateIdsAfter.1 ⟨d, hd, rfl⟩
    exact h e he

/-- Nothing is repeated among attributes of different names. -/
theorem forall_not_repeats_attributes {as : List Attribute} :
    (∀ a, ¬ Repeats Attribute.key [] as a) ↔ (as.map (·.id.name)).Nodup := by
  simp [forall_not_repeats, filterMap_key]

theorem duplicateAttributes_eq_nil {r : Resource} :
    r.duplicateAttributes = [] ↔ ∀ e ∈ r.body, (e.attributes.map (·.id.name)).Nodup := by
  rw [Resource.duplicateAttributes, List.flatMap_eq_nil_iff]
  refine forall₂_congr fun e _ => ?_
  rw [← forall_not_repeats_attributes, List.eq_nil_iff_forall_not_mem]
  constructor
  · intro h a ha
    obtain ⟨d, hd, -⟩ := exists_duplicateAttributesAfter.2 ⟨a, ha, rfl⟩
    exact h d hd
  · intro h d hd
    obtain ⟨a, ha, -⟩ := exists_duplicateAttributesAfter.1 ⟨d, hd, rfl⟩
    exact h a ha

/-! ## The first repeated attribute -/

theorem repeatedAttribute?_eq_none {seen : List String} {as : List Attribute} :
    repeatedAttribute? seen as = none ↔ (as.map (·.id.name)).Nodup ∧ ∀ a ∈ as, a.id.name ∉ seen := by
  induction as generalizing seen with
  | nil => simp [repeatedAttribute?]
  | cons a as ih =>
    rw [repeatedAttribute?, List.map_cons, List.nodup_cons, List.forall_mem_cons]
    by_cases hseen : a.id.name ∈ seen
    · simp [hseen]
    · simp only [List.contains_iff_mem, hseen, if_false, ih, List.mem_cons, not_or, List.mem_map, not_exists,
        not_and, not_false_eq_true, true_and]
      constructor
      · rintro ⟨hnodup, hnew⟩
        exact ⟨⟨fun b hb => (hnew b hb).1, hnodup⟩, fun b hb => (hnew b hb).2⟩
      · rintro ⟨⟨hfirst, hnodup⟩, hnew⟩
        exact ⟨hnodup, fun b hb => ⟨hfirst b hb, hnew b hb⟩⟩

/-- In front of the first repeated attribute the names differ. -/
theorem repeatedAttribute?_eq_some {seen : List String} {as : List Attribute} {id : Identifier}
    (h : repeatedAttribute? seen as = some id) : ∃ before a after, as = before ++ a :: after ∧ a.id = id ∧
      (a.id.name ∈ seen ∨ a.id.name ∈ before.map (·.id.name)) ∧ repeatedAttribute? seen before = none := by
  induction as generalizing seen with
  | nil => cases h
  | cons a as ih =>
    rw [repeatedAttribute?] at h
    split at h
    · rename_i hseen
      exact ⟨[], a, as, rfl, Option.some.inj h, .inl (by simpa using hseen), rfl⟩
    · rename_i hseen
      obtain ⟨before, b, after, rfl, hb, hrepeats, hbefore⟩ := ih h
      refine ⟨a :: before, b, after, rfl, hb, ?_, ?_⟩
      · rw [List.mem_cons, or_assoc, or_left_comm] at hrepeats
        simpa using hrepeats
      · rw [repeatedAttribute?, if_neg hseen, hbefore]

end Fluent
