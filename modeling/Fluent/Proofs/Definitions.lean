import Fluent.Proofs.Duplicates
import Fluent.Proofs.Labels

/-!
# The first definition of an id

Where duplicates are rejected, the first definition of an id decides what becomes of the id. Later ones are rejected
for the id, even if the first one is rejected itself, for an attribute.

* `mem_rejectDuplicates_iff`: an entry with an id is left if it is the first with that id and repeats no attribute.
* `message?_isSome_iff`: the id tells a message from a term.
* `first_definition_decides`: what rejecting leaves of an id.
* `exists_id_lost`: an id can be lost, although one of its definitions repeats no attribute.
-/

namespace Fluent

/-- A definition is left where duplicates are rejected if its id was not seen, it is the first with that id, and it
repeats no attribute. -/
theorem mem_rejectDuplicates_iff (s : Source) {seen : List String} {es : List Entry} {e : Entry} {key : String}
    (hid : e.id? = some key) : e ∈ rejectDuplicates s seen es ↔
      key ∉ seen ∧ es.find? (·.id? = some key) = some e ∧ (e.attributes.map (·.id.name)).Nodup := by
  induction es generalizing seen with
  | nil => simp [rejectDuplicates]
  | cons x es ih =>
    obtain ⟨part, hpart, hreject⟩ := exists_replaced s seen x es
    have hfirst : e ∈ part ↔ e = x ∧ ¬ x.IsDuplicate seen := by
      have hreplaced : ∀ name span, e ∉ x.asDuplicate s name span := by
        intro name span hmem
        cases hid.symm.trans (of_mem_asDuplicate hmem).1
      cases hpart with
      | kept hkept => simp [hkept]
      | forAttribute hdup => simp [hdup, hreplaced]
      | forId hdup => simp [hdup, hreplaced]
    rw [hreject, List.mem_append, hfirst, ih, List.mem_append, Option.mem_toList]
    by_cases hx : x.id? = some key
    · -- no later entry is the first with the id
      rw [List.find?_cons_of_pos (by simpa using hx)]
      simp only [hx, true_or, not_true, false_and, or_false, Entry.IsDuplicate, not_or, not_not, Option.some.injEq,
        Option.mem_def, exists_eq_left']
      constructor
      · rintro ⟨rfl, hseen, hnames⟩
        exact ⟨hseen, rfl, hnames⟩
      · rintro ⟨hseen, rfl, hnames⟩
        exact ⟨rfl, hseen, hnames⟩
    · have hne : e ≠ x := fun heq => hx (heq ▸ hid)
      rw [List.find?_cons_of_neg (by simpa using hx)]
      simp [hx, hne]

/-- **The id tells a message from a term**: that of a term begins with a dash, and a name does not. -/
theorem message?_isSome_iff {o : ParseOptions} {source : String} {e : Entry} {key : String}
    (he : e ∈ (parse o source).body) (hid : e.id? = some key) :
    e.message?.isSome = true ↔ key.toList.head? ≠ some '-' := by
  have hlexical := lexical_of_mem_parse he
  cases e with
  | message m =>
    obtain rfl := Option.some.inj hid
    have hname : IsName m.id.name.toList := hlexical.cons.1
    obtain ⟨x, xs, hchars, hx, -⟩ := hname
    have hletter : x ≠ '-' := by
      rintro rfl
      exact absurd hx (by decide)
    simp [Entry.message?, hchars, hletter]
  | term t =>
    obtain rfl := Option.some.inj hid
    simp [Entry.message?, String.toList_append]
  | comment | junk => cases hid

/-- **The first definition of an id decides.** Where duplicates are rejected, the id of a message or a term is left if
its first definition, which is of the same kind, repeats no attribute; then that definition is left, and no other one
with the id. So an entry that repeats no attribute is rejected only behind another definition of its id. -/
theorem first_definition_decides (limit : Nat) (source : String) {e : Entry} {key : String}
    (he : e ∈ (parse ⟨.preserve, limit⟩ source).body) (hid : e.id? = some key) :
    ∃ before first after, (parse ⟨.preserve, limit⟩ source).body = before ++ first :: after ∧
      key ∉ before.filterMap Entry.id? ∧ first.id? = some key ∧
      first.message?.isSome = e.message?.isSome ∧
      (∀ e', e' ∈ (parse ⟨.reject, limit⟩ source).body ∧ e'.id? = some key ↔
        e' = first ∧ (first.attributes.map (·.id.name)).Nodup) ∧
      ((e.attributes.map (·.id.name)).Nodup → e ∈ (parse ⟨.reject, limit⟩ source).body ∨ e ∈ after) := by
  have hleft : ∀ e' : Entry, e'.id? = some key → (e' ∈ (parse ⟨.reject, limit⟩ source).body ↔
      (parse ⟨.preserve, limit⟩ source).body.find? (·.id? = some key) = some e' ∧
        (e'.attributes.map (·.id.name)).Nodup) := by
    intro e' hid'
    show e' ∈ rejectDuplicates (.ofString source) [] (parse ⟨.preserve, limit⟩ source).body ↔ _
    rw [mem_rejectDuplicates_iff (.ofString source) hid']
    simp only [List.not_mem_nil, not_false_eq_true, true_and]
  obtain ⟨first, hfind⟩ : ∃ first, (parse ⟨.preserve, limit⟩ source).body.find? (·.id? = some key) = some first :=
    Option.isSome_iff_exists.1 (List.find?_isSome.2 ⟨e, he, by simpa using hid⟩)
  obtain ⟨hfirst, before, after, hbody, hbefore⟩ := List.find?_eq_some_iff_append.1 hfind
  have hfirst : first.id? = some key := by simpa using hfirst
  have hnone : ∀ x ∈ before, x.id? ≠ some key := fun x hx => by simpa using hbefore x hx
  have hmem : first ∈ (parse ⟨.preserve, limit⟩ source).body := List.mem_of_find?_eq_some hfind
  refine ⟨before, first, after, hbody, ?_, hfirst, ?_, ?_, ?_⟩
  · intro hmem
    obtain ⟨x, hx, hkey⟩ := List.mem_filterMap.1 hmem
    exact hnone x hx hkey
  · exact Bool.eq_iff_iff.2 ((message?_isSome_iff hmem hfirst).trans (message?_isSome_iff he hid).symm)
  · intro e'
    constructor
    · rintro ⟨he', hid'⟩
      obtain ⟨hfind', hnames⟩ := (hleft e' hid').1 he'
      obtain rfl := Option.some.inj (hfind'.symm.trans hfind)
      exact ⟨rfl, hnames⟩
    · rintro ⟨rfl, hnames⟩
      exact ⟨(hleft e' hfirst).2 ⟨hfind, hnames⟩, hfirst⟩
  · intro hnames
    rw [hbody] at he
    rcases List.mem_append.1 he with he | he
    · exact absurd hid (hnone e he)
    · rcases List.mem_cons.1 he with rfl | he
      · exact .inl ((hleft e hid).2 ⟨hfind, hnames⟩)
      · exact .inr he

/-- A message is left where the one in front of it has another id. -/
theorem definition_left : ∃ e before first after,
    e ∈ (parse ⟨.preserve, 100⟩ "m = 1\n .x = 1\n .x = 2\nn = 1\nn = 2\n").body ∧ e.id? = some "n" ∧
      (parse ⟨.preserve, 100⟩ "m = 1\n .x = 1\n .x = 2\nn = 1\nn = 2\n").body = before ++ first :: after ∧
      "n" ∉ before.filterMap Entry.id? ∧ first.id? = some "n" ∧ first.message?.isSome = e.message?.isSome ∧
      (∀ e', e' ∈ (parse ⟨.reject, 100⟩ "m = 1\n .x = 1\n .x = 2\nn = 1\nn = 2\n").body ∧ e'.id? = some "n" ↔
        e' = first ∧ (first.attributes.map (·.id.name)).Nodup) ∧
      ((e.attributes.map (·.id.name)).Nodup →
        e ∈ (parse ⟨.reject, 100⟩ "m = 1\n .x = 1\n .x = 2\nn = 1\nn = 2\n").body ∨ e ∈ after) := by
  have hids : "n" ∈ (parse ⟨.preserve, 100⟩ "m = 1\n .x = 1\n .x = 2\nn = 1\nn = 2\n").body.filterMap Entry.id? := by
    decide +kernel
  obtain ⟨e, he, hid⟩ := List.mem_filterMap.1 hids
  obtain ⟨before, first, after, hdecides⟩ := first_definition_decides 100 _ he hid
  exact ⟨e, before, first, after, he, hid, hdecides⟩

/-- **An id can be lost.** The first message repeats an attribute and is rejected for that; the second one repeats none,
and is rejected for its id. -/
theorem exists_id_lost :
    (∃ e ∈ (parse ⟨.preserve, 100⟩ "m = 1\n .x = 1\n .x = 2\nm = 2\n").body,
      e.id? = some "m" ∧ (e.attributes.map (·.id.name)).Nodup) ∧
    ∀ e ∈ (parse ⟨.reject, 100⟩ "m = 1\n .x = 1\n .x = 2\nm = 2\n").body, e.id? ≠ some "m" := by
  refine ⟨?_, ?_⟩
  · have hlast : (parse ⟨.preserve, 100⟩ "m = 1\n .x = 1\n .x = 2\nm = 2\n").body.getLast?.map
        (fun e => (e.id?, e.attributes.map (·.id.name))) = some (some "m", []) := by
      decide +kernel
    obtain ⟨e, he, hdata⟩ := Option.map_eq_some_iff.1 hlast
    obtain ⟨hid, hnames⟩ := Prod.mk.inj hdata
    exact ⟨e, List.mem_of_getLast? he, hid, by simp [hnames]⟩
  · have hids : (parse ⟨.reject, 100⟩ "m = 1\n .x = 1\n .x = 2\nm = 2\n").body.map Entry.id? = [none, none] := by
      decide +kernel
    intro e he hid
    have hmem := List.mem_map_of_mem (f := Entry.id?) he
    rw [hids, hid] at hmem
    simp at hmem

end Fluent
