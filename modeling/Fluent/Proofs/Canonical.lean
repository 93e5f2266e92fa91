import Mathlib
import Fluent.CharSet.Basic

/-!
# Canonical sets of characters

A set of characters has one list of ranges in ascending order that leaves a gap of at least one character between any
two. Every operation on sets returns this list, so that sets with the same members are equal and the laws of unions
follow from those of `or`.

* `CharRange.Apart`: a range begins beyond the character after the end of an earlier one.
* `CharSet.Canonical`: the ranges of a set are apart.
* `canonical_ofRanges`, `canonical_difference`: operations keep that.
* `mem_ofRanges`, `mem_union`, `mem_difference`: the members of what they return.
* `contains_iff`: bisection finds the members of a canonical set.
* `Canonical.ext`: there is one canonical list for a set.
-/

namespace Fluent

/-! ## Neighbours among the characters -/

theorem toNat_lt_or_lt (c : Char) : c.toNat < 0xD800 ∨ 0xDFFF < c.toNat ∧ c.toNat < 0x110000 := c.valid

theorem char_lt_iff {a b : Char} : a < b ↔ a.toNat < b.toNat := Iff.rfl

theorem char_le_iff {a b : Char} : a ≤ b ↔ a.toNat ≤ b.toNat := Iff.rfl

theorem char_eq_iff {a b : Char} : a = b ↔ a.toNat = b.toNat :=
  ⟨congrArg Char.toNat, fun h => Char.ext (UInt32.toNat_inj.1 h)⟩

theorem toNat_ofNat_of_valid {n : Nat} (h : n < 0xD800 ∨ 0xDFFF < n ∧ n < 0x110000) :
    (Char.ofNat n).toNat = n := by
  rw [Char.ofNat, dif_pos h]
  rfl

/-- The next character is the least one beyond. -/
theorem lt_iff_of_nextChar? {c d : Char} (h : nextChar? c = some d) (e : Char) : c < e ↔ d ≤ e := by
  have hc := toNat_lt_or_lt c
  have he := toNat_lt_or_lt e
  unfold nextChar? at h
  rw [char_lt_iff, char_le_iff]
  split at h
  · rename_i hgap
    obtain rfl := Option.some.inj h
    rw [hgap]
    change 0xD7FF < e.toNat ↔ 0xE000 ≤ e.toNat
    omega
  · rename_i hgap
    split at h
    · cases h
    · rename_i hlast
      obtain rfl := Option.some.inj h
      have hbefore : c.toNat ≠ 0xD7FF := fun h => hgap (char_eq_iff.2 h)
      have hend : c.toNat ≠ 0x10FFFF := fun h => hlast (char_eq_iff.2 h)
      rw [toNat_ofNat_of_valid (by omega)]
      omega

/-- Nothing is beyond a character without a next one. -/
theorem le_of_nextChar?_eq_none {c : Char} (h : nextChar? c = none) (e : Char) : e ≤ c := by
  have he := toNat_lt_or_lt e
  unfold nextChar? at h
  split at h
  · cases h
  · split at h
    · rename_i hlast
      rw [hlast, char_le_iff]
      change e.toNat ≤ 0x10FFFF
      omega
    · cases h

/-- The character before is the greatest one below. -/
theorem lt_iff_of_previousChar? {c d : Char} (h : previousChar? c = some d) (e : Char) :
    e < c ↔ e ≤ d := by
  have hc := toNat_lt_or_lt c
  have he := toNat_lt_or_lt e
  unfold previousChar? at h
  rw [char_lt_iff, char_le_iff]
  split at h
  · rename_i hgap
    obtain rfl := Option.some.inj h
    rw [hgap]
    change e.toNat < 0xE000 ↔ e.toNat ≤ 0xD7FF
    omega
  · rename_i hgap
    split at h
    · cases h
    · rename_i hfirst
      obtain rfl := Option.some.inj h
      have hafter : c.toNat ≠ 0xE000 := fun h => hgap (char_eq_iff.2 h)
      have hstart : c.toNat ≠ 0 := fun h => hfirst (char_eq_iff.2 h)
      rw [toNat_ofNat_of_valid (by omega)]
      omega

/-- Nothing is below a character with none before it. -/
theorem le_of_previousChar?_eq_none {c : Char} (h : previousChar? c = none) (e : Char) : c ≤ e := by
  unfold previousChar? at h
  split at h
  · cases h
  · split at h
    · rename_i hfirst
      rw [hfirst, char_le_iff]
      exact Nat.zero_le _
    · cases h

/-! ## Ranges -/

namespace CharRange

instance : Membership Char CharRange := ⟨fun r c => r.first ≤ c ∧ c ≤ r.last⟩

theorem mem_iff {r : CharRange} {c : Char} : c ∈ r ↔ r.first ≤ c ∧ c ≤ r.last := Iff.rfl

/-- The later range begins beyond the character after the end of the earlier one, so the two could not be one range.
There are no characters from U+D800 to U+DFFF: the one after U+D7FF is U+E000. -/
def Apart (r later : CharRange) : Prop := ∃ c, nextChar? r.last = some c ∧ c < later.first

/-- Between ranges that are apart there is a character of neither. -/
theorem Apart.exists_between {r s : CharRange} (h : r.Apart s) : ∃ c, r.last < c ∧ c < s.first := by
  obtain ⟨c, hc, hlt⟩ := h
  exact ⟨c, (lt_iff_of_nextChar? hc c).2 le_rfl, hlt⟩

theorem apart_of_lt {r s : CharRange} {c : Char} (hr : r.last < c) (hs : c < s.first) : r.Apart s := by
  cases hnext : nextChar? r.last with
  | none => exact absurd hr (not_lt.2 (le_of_nextChar?_eq_none hnext c))
  | some d => exact ⟨d, hnext, lt_of_le_of_lt ((lt_iff_of_nextChar? hnext c).1 hr) hs⟩

theorem Apart.last_lt {r s : CharRange} (h : r.Apart s) : r.last < s.first := by
  obtain ⟨c, hr, hs⟩ := h.exists_between
  exact lt_trans hr hs

/-- A range is apart from whatever begins no earlier. -/
theorem Apart.of_le {r s t : CharRange} (h : r.Apart s) (hle : s.first ≤ t.first) : r.Apart t := by
  obtain ⟨c, hc, hlt⟩ := h
  exact ⟨c, hc, lt_of_lt_of_le hlt hle⟩

theorem Apart.of_last_le {r s t : CharRange} (h : s.Apart t) (hle : r.last ≤ s.last) : r.Apart t := by
  obtain ⟨c, hs, ht⟩ := h.exists_between
  exact apart_of_lt (lt_of_le_of_lt hle hs) ht

theorem apart_of_not_touches {r s : CharRange} (h : r.touches s = false) : r.Apart s := by
  unfold touches at h
  split at h
  · rename_i c hc
    exact ⟨c, hc, lt_of_not_ge (of_decide_eq_false h)⟩
  · cases h

/-- A range that touches an earlier one covers no gap behind it. -/
theorem le_of_touches {r s : CharRange} (h : r.touches s = true) {c : Char} (hc : r.last < c) :
    s.first ≤ c := by
  unfold touches at h
  split at h
  · rename_i d hd
    exact le_trans (of_decide_eq_true h) ((lt_iff_of_nextChar? hd c).1 hc)
  · rename_i hnone
    exact absurd hc (not_lt.2 (le_of_nextChar?_eq_none hnone c))

@[simp] theorem mem_single {a c : Char} : c ∈ single a ↔ c = a :=
  ⟨fun h => le_antisymm h.2 h.1, fun h => h ▸ ⟨le_rfl, le_rfl⟩⟩

/-- Bounds in the wrong order are swapped. -/
theorem mem_between {a b c : Char} : c ∈ between a b ↔ a ≤ c ∧ c ≤ b ∨ b ≤ c ∧ c ≤ a := by
  unfold between
  split
  · rename_i hle
    refine ⟨.inl, fun h => h.elim id fun h => ?_⟩
    exact ⟨le_trans hle h.1, le_trans h.2 hle⟩
  · rename_i hnot
    have hle : b ≤ a := le_of_lt (lt_of_not_ge hnot)
    refine ⟨.inr, fun h => h.elim (fun h => ?_) id⟩
    exact ⟨le_trans hle h.1, le_trans h.2 hle⟩

theorem between_of_le {a b : Char} (h : a ≤ b) : between a b = ⟨a, b, h⟩ := dif_pos h

@[simp] theorem first_extend (r s : CharRange) : (r.extend s).first = r.first := by
  unfold extend
  split <;> rfl

/-- A range and a later one that touches it make one range. -/
theorem mem_extend {r s : CharRange} (htouch : r.touches s = true) (hle : r.first ≤ s.first) {c : Char} :
    c ∈ r.extend s ↔ c ∈ r ∨ c ∈ s := by
  have hgap : r.last < c → s.first ≤ c := le_of_touches htouch
  unfold extend
  split
  · rename_i hlast
    simp only [mem_iff]
    refine ⟨fun ⟨hfirst, hend⟩ => ?_, ?_⟩
    · rcases le_or_gt c r.last with hc | hc
      · exact .inl ⟨hfirst, hc⟩
      · exact .inr ⟨hgap hc, hend⟩
    · rintro (⟨hfirst, hend⟩ | ⟨hfirst, hend⟩)
      · exact ⟨hfirst, le_trans hend hlast⟩
      · exact ⟨le_trans hle hfirst, hend⟩
  · rename_i hlast
    refine ⟨.inl, fun h => h.elim id fun ⟨hfirst, hend⟩ => ?_⟩
    exact ⟨le_trans hle hfirst, le_trans hend (le_of_lt (lt_of_not_ge hlast))⟩

end CharRange

/-! ## Sets -/

namespace CharSet

instance : Membership Char CharSet := ⟨fun s c => ∃ r ∈ s.ranges, c ∈ r⟩

theorem mem_iff {s : CharSet} {c : Char} : c ∈ s ↔ ∃ r ∈ s.ranges, c ∈ r := Iff.rfl

@[simp] theorem not_mem_nil {c : Char} : c ∉ (⟨[]⟩ : CharSet) := by
  rintro ⟨r, hr, -⟩
  cases hr

@[simp] theorem mem_cons {r : CharRange} {rs : List CharRange} {c : Char} :
    c ∈ (⟨r :: rs⟩ : CharSet) ↔ c ∈ r ∨ c ∈ (⟨rs⟩ : CharSet) := by
  simp only [mem_iff, List.mem_cons, exists_eq_or_imp]

@[simp] theorem mem_append {rs ts : List CharRange} {c : Char} :
    c ∈ (⟨rs ++ ts⟩ : CharSet) ↔ c ∈ (⟨rs⟩ : CharSet) ∨ c ∈ (⟨ts⟩ : CharSet) := by
  simp only [mem_iff, List.mem_append, or_and_right, exists_or]

/-- The ranges of a set ascend, with a gap between any two. Of all the lists of ranges with some members this is the
case for one only. -/
def Canonical (s : CharSet) : Prop := s.ranges.Pairwise CharRange.Apart

theorem canonical_nil : (⟨[]⟩ : CharSet).Canonical := List.Pairwise.nil

theorem canonical_cons {r : CharRange} {rs : List CharRange} :
    (⟨r :: rs⟩ : CharSet).Canonical ↔ (∀ s ∈ rs, r.Apart s) ∧ (⟨rs⟩ : CharSet).Canonical :=
  List.pairwise_cons

/-! ### Joining -/

/-- Nothing that is joined begins before the first range. -/
theorem first_le_of_mem_joinFrom {r t : CharRange} {rs : List CharRange}
    (hsort : (r :: rs).Pairwise fun r s => r.first ≤ s.first) (ht : t ∈ joinFrom r rs) :
    r.first ≤ t.first := by
  induction rs generalizing r with
  | nil =>
    rw [joinFrom, List.mem_singleton] at ht
    rw [ht]
  | cons s rs ih =>
    obtain ⟨hr, hs⟩ := List.pairwise_cons.1 hsort
    rw [joinFrom] at ht
    split at ht
    · have hext : (r.extend s :: rs).Pairwise fun r s => r.first ≤ s.first := by
        refine List.pairwise_cons.2 ⟨fun t ht => ?_, (List.pairwise_cons.1 hs).2⟩
        rw [CharRange.first_extend]
        exact hr t (List.mem_cons_of_mem _ ht)
      simpa using ih hext ht
    · rcases List.mem_cons.1 ht with rfl | ht
      · exact le_rfl
      · exact le_trans (hr s List.mem_cons_self) (ih hs ht)

/-- Joining leaves gaps and changes no members. -/
theorem joinFrom_spec {r : CharRange} {rs : List CharRange}
    (hsort : (r :: rs).Pairwise fun r s => r.first ≤ s.first) :
    (⟨joinFrom r rs⟩ : CharSet).Canonical ∧
      ∀ c, c ∈ (⟨joinFrom r rs⟩ : CharSet) ↔ c ∈ (⟨r :: rs⟩ : CharSet) := by
  induction rs generalizing r with
  | nil => exact ⟨canonical_cons.2 ⟨by simp, canonical_nil⟩, fun c => Iff.rfl⟩
  | cons s rs ih =>
    obtain ⟨hr, hs⟩ := List.pairwise_cons.1 hsort
    have hle : r.first ≤ s.first := hr s List.mem_cons_self
    rw [joinFrom]
    split
    · rename_i htouch
      have hext : (r.extend s :: rs).Pairwise fun r s => r.first ≤ s.first := by
        refine List.pairwise_cons.2 ⟨fun t ht => ?_, (List.pairwise_cons.1 hs).2⟩
        rw [CharRange.first_extend]
        exact hr t (List.mem_cons_of_mem _ ht)
      obtain ⟨hcanonical, hmem⟩ := ih hext
      refine ⟨hcanonical, fun c => ?_⟩
      rw [hmem c, mem_cons, CharRange.mem_extend htouch hle, mem_cons, mem_cons, or_assoc]
    · rename_i htouch
      have hapart := CharRange.apart_of_not_touches (Bool.eq_false_iff.2 htouch)
      obtain ⟨hcanonical, hmem⟩ := ih hs
      refine ⟨canonical_cons.2 ⟨fun t ht => ?_, hcanonical⟩, fun c => ?_⟩
      · exact hapart.of_le (first_le_of_mem_joinFrom hs ht)
      · rw [mem_cons, hmem c, mem_cons (r := r)]

theorem join_spec {rs : List CharRange} (hsort : rs.Pairwise fun r s => r.first ≤ s.first) :
    (⟨join rs⟩ : CharSet).Canonical ∧ ∀ c, c ∈ (⟨join rs⟩ : CharSet) ↔ c ∈ (⟨rs⟩ : CharSet) := by
  cases rs with
  | nil => exact ⟨canonical_nil, fun c => Iff.rfl⟩
  | cons r rs => exact joinFrom_spec hsort

theorem pairwise_mergeSort_first (rs : List CharRange) :
    (rs.mergeSort fun r s => r.first ≤ s.first).Pairwise fun r s => r.first ≤ s.first := by
  have hsorted := @List.pairwise_mergeSort _ (fun r s : CharRange => decide (r.first ≤ s.first))
    (fun a b c hab hbc => decide_eq_true (le_trans (of_decide_eq_true hab) (of_decide_eq_true hbc)))
    (fun a b => by simpa using le_total a.first b.first) rs
  exact hsorted.imp of_decide_eq_true

theorem canonical_ofRanges (rs : List CharRange) : (ofRanges rs).Canonical :=
  (join_spec (pairwise_mergeSort_first rs)).1

/-- The members of a set of ranges are those of the ranges. -/
theorem mem_ofRanges {rs : List CharRange} {c : Char} : c ∈ ofRanges rs ↔ ∃ r ∈ rs, c ∈ r := by
  have hmem := (join_spec (pairwise_mergeSort_first rs)).2 c
  rw [ofRanges, hmem, mem_iff]
  simp only [List.mem_mergeSort]

theorem mem_union {a b : CharSet} {c : Char} : c ∈ a.union b ↔ c ∈ a ∨ c ∈ b := by
  rw [union, mem_ofRanges]
  exact mem_append

/-! ### Cutting -/

/-- What a range from `first` on keeps below another one. -/
def keptBelow (first : Char) (e : CharRange) : List CharRange :=
  match previousChar? e.first with
  | some c => if first < e.first then [.between first c] else []
  | none => []

/-- What a range up to `last` keeps beyond another one. -/
def keptBeyond (last : Char) (e : CharRange) (es : List CharRange) : List CharRange :=
  match nextChar? e.last with
  | some c => if e.last < last then cut c last es else []
  | none => []

theorem cut_cons (first last : Char) (e : CharRange) (es : List CharRange) :
    cut first last (e :: es) =
      if last < e.first then [.between first last]
      else if e.last < first then cut first last es
      else keptBelow first e ++ keptBeyond last e es := rfl

theorem keptBelow_cases (first : Char) (e : CharRange) :
    (keptBelow first e = [] ∧ e.first ≤ first) ∨
      ∃ r : CharRange, keptBelow first e = [r] ∧ r.first = first ∧ ∀ c, c < e.first ↔ c ≤ r.last := by
  unfold keptBelow
  split
  · rename_i d hd
    split
    · rename_i hlt
      have hle : first ≤ d := (lt_iff_of_previousChar? hd first).1 hlt
      exact .inr ⟨⟨first, d, hle⟩, by rw [CharRange.between_of_le hle], rfl, lt_iff_of_previousChar? hd⟩
    · rename_i hge
      exact .inl ⟨rfl, not_lt.1 hge⟩
  · rename_i hnone
    exact .inl ⟨rfl, le_of_previousChar?_eq_none hnone first⟩

theorem keptBeyond_cases (last : Char) (e : CharRange) (es : List CharRange) :
    (keptBeyond last e es = [] ∧ last ≤ e.last) ∨
      ∃ d, keptBeyond last e es = cut d last es ∧ d ≤ last ∧ ∀ c, e.last < c ↔ d ≤ c := by
  unfold keptBeyond
  split
  · rename_i d hd
    split
    · rename_i hlt
      exact .inr ⟨d, rfl, (lt_iff_of_nextChar? hd last).1 hlt, lt_iff_of_nextChar? hd⟩
    · rename_i hge
      exact .inl ⟨rfl, not_lt.1 hge⟩
  · rename_i hnone
    exact .inl ⟨rfl, le_of_nextChar?_eq_none hnone last⟩

/-- What is left of a range lies within it. -/
theorem within_of_mem_cut {first last : Char} (hle : first ≤ last) {es : List CharRange} {t : CharRange}
    (ht : t ∈ cut first last es) : first ≤ t.first ∧ t.last ≤ last := by
  induction es generalizing first with
  | nil =>
    rw [cut, List.mem_singleton, CharRange.between_of_le hle] at ht
    rw [ht]
    exact ⟨le_rfl, le_rfl⟩
  | cons e es ih =>
    rw [cut_cons] at ht
    split at ht
    · rw [List.mem_singleton, CharRange.between_of_le hle] at ht
      rw [ht]
      exact ⟨le_rfl, le_rfl⟩
    · rename_i hreach
      split at ht
      · exact ih hle ht
      · rename_i hpast
        rcases List.mem_append.1 ht with ht | ht
        · rcases keptBelow_cases first e with ⟨hnil, -⟩ | ⟨r, hr, hfirst, hbelow⟩
          · rw [hnil] at ht
            cases ht
          · rw [hr, List.mem_singleton] at ht
            have hlast : t.last < e.first := (hbelow t.last).2 (ht ▸ le_rfl)
            exact ⟨by rw [ht, hfirst], le_of_lt (lt_of_lt_of_le hlast (not_lt.1 hreach))⟩
        · rcases keptBeyond_cases last e es with ⟨hnil, -⟩ | ⟨d, hd, hdlast, hbeyond⟩
          · rw [hnil] at ht
            cases ht
          · rw [hd] at ht
            obtain ⟨hfirst, hlast⟩ := ih hdlast ht
            have hlt : e.last < t.first := (hbeyond t.first).2 hfirst
            exact ⟨le_trans (not_lt.1 hpast) (le_of_lt hlt), hlast⟩

theorem canonical_cut {first last : Char} (hle : first ≤ last) (es : List CharRange) :
    (⟨cut first last es⟩ : CharSet).Canonical := by
  induction es generalizing first with
  | nil => exact canonical_cons.2 ⟨by simp, canonical_nil⟩
  | cons e es ih =>
    rw [cut_cons]
    split
    · exact canonical_cons.2 ⟨by simp, canonical_nil⟩
    · split
      · exact ih hle
      · have hbeyond : (⟨keptBeyond last e es⟩ : CharSet).Canonical ∧
            ∀ t ∈ keptBeyond last e es, e.last < t.first := by
          rcases keptBeyond_cases last e es with ⟨hnil, -⟩ | ⟨d, hd, hdlast, hnext⟩
          · rw [hnil]
            exact ⟨canonical_nil, by simp⟩
          · rw [hd]
            exact ⟨ih hdlast, fun t ht => (hnext _).2 (within_of_mem_cut hdlast ht).1⟩
        rcases keptBelow_cases first e with ⟨hnil, -⟩ | ⟨r, hr, -, hbelow⟩
        · rw [hnil]
          exact hbeyond.1
        · rw [hr]
          refine canonical_cons.2 ⟨fun t ht => ?_, hbeyond.1⟩
          -- the character where the other range begins belongs to neither side
          have hlt : r.last < e.first := (hbelow _).2 le_rfl
          exact CharRange.apart_of_lt hlt (lt_of_le_of_lt e.first_le_last (hbeyond.2 t ht))

/-- All ranges behind one begin beyond it. -/
theorem Canonical.lt_first {e : CharRange} {es : List CharRange}
    (h : (⟨e :: es⟩ : CharSet).Canonical) {c : Char} (hc : c ∈ (⟨es⟩ : CharSet)) : e.last < c := by
  obtain ⟨r, hr, hfirst, -⟩ := hc
  exact lt_of_lt_of_le ((canonical_cons.1 h).1 r hr).last_lt hfirst

/-- A range is cut down to the characters that are in none of the others. -/
theorem mem_cut {first last : Char} (hle : first ≤ last) {es : List CharRange}
    (hes : (⟨es⟩ : CharSet).Canonical) {c : Char} :
    c ∈ (⟨cut first last es⟩ : CharSet) ↔ (first ≤ c ∧ c ≤ last) ∧ c ∉ (⟨es⟩ : CharSet) := by
  induction es generalizing first with
  | nil => simp [cut, CharRange.between_of_le hle, CharRange.mem_iff]
  | cons e es ih =>
    have htail := (canonical_cons.1 hes).2
    have hahead : c ∈ (⟨es⟩ : CharSet) → e.last < c := hes.lt_first
    rw [cut_cons, mem_cons, CharRange.mem_iff]
    split
    · -- the range ends before the next one, and so before all of them
      rename_i hbefore
      have hnone : c ≤ last → ¬ ((e.first ≤ c ∧ c ≤ e.last) ∨ c ∈ (⟨es⟩ : CharSet)) := by
        intro hc h
        have hce : c < e.first := lt_of_le_of_lt hc hbefore
        rcases h with ⟨hfirst, -⟩ | h
        · exact absurd hce (not_lt.2 hfirst)
        · exact absurd (lt_of_lt_of_le hce e.first_le_last) (not_lt.2 (le_of_lt (hahead h)))
      rw [CharRange.between_of_le hle]
      simp only [mem_cons, not_mem_nil, or_false, CharRange.mem_iff]
      exact ⟨fun h => ⟨h, hnone h.2⟩, fun h => h.1⟩
    · rename_i hreach
      split
      · -- the next range ends before this one starts, and takes nothing away
        rename_i hpast
        rw [ih hle htail, not_or]
        refine ⟨fun ⟨hin, hc⟩ => ⟨hin, fun h => ?_, hc⟩, fun ⟨hin, _, hc⟩ => ⟨hin, hc⟩⟩
        exact absurd (lt_of_lt_of_le hpast hin.1) (not_lt.2 h.2)
      · rename_i hpast
        -- the two overlap: what is kept lies below the next range, or beyond it and is cut on
        have hbelow : c ∈ (⟨keptBelow first e⟩ : CharSet) ↔ first ≤ c ∧ c < e.first := by
          rcases keptBelow_cases first e with ⟨hnil, hfirst⟩ | ⟨r, hr, hfirst, hlt⟩
          · rw [hnil]
            refine ⟨fun h => absurd h not_mem_nil, fun ⟨hc, hce⟩ => ?_⟩
            exact absurd (lt_of_le_of_lt hc hce) (not_lt.2 hfirst)
          · rw [hr, mem_cons, CharRange.mem_iff, hfirst, hlt c]
            simp only [not_mem_nil, or_false]
        have hbeyond : c ∈ (⟨keptBeyond last e es⟩ : CharSet) ↔
            e.last < c ∧ c ≤ last ∧ c ∉ (⟨es⟩ : CharSet) := by
          rcases keptBeyond_cases last e es with ⟨hnil, hlast⟩ | ⟨d, hd, hdlast, hlt⟩
          · rw [hnil]
            refine ⟨fun h => absurd h not_mem_nil, fun ⟨hc, hcl, _⟩ => ?_⟩
            exact absurd (lt_of_le_of_lt hlast hc) (not_lt.2 hcl)
          · rw [hd, ih hdlast htail, hlt c, and_assoc]
        rw [mem_append, hbelow, hbeyond]
        constructor
        · rintro (⟨hfc, hce⟩ | ⟨hec, hcl, hnot⟩)
          · refine ⟨⟨hfc, le_of_lt (lt_of_lt_of_le hce (not_lt.1 hreach))⟩, ?_⟩
            rintro (⟨hfirst, -⟩ | h)
            · exact absurd hce (not_lt.2 hfirst)
            · exact absurd (lt_of_lt_of_le hce e.first_le_last) (not_lt.2 (le_of_lt (hahead h)))
          · refine ⟨⟨le_trans (not_lt.1 hpast) (le_of_lt hec), hcl⟩, ?_⟩
            rintro (⟨-, hlast⟩ | h)
            · exact absurd hec (not_lt.2 hlast)
            · exact hnot h
        · rintro ⟨⟨hfc, hcl⟩, hnot⟩
          rcases lt_or_ge c e.first with hce | hce
          · exact .inl ⟨hfc, hce⟩
          · refine .inr ⟨lt_of_not_ge fun hlast => hnot (.inl ⟨hce, hlast⟩), hcl, fun h => hnot (.inr h)⟩

theorem canonical_difference {a : CharSet} (ha : a.Canonical) (b : CharSet) :
    (a.difference b).Canonical := by
  refine List.pairwise_flatMap.2 ⟨fun r _ => canonical_cut r.first_le_last _, ?_⟩
  refine ha.imp fun hrs t ht u hu => ?_
  have htr := (within_of_mem_cut (CharRange.first_le_last _) ht).2
  have hsu := (within_of_mem_cut (CharRange.first_le_last _) hu).1
  exact (hrs.of_le hsu).of_last_le htr

theorem mem_difference {a b : CharSet} (hb : b.Canonical) {c : Char} :
    c ∈ a.difference b ↔ c ∈ a ∧ c ∉ b := by
  have hcut : ∀ r : CharRange, (∃ t ∈ cut r.first r.last b.ranges, c ∈ t) ↔ c ∈ r ∧ c ∉ b :=
    fun r => mem_cut r.first_le_last hb
  rw [mem_iff, difference]
  simp only [List.mem_flatMap]
  constructor
  · rintro ⟨t, ⟨r, hr, ht⟩, hc⟩
    obtain ⟨hcr, hcb⟩ := (hcut r).1 ⟨t, ht, hc⟩
    exact ⟨⟨r, hr, hcr⟩, hcb⟩
  · rintro ⟨⟨r, hr, hcr⟩, hcb⟩
    obtain ⟨t, ht, hc⟩ := (hcut r).2 ⟨hcr, hcb⟩
    exact ⟨t, ⟨r, hr, ht⟩, hc⟩

/-! ### Searching -/

/-- The ranges of a canonical set on the two sides of one of them. -/
theorem Canonical.split {left right : List CharRange} {middle : CharRange}
    (h : (⟨left ++ middle :: right⟩ : CharSet).Canonical) :
    (⟨left⟩ : CharSet).Canonical ∧ (⟨right⟩ : CharSet).Canonical ∧
      (∀ c, c ∈ (⟨left⟩ : CharSet) → c < middle.first) ∧ ∀ c, c ∈ (⟨right⟩ : CharSet) → middle.last < c := by
  obtain ⟨hleft, hrest, hcross⟩ := List.pairwise_append.1 h
  refine ⟨hleft, (canonical_cons.1 hrest).2, fun c hc => ?_, fun c hc => Canonical.lt_first hrest hc⟩
  obtain ⟨r, hr, -, hlast⟩ := hc
  exact lt_of_le_of_lt hlast (hcross r hr middle List.mem_cons_self).last_lt

theorem bisect_iff {c : Char} {rs : List CharRange} (hrs : (⟨rs⟩ : CharSet).Canonical) :
    bisect c rs = true ↔ c ∈ (⟨rs⟩ : CharSet) := by
  fun_induction bisect c rs with
  | case1 rs hdrop =>
    have hlength := congrArg List.length hdrop
    rw [List.length_drop, List.length_nil] at hlength
    obtain rfl : rs = [] := List.length_eq_zero_iff.1 (by omega)
    simp
  | case2 rs middle right hdrop hlt ih =>
    have hsplit := List.take_append_drop (rs.length / 2) rs
    rw [hdrop] at hsplit
    rw [← hsplit] at hrs
    obtain ⟨-, hright, hbefore, -⟩ := hrs.split
    rw [ih hright, ← hsplit, mem_append, mem_cons]
    refine ⟨fun h => .inr (.inr h), ?_⟩
    rintro (h | h | h)
    · exact absurd (lt_of_lt_of_le (hbefore c h) middle.first_le_last) (not_lt.2 (le_of_lt hlt))
    · exact absurd hlt (not_lt.2 h.2)
    · exact h
  | case3 rs middle right hdrop hlt hgt ih =>
    have hsplit := List.take_append_drop (rs.length / 2) rs
    rw [hdrop] at hsplit
    have hall := hrs
    rw [← hsplit] at hall
    obtain ⟨hleft, -, -, hbeyond⟩ := hall.split
    rw [ih hleft]
    nth_rewrite 3 [← hsplit]
    rw [mem_append, mem_cons]
    refine ⟨.inl, ?_⟩
    rintro (h | h | h)
    · exact h
    · exact absurd hgt (not_lt.2 h.1)
    · exact absurd (lt_of_lt_of_le hgt middle.first_le_last) (not_lt.2 (le_of_lt (hbeyond c h)))
  | case4 rs middle right hdrop hlt hgt =>
    have hmem : middle ∈ rs := List.mem_of_mem_drop (hdrop ▸ List.mem_cons_self)
    exact ⟨fun _ => ⟨middle, hmem, not_lt.1 hgt, not_lt.1 hlt⟩, fun _ => rfl⟩

/-- **Bisection finds the members** of a canonical set, and nothing else: where a set has its ranges in order, half of
them may be left out of account at each turn. -/
theorem contains_iff {s : CharSet} (hs : s.Canonical) {c : Char} : s.contains c = true ↔ c ∈ s :=
  bisect_iff hs

/-! ### One list for a set -/

/-- The first range of a canonical set reaches as far as its members do without a gap. -/
theorem Canonical.last_le {r s : CharRange} {rs ss : List CharRange}
    (hr : (⟨r :: rs⟩ : CharSet).Canonical) (hfirst : r.first = s.first)
    (hmem : ∀ c, c ∈ (⟨s :: ss⟩ : CharSet) → c ∈ (⟨r :: rs⟩ : CharSet)) : s.last ≤ r.last := by
  by_contra hlt
  have hlt := lt_of_not_ge hlt
  obtain ⟨d, hd⟩ : ∃ d, nextChar? r.last = some d := by
    cases hnext : nextChar? r.last with
    | none => exact absurd hlt (not_lt.2 (le_of_nextChar?_eq_none hnext _))
    | some d => exact ⟨d, rfl⟩
  have hrd : r.last < d := (lt_iff_of_nextChar? hd d).2 le_rfl
  have hds : d ≤ s.last := (lt_iff_of_nextChar? hd s.last).1 hlt
  -- the character behind `r` is a member on one side and in the gap on the other
  have hin : d ∈ (⟨s :: ss⟩ : CharSet) :=
    mem_cons.2 (.inl ⟨le_trans (hfirst ▸ r.first_le_last) (le_of_lt hrd), hds⟩)
  rcases mem_cons.1 (hmem d hin) with h | ⟨t, ht, h⟩
  · exact absurd hrd (not_lt.2 h.2)
  · obtain ⟨e, he, het⟩ := (canonical_cons.1 hr).1 t ht
    obtain rfl : d = e := Option.some.inj (hd.symm.trans he)
    exact absurd het (not_lt.2 h.1)

theorem Canonical.first_le {r s : CharRange} {rs ss : List CharRange}
    (hr : (⟨r :: rs⟩ : CharSet).Canonical)
    (hmem : ∀ c, c ∈ (⟨s :: ss⟩ : CharSet) → c ∈ (⟨r :: rs⟩ : CharSet)) : r.first ≤ s.first := by
  have hin : s.first ∈ (⟨s :: ss⟩ : CharSet) := mem_cons.2 (.inl ⟨le_rfl, s.first_le_last⟩)
  rcases mem_cons.1 (hmem _ hin) with h | h
  · exact h.1
  · exact le_trans r.first_le_last (le_of_lt (hr.lt_first h))

/-- **Canonical sets with the same members are equal.** -/
theorem Canonical.ext {a b : CharSet} (ha : a.Canonical) (hb : b.Canonical)
    (h : ∀ c, c ∈ a ↔ c ∈ b) : a = b := by
  obtain ⟨rs⟩ := a
  obtain ⟨ss⟩ := b
  induction rs generalizing ss with
  | nil =>
    cases ss with
    | nil => rfl
    | cons s ss => exact absurd ((h s.first).2 (mem_cons.2 (.inl ⟨le_rfl, s.first_le_last⟩))) not_mem_nil
  | cons r rs ih =>
    cases ss with
    | nil => exact absurd ((h r.first).1 (mem_cons.2 (.inl ⟨le_rfl, r.first_le_last⟩))) not_mem_nil
    | cons s ss =>
      have hfirst : r.first = s.first :=
        le_antisymm (ha.first_le fun c => (h c).2) (hb.first_le fun c => (h c).1)
      have hlast : r.last = s.last :=
        le_antisymm (hb.last_le hfirst.symm fun c => (h c).1) (ha.last_le hfirst fun c => (h c).2)
      obtain rfl : r = s := by
        cases r
        cases s
        simp only [CharRange.mk.injEq]
        exact ⟨hfirst, hlast⟩
      have htail : ∀ c, c ∈ (⟨rs⟩ : CharSet) ↔ c ∈ (⟨ss⟩ : CharSet) := by
        intro c
        constructor
        · intro hc
          have hbeyond := ha.lt_first hc
          exact (mem_cons.1 ((h c).1 (mem_cons.2 (.inr hc)))).resolve_left
            fun hr => absurd hbeyond (not_lt.2 hr.2)
        · intro hc
          have hbeyond := hb.lt_first hc
          exact (mem_cons.1 ((h c).2 (mem_cons.2 (.inr hc)))).resolve_left
            fun hr => absurd hbeyond (not_lt.2 hr.2)
      have hrest := ih (canonical_cons.1 ha).2 ss (canonical_cons.1 hb).2 htail
      rw [CharSet.mk.injEq] at hrest
      rw [hrest]

/-! ## Sets that are built -/

/-- The bounds that a description gives, read from the left: where a dash stands between the next character and a
further one these are the bounds of a range, otherwise the next character is by itself. -/
inductive Describes : List Char → List (Char × Char) → Prop
  | nil : Describes [] []
  | range (a b : Char) {cs : List Char} {bounds : List (Char × Char)} :
    Describes cs bounds → Describes (a :: '-' :: b :: cs) ((a, b) :: bounds)
  | single (c : Char) {cs : List Char} {bounds : List (Char × Char)} :
    (¬ ∃ b rest, cs = '-' :: b :: rest) → Describes cs bounds → Describes (c :: cs) ((c, c) :: bounds)

/-- The character lies between two bounds, which may be in either order. -/
def Between (c : Char) (p : Char × Char) : Prop := p.1 ≤ c ∧ c ≤ p.2 ∨ p.2 ≤ c ∧ c ≤ p.1

theorem describes_specRanges (cs : List Char) :
    ∃ bounds, Describes cs bounds ∧
      ∀ c, (∃ r ∈ specRanges cs, c ∈ r) ↔ ∃ p ∈ bounds, Between c p := by
  fun_induction specRanges cs with
  | case1 => exact ⟨[], .nil, fun c => by simp⟩
  | case2 a b cs ih =>
    obtain ⟨bounds, hbounds, hmem⟩ := ih
    refine ⟨_, .range a b hbounds, fun c => ?_⟩
    simp only [List.mem_cons, exists_eq_or_imp, CharRange.mem_between, hmem c, Between]
  | case3 a cs hnot ih =>
    obtain ⟨bounds, hbounds, hmem⟩ := ih
    refine ⟨_, .single a ?_ hbounds, fun c => ?_⟩
    · rintro ⟨b, rest, rfl⟩
      exact hnot b rest rfl
    · have hsingle : c = a ↔ Between c (a, a) := by
        rw [← CharRange.mem_single, CharRange.mem_iff]
        exact ⟨.inl, fun h => h.elim id id⟩
      simp only [List.mem_cons, exists_eq_or_imp, CharRange.mem_single, hmem c, hsingle]

/-- Sets from descriptions and from ranges, their unions and their differences. These are all the ways to make a set, so
what holds of them holds of every set there is. -/
inductive Built : CharSet → Prop
  | ofSpec (spec : String) : Built (ofSpec spec)
  | ofRanges (rs : List CharRange) : Built (ofRanges rs)
  | ofSpecExcluding (spec excluded : String) : Built (ofSpecExcluding spec excluded)
  | union {a b : CharSet} : Built a → Built b → Built (a.union b)
  | difference {a b : CharSet} : Built a → Built b → Built (a.difference b)

theorem Built.canonical {s : CharSet} (h : Built s) : s.Canonical := by
  induction h with
  | ofSpec spec => exact canonical_ofRanges _
  | ofRanges rs => exact canonical_ofRanges rs
  | ofSpecExcluding spec excluded => exact canonical_difference (canonical_ofRanges _) _
  | union => exact canonical_ofRanges _
  | difference _ _ ha _ => exact canonical_difference ha _

/-- **Sets are canonical.** Whatever way a set is built, its ranges ascend with a gap between any two, its members are
those of the ranges, descriptions and sets that it is built from, bisection finds exactly these, and no other set that
is built has the same members; so unions obey the laws of a semilattice. -/
theorem canonical_of_built {a b d : CharSet} (ha : Built a) (hb : Built b) (hd : Built d) :
    a.Canonical ∧
      (∀ c, a.contains c = true ↔ c ∈ a) ∧
      (∀ spec : String, ∃ bounds, Describes spec.toList bounds ∧
        ∀ c, c ∈ CharSet.ofSpec spec ↔ ∃ p ∈ bounds, Between c p) ∧
      (∀ rs c, c ∈ CharSet.ofRanges rs ↔ ∃ r ∈ rs, r.first ≤ c ∧ c ≤ r.last) ∧
      (∀ c, c ∈ a.union b ↔ c ∈ a ∨ c ∈ b) ∧
      (∀ c, c ∈ a.difference b ↔ c ∈ a ∧ c ∉ b) ∧
      ((∀ c, c ∈ a ↔ c ∈ b) → a = b) ∧
      a.union b = b.union a ∧
      (a.union b).union d = a.union (b.union d) ∧
      a.union a = a := by
  have hext : ∀ {s t : CharSet}, Built s → Built t → (∀ c, c ∈ s ↔ c ∈ t) → s = t :=
    fun hs ht => hs.canonical.ext ht.canonical
  refine ⟨ha.canonical, fun c => contains_iff ha.canonical, fun spec => ?_, fun rs c => mem_ofRanges,
    fun c => mem_union, fun c => mem_difference hb.canonical, hext ha hb, ?_, ?_, ?_⟩
  · obtain ⟨bounds, hbounds, hmem⟩ := describes_specRanges spec.toList
    exact ⟨bounds, hbounds, fun c => by rw [CharSet.ofSpec, mem_ofRanges, hmem c]⟩
  · refine hext (.union ha hb) (.union hb ha) fun c => ?_
    rw [mem_union, mem_union, or_comm]
  · refine hext (.union (.union ha hb) hd) (.union ha (.union hb hd)) fun c => ?_
    rw [mem_union, mem_union, mem_union, mem_union, or_assoc]
  · refine hext (.union ha ha) ha fun c => ?_
    rw [mem_union, or_self]

/-- U+D7FF and U+E000 are neighbours: a set with the one and a set with the other make a single range. -/
theorem canonical_of_built_neighbours :
    Built (ofSpec "\ud7ff") ∧ Built (ofSpecExcluding "a\ue000" "z-a") ∧
      ((ofSpec "\ud7ff").union (ofSpecExcluding "a\ue000" "z-a")).ranges =
        [⟨'\ud7ff', '\ue000', by decide⟩] ∧
      (ofSpec "\ud7ff").union (ofSpecExcluding "a\ue000" "z-a") =
        (ofSpecExcluding "a\ue000" "z-a").union (ofSpec "\ud7ff") := by
  have ha : Built (ofSpec "\ud7ff") := .ofSpec _
  have hb : Built (ofSpecExcluding "a\ue000" "z-a") := .ofSpecExcluding _ _
  obtain ⟨-, -, -, -, -, -, -, hcomm, -, -⟩ := canonical_of_built ha hb ha
  exact ⟨ha, hb, by cbv, hcomm⟩

end CharSet

end Fluent
