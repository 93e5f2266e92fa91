import Fluent.Proofs.Canonical

/-!
# Differences of sets

Both lists of a difference ascend, so one pass over them is enough. A range is compared with the ranges that do not end
below it, those that do being of no account for the ranges behind it either, and with none behind the first that begins
above it.

* `CharSet.carve`: what is left of a range, in one pass over the ranges that do not end below it.
* `CharSet.sweep`: what is left of a list of ranges, in one pass over both lists.
* `sweep_eq_flatMap`: a sweep leaves what each range by itself leaves.
* `difference_laws`: **a difference is the difference of the sets**, and what follows from that.
-/

namespace Fluent

namespace CharSet

/-- What is left of the characters from `first` to `last` without those of ascending ranges that do not end below
`first`. -/
def carve (first last : Char) : List CharRange → List CharRange
  | [] => [.between first last]
  | e :: es =>
    if last < e.first then [.between first last]
    else keptBelow first e ++ match nextChar? e.last with
      | some c => if e.last < last then carve c last es else []
      | none => []

/-- What is left of ascending ranges without the characters of others. What ends below a range is passed over for the
ranges behind it as well. -/
def sweep : List CharRange → List CharRange → List CharRange
  | [], _ => []
  | r :: rs, es =>
    let ahead := es.dropWhile (·.last < r.first)
    carve r.first r.last ahead ++ sweep rs ahead

theorem Canonical.dropWhile {es : List CharRange} (h : (⟨es⟩ : CharSet).Canonical) (p : CharRange → Bool) :
    (⟨es.dropWhile p⟩ : CharSet).Canonical :=
  h.sublist (List.dropWhile_sublist p)

/-- Where no range ends below `first`, nothing has to be passed over. -/
theorem cut_eq_carve {first last : Char} {es : List CharRange} (hes : (⟨es⟩ : CharSet).Canonical)
    (hahead : ∀ e ∈ es, first ≤ e.last) : cut first last es = carve first last es := by
  induction es generalizing first with
  | nil => rfl
  | cons e es ih =>
    obtain ⟨happart, htail⟩ := canonical_cons.1 hes
    rw [cut_cons, carve, if_neg (not_lt.2 (hahead e List.mem_cons_self)), keptBeyond]
    cases hnext : nextChar? e.last with
    | none => rfl
    | some c =>
      have hbeyond : ∀ d ∈ es, c ≤ d.last := fun d hd =>
        (lt_iff_of_nextChar? hnext d.last).1 (lt_of_lt_of_le (happart d hd).last_lt d.first_le_last)
      simp only [ih htail hbeyond]

/-- What ends below a range takes nothing from it. -/
theorem cut_dropWhile {low first last : Char} (hlow : low ≤ first) (hle : first ≤ last) (es : List CharRange) :
    cut first last (es.dropWhile (·.last < low)) = cut first last es := by
  induction es with
  | nil => rfl
  | cons e es ih =>
    by_cases hbelow : e.last < low
    · have hpast : e.last < first := lt_of_lt_of_le hbelow hlow
      have hreach : ¬ last < e.first := not_lt.2 (le_trans e.first_le_last (le_trans (le_of_lt hpast) hle))
      rw [List.dropWhile_cons_of_pos (by simpa using hbelow), ih, cut_cons, if_neg hreach, if_pos hpast]
    · rw [List.dropWhile_cons_of_neg (by simpa using hbelow)]

/-- Behind what ends below `low`, nothing does. -/
theorem Canonical.le_last_of_mem_dropWhile {es : List CharRange} (h : (⟨es⟩ : CharSet).Canonical) (low : Char) :
    ∀ e ∈ es.dropWhile (·.last < low), low ≤ e.last := by
  have hcanonical := h.dropWhile (·.last < low)
  have hfirst := List.head?_dropWhile_not (fun e : CharRange => decide (e.last < low)) es
  generalize es.dropWhile (·.last < low) = ahead at hcanonical hfirst ⊢
  cases ahead with
  | nil => exact fun e he => absurd he List.not_mem_nil
  | cons d ds =>
    have hd : low ≤ d.last := not_lt.1 (of_decide_eq_false hfirst)
    intro e he
    rcases List.mem_cons.1 he with rfl | he
    · exact hd
    · have hbehind := ((canonical_cons.1 hcanonical).1 e he).last_lt
      exact le_trans hd (le_trans (le_of_lt hbehind) e.first_le_last)

/-- **A sweep over both lists** leaves what each range by itself leaves. -/
theorem sweep_eq_flatMap {rs es : List CharRange} (hrs : (⟨rs⟩ : CharSet).Canonical)
    (hes : (⟨es⟩ : CharSet).Canonical) : sweep rs es = rs.flatMap fun r => cut r.first r.last es := by
  induction rs generalizing es with
  | nil => rfl
  | cons r rs ih =>
    obtain ⟨happart, htail⟩ := canonical_cons.1 hrs
    have hahead := hes.dropWhile (·.last < r.first)
    have hfirst : carve r.first r.last (es.dropWhile (·.last < r.first)) = cut r.first r.last es := by
      rw [← cut_eq_carve hahead (hes.le_last_of_mem_dropWhile r.first), cut_dropWhile le_rfl r.first_le_last]
    have hbehind : ∀ s ∈ rs, cut s.first s.last (es.dropWhile (·.last < r.first)) = cut s.first s.last es := by
      intro s hs
      have hle : r.first ≤ s.first := le_trans r.first_le_last (le_of_lt (happart s hs).last_lt)
      exact cut_dropWhile hle s.first_le_last es
    rw [sweep, hfirst, ih htail hahead, List.flatMap_cons, List.flatMap_congr hbehind]

/-- **A difference is the difference of the sets.** One sweep over two canonical lists leaves the characters of the
first that are not in the second, again as a canonical list. So to take the same away twice is to take it away once,
nothing is left without itself, and what is taken away can be put back. -/
theorem difference_laws {a b : CharSet} (ha : a.Canonical) (hb : b.Canonical) :
    (a.difference b).ranges = sweep a.ranges b.ranges ∧
      (∀ c, c ∈ a.difference b ↔ c ∈ a ∧ c ∉ b) ∧
      (a.difference b).Canonical ∧
      (a.difference b).difference b = a.difference b ∧
      a.difference a = empty ∧
      (a.difference b).union b = a.union b := by
  have hcanonical : (a.difference b).Canonical := canonical_difference ha b
  refine ⟨(sweep_eq_flatMap ha hb).symm, fun c => mem_difference hb, hcanonical, ?_, ?_, ?_⟩
  · refine (canonical_difference hcanonical b).ext hcanonical fun c => ?_
    rw [mem_difference hb, mem_difference hb, and_assoc, and_self]
  · refine (canonical_difference ha a).ext canonical_nil fun c => ?_
    rw [mem_difference ha]
    exact ⟨fun h => absurd h.1 h.2, fun h => absurd h not_mem_nil⟩
  · refine (canonical_ofRanges _).ext (canonical_ofRanges _) fun c => ?_
    change c ∈ (a.difference b).union b ↔ c ∈ a.union b
    rw [mem_union, mem_union, mem_difference hb]
    by_cases hc : c ∈ b <;> simp [hc]

/-- One range that is taken away spans the end of a range, a whole range and the beginning of another; another one ends
in front of the surrogates, beyond which the range that it splits goes on. -/
theorem difference_laws_surrogates :
    (ofSpec "a-fhk-p\ud7fe-\ue001").Canonical ∧ (ofSpec "d-m\ud7ff").Canonical ∧
      ((ofSpec "a-fhk-p\ud7fe-\ue001").difference (ofSpec "d-m\ud7ff")).ranges =
        [⟨'a', 'c', by decide⟩, ⟨'n', 'p', by decide⟩, ⟨'\ud7fe', '\ud7fe', by decide⟩,
          ⟨'\ue000', '\ue001', by decide⟩] ∧
      ((ofSpec "a-fhk-p\ud7fe-\ue001").difference (ofSpec "d-m\ud7ff")).ranges =
        sweep (ofSpec "a-fhk-p\ud7fe-\ue001").ranges (ofSpec "d-m\ud7ff").ranges ∧
      ((ofSpec "a-fhk-p\ud7fe-\ue001").difference (ofSpec "d-m\ud7ff")).union (ofSpec "d-m\ud7ff") =
        (ofSpec "a-fhk-p\ud7fe-\ue001").union (ofSpec "d-m\ud7ff") := by
  have ha : (ofSpec "a-fhk-p\ud7fe-\ue001").Canonical := canonical_ofRanges _
  have hb : (ofSpec "d-m\ud7ff").Canonical := canonical_ofRanges _
  have hlaws := difference_laws ha hb
  exact ⟨ha, hb, by cbv, hlaws.1, hlaws.2.2.2.2.2⟩

end CharSet

end Fluent
