import Fluent.Proofs.Entries

/-!
# Looking up a position

A lookup finds the first entry that a position lies in, the ends of entries included. Entries are in order, so this is
the first one that reaches the position. At the start of an entry it is the entry, or else the one that ends there,
and only junk ends where another entry starts.

* `contains_locate`: the positions in a location.
* `entryAt?_position`: an entry is found where the one in front of it does not reach.
* `entryAt?_start`: **what is found where an entry starts**.
* `exists_hidden_start`: an entry need not be found where it starts.
-/

namespace Fluent

/-- A location contains the positions from its start to its end. -/
theorem contains_locate (source : List Char) (a : Span) (k : Nat) :
    ((LineMap.ofChars source).locate a).contains ((LineMap.ofChars source).position k) = true ↔
      a.start ≤ k ∧ k ≤ a.stop := by
  rw [Location.contains, Bool.and_eq_true, Bool.not_eq_true', Bool.not_eq_true', ← Bool.not_eq_true,
    ← Bool.not_eq_true, LineMap.locate, LineMap.before_position, LineMap.before_position, Nat.not_lt, Nat.not_lt]

variable {o : ParseOptions} {source : String} {before after : List Entry} {e : Entry}

/-- Within an entry, and behind the one in front of it, a lookup finds the entry. -/
theorem entryAt?_position (hbody : (parse o source).body = before ++ e :: after) {k : Nat}
    (hk : e.location.span.start ≤ k ∧ k ≤ e.location.span.stop)
    (hbefore : ∀ x ∈ before.getLast?, x.location.span.stop < k) :
    (parse o source).entryAt? ((Source.ofString source).lines.position k) = some e := by
  obtain ⟨hordered, hextents⟩ := ordered_parse o source
  have hcontains : ∀ x ∈ (parse o source).body,
      x.location.contains ((Source.ofString source).lines.position k) = true ↔
        x.location.span.start ≤ k ∧ k ≤ x.location.span.stop := by
    intro x hx
    have hlocation := (located_of_mem_parse hx).eq_locate
    have hiff := contains_locate source.toList x.location.span k
    rwa [show (LineMap.ofChars source.toList).locate x.location.span = x.location from hlocation.symm] at hiff
  -- the entries in front of the last one end where it starts, or earlier
  have hpassed : ∀ x ∈ before, x.location.span.stop < k := by
    intro x hx
    obtain ⟨init, last, rfl⟩ := (List.eq_nil_or_concat before).resolve_left (List.ne_nil_of_mem hx)
    rw [List.concat_eq_append] at hx hbefore hbody
    have hlast := hbefore last (by simp)
    rcases List.mem_append.1 hx with hx | hx
    · have hlastmem : last ∈ (parse o source).body := by simp [hbody]
      rw [hbody] at hordered
      have hbehind := (List.pairwise_append.1 (List.pairwise_append.1 hordered).1).2.2 x hx last (by simp)
      have hextent := (hextents last hlastmem).1
      omega
    · exact List.mem_singleton.1 hx ▸ hlast
  refine List.find?_eq_some_iff_append.2 ⟨?_, before, after, hbody, ?_⟩
  · exact (hcontains e (by simp [hbody])).2 hk
  · intro x hx
    have hlt := hpassed x hx
    rw [Bool.not_eq_true', ← Bool.not_eq_true, hcontains x (by simp [hbody, hx])]
    omega

/-- **What is found where an entry starts**: the entry, unless the one in front of it ends there. Then that one is
found, and it is junk. -/
theorem entryAt?_start (hbody : (parse o source).body = before ++ e :: after) :
    ((∀ x ∈ before.getLast?, x.location.span.stop ≠ e.location.span.start) →
      (parse o source).entryAt? e.location.start = some e) ∧
    ∀ x ∈ before.getLast?, x.location.span.stop = e.location.span.start →
      (parse o source).entryAt? e.location.start = some x ∧ ∃ j, x = .junk j := by
  obtain ⟨hordered, hextents⟩ := ordered_parse o source
  have he : e ∈ (parse o source).body := by simp [hbody]
  have hextent := (hextents e he).1
  have hstart : e.location.start = (Source.ofString source).lines.position e.location.span.start :=
    congrArg Location.start (located_of_mem_parse he).eq_locate
  rw [hbody] at hordered
  have hbehind := (List.pairwise_append.1 hordered).2.2
  refine ⟨?_, ?_⟩
  · intro hnone
    rw [hstart]
    refine entryAt?_position hbody ⟨Nat.le_refl _, Nat.le_of_lt hextent⟩ ?_
    intro x hx
    have hle := hbehind x (List.mem_of_getLast? hx) e List.mem_cons_self
    exact Nat.lt_of_le_of_ne hle (hnone x hx)
  · intro x hx htouch
    obtain ⟨init, rfl⟩ := List.getLast?_eq_some_iff.1 hx
    have hxmem : x ∈ (parse o source).body := by simp [hbody]
    have hxextent := (hextents x hxmem).1
    refine ⟨?_, ?_⟩
    · rw [hstart, ← htouch]
      rw [List.append_assoc, List.singleton_append] at hbody
      refine entryAt?_position hbody ⟨Nat.le_of_lt hxextent, Nat.le_refl _⟩ ?_
      intro y hy
      have hle := (List.pairwise_append.1 (List.pairwise_append.1 hordered).1).2.2 y (List.mem_of_getLast? hy) x
        (by simp)
      exact Nat.lt_of_le_of_lt hle hxextent
    · -- no other entry ends where a line starts
      have hcolumn := (columns_of_mem_parse he).1
      have hstop : x.location.stop = e.location.start := by
        rw [hstart, ← htouch]
        exact congrArg Location.stop (located_of_mem_parse hxmem).eq_locate
      rw [← hstop] at hcolumn
      cases x with
      | junk j => exact ⟨j, rfl⟩
      | message | term | comment => exact absurd hcolumn ((columns_of_mem_parse hxmem).2 rfl)

/-- A comment in front of a message does not touch it. -/
theorem entryAt?_start_message : ∃ before e after,
    (parse ⟨.preserve, 100⟩ "## c\nm = y\n").body = before ++ e :: after ∧ e.id? = some "m" ∧
      (∀ x ∈ before.getLast?, x.location.span.stop ≠ e.location.span.start) ∧
      (parse ⟨.preserve, 100⟩ "## c\nm = y\n").entryAt? e.location.start = some e := by
  have hdata : (parse ⟨.preserve, 100⟩ "## c\nm = y\n").body.map (fun e => (e.id?, e.location.span)) =
      [(none, ⟨0, 4⟩), (some "m", ⟨5, 10⟩)] := by
    decide +kernel
  generalize hbody : (parse ⟨.preserve, 100⟩ "## c\nm = y\n").body = es at hdata
  obtain ⟨k, es, rfl, hk, hes⟩ := List.map_eq_cons_iff.1 hdata
  obtain ⟨e, es, rfl, he, hes⟩ := List.map_eq_cons_iff.1 hes
  have happart : ∀ x ∈ [k].getLast?, x.location.span.stop ≠ e.location.span.start := by
    intro x hx
    obtain rfl : x = k := (Option.some.inj hx).symm
    rw [(Prod.mk.inj hk).2, (Prod.mk.inj he).2]
    decide
  have hstart := (@entryAt?_start _ _ [k] es e hbody).1 happart
  exact ⟨[k], e, es, rfl, (Prod.mk.inj he).1, happart, hstart⟩

/-- **An entry need not be found where it starts.** The junk in front of the message ends where the message starts. -/
theorem exists_hidden_start : ∃ e ∈ (parse ⟨.preserve, 100⟩ "x\nm = y\n").body,
    (parse ⟨.preserve, 100⟩ "x\nm = y\n").entryAt? e.location.start ≠ some e := by
  have hlast : (parse ⟨.preserve, 100⟩ "x\nm = y\n").body.getLast?.map (fun e => (e.id?, e.location.start)) =
      some (some "m", ⟨1, 0⟩) := by
    decide +kernel
  have hfound : ((parse ⟨.preserve, 100⟩ "x\nm = y\n").entryAt? ⟨1, 0⟩).map Entry.id? = some none := by
    decide +kernel
  obtain ⟨e, he, hdata⟩ := Option.map_eq_some_iff.1 hlast
  obtain ⟨hid, hstart⟩ := Prod.mk.inj hdata
  refine ⟨e, List.mem_of_getLast? he, ?_⟩
  intro hsome
  rw [hstart] at hsome
  rw [hsome, Option.map_some, hid] at hfound
  cases hfound

end Fluent
