import Fluent.Proofs.Behind

/-!
# Layout at the end of a text

Layout at the end of a text changes nothing of what is read before it: a line that has content has the same
content, and a token ends in front of layout as it does at the end of the text. Only a string that is not closed
takes layout with it.

* `Solid xs`: the last character of a text is no layout.
* `Solid.isBlank`, `Solid.nextContent?`, `Solid.attributeHeader?`, ...: lines of a solid text with layout behind it.
* `scan_trailing`: the same for a token, unless that is a string without its closing quote.
* `Cursor.Trims n gap c d`: the cursor `d` in a solid text of `n` bytes where `c` is in one with layout behind it.
-/

namespace Fluent

/-- A text ends, and its last character is no layout. So nothing is trimmed at its end, whatever layout stands behind
it. -/
def Solid (xs : List Char) : Prop := ∃ x, xs.getLast? = some x ∧ isLayout x = false

/-- Nothing but layout. -/
def AllLayout (xs : List Char) : Prop := ∀ x ∈ xs, isLayout x = true

variable {xs ys gap : List Char} {p : Char → Bool}

namespace Solid

theorem ne_nil (h : Solid xs) : xs ≠ [] := by
  rintro rfl
  obtain ⟨x, hx, -⟩ := h
  simp at hx

theorem of_append (h : Solid (ys ++ xs)) (hxs : xs ≠ []) : Solid xs := by
  obtain ⟨x, hx, hlayout⟩ := h
  exact ⟨x, by rwa [List.getLast?_append_of_ne_nil _ hxs] at hx, hlayout⟩

theorem tail {x : Char} (h : Solid (x :: xs)) (hxs : xs ≠ []) : Solid xs :=
  of_append (show Solid ([x] ++ xs) from h) hxs

theorem append (ys : List Char) (h : Solid xs) : Solid (ys ++ xs) := by
  obtain ⟨x, hx, hlayout⟩ := h
  exact ⟨x, by rwa [List.getLast?_append_of_ne_nil _ (List.ne_nil_of_mem (List.mem_of_getLast? hx))], hlayout⟩

theorem not_allLayout (h : Solid xs) : ¬ AllLayout xs := by
  obtain ⟨x, hx, hlayout⟩ := h
  intro hall
  simp [hall x (List.mem_of_getLast? hx)] at hlayout

/-- Layout at the front is not all of a solid text. -/
theorem of_dropWhile (h : Solid xs) (hp : ∀ x, p x = true → isLayout x = true) : Solid (xs.dropWhile p) := by
  rw [← List.takeWhile_append_dropWhile (p := p) (l := xs)] at h
  apply h.of_append
  intro hnil
  rw [hnil, List.append_nil] at h
  apply h.not_allLayout
  intro x hx
  exact hp x (List.mem_takeWhile_imp hx)

/-- A run of layout in front of content is the same with more layout behind the content. -/
theorem takeWhile_layout (h : Solid xs) (gap : List Char) (hp : ∀ x, p x = true → isLayout x = true) :
    (xs ++ gap).takeWhile p = xs.takeWhile p := by
  have hne := (h.of_dropWhile hp).ne_nil
  rw [List.takeWhile_append, if_neg]
  intro hlength
  have hall := List.takeWhile_eq_self_iff.1 ((List.takeWhile_prefix p).eq_of_length hlength)
  exact hne (List.dropWhile_eq_nil_iff.2 hall)

theorem dropWhile_layout (h : Solid xs) (gap : List Char) (hp : ∀ x, p x = true → isLayout x = true) :
    (xs ++ gap).dropWhile p = xs.dropWhile p ++ gap := by
  have hne := (h.of_dropWhile hp).ne_nil
  rw [List.dropWhile_append, if_neg (by simpa using hne)]

end Solid

/-- A text that is not all layout is solid up to the layout at its end. -/
theorem exists_solid {t : List Char} (h : ¬ AllLayout t) : ∃ g gap, t = g ++ gap ∧ Solid g ∧ AllLayout gap := by
  induction t using List.reverseRecOn with
  | nil => exact absurd (fun _ hx => absurd hx List.not_mem_nil) h
  | append_singleton t x ih =>
    by_cases hx : isLayout x = true
    · have ht : ¬ AllLayout t := by
        intro hall
        apply h
        intro y hy
        rcases List.mem_append.1 hy with hy | hy
        · exact hall y hy
        · rwa [List.mem_singleton.1 hy]
      obtain ⟨g, gap, rfl, hg, hgap⟩ := ih ht
      refine ⟨g, gap ++ [x], List.append_assoc .., hg, ?_⟩
      intro y hy
      rcases List.mem_append.1 hy with hy | hy
      · exact hgap y hy
      · rwa [List.mem_singleton.1 hy]
    · exact ⟨t ++ [x], [], (List.append_nil _).symm, ⟨x, List.getLast?_concat, by simpa using hx⟩,
        fun _ hy => by cases hy⟩

/-- Characters that are no layout are taken up to layout, as up to the end of a text. -/
theorem takeWhile_trailing (hgap : AllLayout gap) (hp : ∀ x, isLayout x = true → p x = false) :
    (xs ++ gap).takeWhile p = xs.takeWhile p := by
  rw [List.takeWhile_append]
  split
  · rename_i hlength
    rw [(List.takeWhile_prefix p).eq_of_length hlength]
    cases gap with
    | nil => simp
    | cons y ys => simp [hp y (hgap y (by simp))]
  · rfl

/-- What drops no layout leaves the layout behind a text where it is. -/
theorem dropWhile_trailing (hgap : AllLayout gap) (hp : ∀ x, isLayout x = true → p x = false) :
    (xs ++ gap).dropWhile p = xs.dropWhile p ++ gap := by
  have hboth := List.takeWhile_append_dropWhile (p := p) (l := xs ++ gap)
  rw [takeWhile_trailing hgap hp] at hboth
  conv_rhs at hboth => rw [← List.takeWhile_append_dropWhile (p := p) (l := xs), List.append_assoc]
  exact List.append_cancel_left hboth

theorem AllLayout.dropWhile (h : AllLayout ys) (p : Char → Bool) : AllLayout (ys.dropWhile p) :=
  fun x hx => h x ((List.dropWhile_suffix p).subset hx)

/-! ## Characters -/

theorem isLayout_of_isSpace (x : Char) (h : (x == ' ') = true) : isLayout x = true := by
  rw [beq_iff_eq] at h
  subst h
  decide

theorem isIdentifierChar_of_isLayout (x : Char) (h : isLayout x = true) : isIdentifierChar x = false := by
  simp only [isLayout, Line.isBlankChar, Bool.or_eq_true, beq_iff_eq] at h
  rcases h with ((rfl | rfl) | rfl) | rfl <;> decide

theorem isDigit_of_isLayout (x : Char) (h : isLayout x = true) : x.isDigit = false := by
  simp only [isLayout, Line.isBlankChar, Bool.or_eq_true, beq_iff_eq] at h
  rcases h with ((rfl | rfl) | rfl) | rfl <;> decide

/-- A sign is not found in layout. -/
theorem AllLayout.ne_cons (h : AllLayout ys) {x : Char} (hx : isLayout x = false) (zs : List Char) : ys ≠ x :: zs := by
  rintro rfl
  simp [h x (by simp)] at hx

/-! ## Lines -/

theorem AllLayout.isBlank (h : AllLayout ys) : Line.isBlank ys = true := by
  rw [Line.isBlank_iff]
  intro x hx
  have hlayout := h x ((List.takeWhile_prefix _).subset hx)
  have hbreak := List.mem_takeWhile_imp hx
  simpa [isLayout, show x ≠ '\n' by simpa using hbreak] using hlayout

theorem AllLayout.nextContent? (h : AllLayout ys) : Line.nextContent? ys = none := by
  cases hl : Line.nextContent? ys with
  | none => rfl
  | some l =>
    obtain ⟨blanks, hys, -, -, -, hblank⟩ := Line.nextContent?_eq_some hl
    have hcontent : AllLayout l.content := by
      intro x hx
      apply h x
      rw [hys]
      simp [hx]
    rw [hcontent.isBlank] at hblank
    exact absurd hblank (by decide)

/-- A line that ends is the same, whatever stands behind the text. -/
theorem Line.head_append_of_mem (h : '\n' ∈ xs) (gap : List Char) :
    head (xs ++ gap) = head xs ∧ tail (xs ++ gap) = tail xs ++ gap := by
  have htail : tail (xs ++ gap) = tail xs ++ gap := by
    rw [tail, List.dropWhile_append, if_neg]
    · rfl
    · intro hnil
      have hall := List.dropWhile_eq_nil_iff.1 (List.isEmpty_iff.1 hnil)
      simpa using hall '\n' h
  refine ⟨?_, htail⟩
  have hboth := head_append_tail (xs ++ gap)
  conv_rhs at hboth => rw [← head_append_tail xs]
  rw [htail, ← List.append_assoc] at hboth
  exact List.append_cancel_right (List.append_cancel_right hboth)

namespace Solid

theorem isBlank (h : Solid xs) (gap : List Char) : Line.isBlank (xs ++ gap) = Line.isBlank xs := by
  by_cases hbreak : '\n' ∈ xs
  · rw [Line.isBlank, (Line.head_append_of_mem hbreak gap).1, Line.isBlank]
  · -- a line that goes on to the end of a solid text is not blank
    obtain ⟨x, hx, hlayout⟩ := h
    have hmem := List.mem_of_getLast? hx
    have hall : ∀ y ∈ xs, (y != '\n') = true := by
      intro y hy
      rw [bne_iff_ne]
      rintro rfl
      exact hbreak hy
    have hhead : ∀ zs, x ∈ Line.head (xs ++ zs) := by
      intro zs
      rw [Line.head, List.takeWhile_append_of_pos hall]
      exact List.mem_append_left _ hmem
    have hnot : ∀ zs, Line.isBlank (xs ++ zs) = false := by
      intro zs
      rw [← Bool.not_eq_true, Line.isBlank_iff]
      intro hblank
      rw [isLayout_of_isBlankChar (hblank x (hhead zs))] at hlayout
      exact absurd hlayout (by decide)
    rw [hnot gap, ← hnot [], List.append_nil]

theorem indent (h : Solid xs) (gap : List Char) : Line.indent (xs ++ gap) = Line.indent xs := by
  rw [Line.indent, h.takeWhile_layout gap isLayout_of_isSpace, Line.indent]

/-- A blank line of a solid text is not the last one. -/
theorem mem_of_isBlank (h : Solid xs) (hblank : Line.isBlank xs = true) : '\n' ∈ xs ∧ Solid (Line.tail xs) := by
  have hsplit := Line.head_append_tail xs
  have hne : Line.tail xs ≠ [] := by
    intro hnil
    rw [hnil, List.append_nil] at hsplit
    apply h.not_allLayout
    intro x hx
    exact isLayout_of_isBlankChar (Line.isBlank_iff.1 hblank x (by rwa [hsplit]))
  rw [← hsplit] at h
  refine ⟨?_, h.of_append hne⟩
  obtain hnil | ⟨rest, hrest⟩ := Line.tail_eq_nil_or xs
  · exact absurd hnil hne
  · rw [← hsplit, hrest]
    simp

/-- **The next line with content** is the same, whatever layout stands behind. -/
theorem nextContent? (h : Solid xs) (gap : List Char) :
    Line.nextContent? (xs ++ gap) = (Line.nextContent? xs).map (.extend gap) := by
  fun_induction Line.nextContent? xs with
  | case1 line hline ih =>
    have hsolid : Solid line := by
      apply h.tail
      rintro rfl
      exact absurd h.not_allLayout (by simp [AllLayout, isLayout])
    obtain ⟨hbreak, hrest⟩ := hsolid.mem_of_isBlank hline
    obtain ⟨hhead, htail⟩ := Line.head_append_of_mem hbreak gap
    rw [List.cons_append, Line.nextContent?, hsolid.isBlank, if_pos hline, htail, hhead, ih hrest,
      Option.map_map, Option.map_map]
    rfl
  | case2 line hline hspaces =>
    have hnil : line ≠ [] := by
      rintro rfl
      simp [Line.isBlank, Line.head] at hline
    exact absurd hspaces ((h.tail hnil).of_dropWhile isLayout_of_isSpace).ne_nil
  | case3 line hline c after hafter =>
    have hnil : line ≠ [] := by
      rintro rfl
      simp [Line.isBlank, Line.head] at hline
    have hsolid := h.tail hnil
    rw [List.cons_append, Line.nextContent?, hsolid.isBlank, if_neg hline,
      hsolid.dropWhile_layout gap isLayout_of_isSpace, hafter, hsolid.indent]
    rfl
  | case4 xs hxs =>
    obtain ⟨y, ys, rfl⟩ := List.exists_cons_of_ne_nil h.ne_nil
    have hbreak : y ≠ '\n' := fun heq => hxs ys (by rw [heq])
    rw [List.cons_append, Line.nextContent?.eq_2 _ (by simpa using hbreak)]
    rfl

end Solid

theorem identifier?_trailing (hgap : AllLayout gap) :
    identifier? (xs ++ gap) = (identifier? xs).map fun a => (a.1, a.2 ++ gap) := by
  cases xs with
  | nil =>
    cases gap with
    | nil => rfl
    | cons y ys =>
      have hy : isIdentifierStart y = false := by
        by_contra hstart
        rw [Bool.not_eq_false] at hstart
        have hchar := isIdentifierChar_of_isLayout y (hgap y (by simp))
        rw [isIdentifierChar_of_isIdentifierStart hstart] at hchar
        exact absurd hchar (by decide)
      simp [identifier?, hy]
  | cons y ys =>
    rw [List.cons_append, identifier?, identifier?, takeWhile_trailing hgap isIdentifierChar_of_isLayout,
      dropWhile_trailing hgap isIdentifierChar_of_isLayout]
    split <;> rfl

/-- A name and its sign are found alike with layout behind the text: neither of them is layout. -/
theorem assignment?_trailing (hgap : AllLayout gap) :
    Line.assignment? (xs ++ gap) = (Line.assignment? xs).map (.extend gap) := by
  unfold Line.assignment?
  rw [identifier?_trailing hgap]
  cases identifier? xs with
  | none => rfl
  | some a =>
    obtain ⟨name, after⟩ := a
    simp only [Option.map_some, Option.bind_eq_bind, Option.bind_some]
    rw [List.dropWhile_append]
    cases hrest : after.dropWhile (· == ' ') with
    | nil =>
      -- behind the spaces at the end of the text there is no equals sign
      rw [List.isEmpty_nil, if_pos rfl]
      split
      · rename_i rest hequals
        exact absurd hequals ((hgap.dropWhile _).ne_cons (by decide) rest)
      · rfl
    | cons y ys =>
      have hindent : Line.indent (after ++ gap) = Line.indent after := by
        rw [Line.indent, Line.indent, List.takeWhile_append, if_neg]
        intro hlength
        have hall := List.takeWhile_eq_self_iff.1 ((List.takeWhile_prefix _).eq_of_length hlength)
        rw [List.dropWhile_eq_nil_iff.2 hall] at hrest
        exact List.cons_ne_nil y ys hrest.symm
      rw [hindent, List.isEmpty_cons, if_neg (by decide), List.cons_append]
      by_cases hequals : y = '='
      · subst hequals
        rfl
      · simp [hequals]

theorem attributeHeader?_trailing (hgap : AllLayout gap) :
    Line.attributeHeader? (xs ++ gap) = (Line.attributeHeader? xs).map (.extend gap) := by
  cases xs with
  | nil =>
    cases gap with
    | nil => rfl
    | cons y ys =>
      have hdot : y ≠ '.' := by
        rintro rfl
        exact hgap.ne_cons (by decide) ys rfl
      simp [Line.attributeHeader?, hdot]
  | cons y ys =>
    rw [List.cons_append]
    by_cases hdot : y = '.'
    · subst hdot
      exact assignment?_trailing hgap
    · simp [Line.attributeHeader?, hdot]

theorem entryHeader?_trailing (hgap : AllLayout gap) :
    Line.entryHeader? (xs ++ gap) = (Line.entryHeader? xs).map fun a => (a.1, a.2.extend gap) := by
  -- a dash in front makes it the header of a term
  have hother : ∀ zs : List Char, (∀ ws, zs ≠ '-' :: ws) →
      Line.entryHeader? zs = (Line.assignment? zs).map (false, ·) := by
    intro zs hzs
    unfold Line.entryHeader?
    split
    · exact absurd rfl (hzs _)
    · rfl
  by_cases hminus : ∃ ys, xs = '-' :: ys
  · obtain ⟨ys, rfl⟩ := hminus
    rw [List.cons_append, Line.entryHeader?, assignment?_trailing hgap, Line.entryHeader?, Option.map_map,
      Option.map_map]
    rfl
  · have hxs : ∀ ws, xs ≠ '-' :: ws := fun ws heq => hminus ⟨ws, heq⟩
    have hxs' : ∀ ws, xs ++ gap ≠ '-' :: ws := by
      intro ws heq
      cases xs with
      | nil => exact hgap.ne_cons (by decide) ws heq
      | cons y ys => exact hxs ys (by rw [(List.cons.inj heq).1])
    rw [hother _ hxs, hother _ hxs', assignment?_trailing hgap, Option.map_map, Option.map_map]
    rfl

/-! ## Tokens -/

theorem digits_trailing (hgap : AllLayout gap) : digits (xs ++ gap) = digits xs := by
  unfold digits
  rw [takeWhile_trailing hgap isDigit_of_isLayout, dropWhile_trailing hgap isDigit_of_isLayout]
  generalize xs.dropWhile Char.isDigit = rest
  cases rest with
  | nil =>
    rw [List.nil_append]
    cases gap with
    | nil => rfl
    | cons y ys =>
      have hdot : y ≠ '.' := by
        rintro rfl
        exact hgap.ne_cons (by decide) ys rfl
      simp [hdot]
  | cons y ys =>
    rw [List.cons_append]
    by_cases hdot : y = '.'
    · subst hdot
      simp only
      rw [takeWhile_trailing hgap isDigit_of_isLayout]
    · simp [hdot]

/-- The closing quote of a string is not in layout. -/
theorem stringBody_trailing (hgap : AllLayout gap) {body rest : List Char}
    (h : stringBody (xs ++ gap) = (body, '"' :: rest)) : ∃ more, stringBody xs = (body, '"' :: more) := by
  -- what is left behind the body is left of the text
  have hno : ∀ cs : List Char, AllLayout cs → ∀ body, stringBody cs ≠ (body, '"' :: rest) := by
    intro cs hcs body heq
    have hsplit := (stringBody_spec cs).1
    rw [heq] at hsplit
    have hquote := hcs '"' (by rw [← hsplit]; simp)
    exact absurd hquote (by decide)
  fun_induction stringBody xs generalizing body with
  | case1 => exact absurd h (hno gap hgap body)
  | case2 cs =>
    rw [List.cons_append, stringBody] at h
    obtain ⟨rfl, -⟩ := Prod.mk.inj h
    exact ⟨cs, rfl⟩
  | case3 => simp [stringBody] at h
  | case4 =>
    cases gap with
    | nil => simp [stringBody] at h
    | cons y ys =>
      have hys : AllLayout ys := fun x hx => hgap x (List.mem_cons_of_mem _ hx)
      by_cases hbreak : y = '\n'
      · simp [stringBody, hbreak] at h
      · simp only [List.cons_append, List.nil_append, stringBody, hbreak, if_false] at h
        obtain ⟨-, hrest⟩ := Prod.mk.inj h
        have hbody : stringBody ys = ((stringBody ys).1, '"' :: rest) := Prod.ext rfl hrest
        exact absurd hbody (hno ys hys _)
  | case5 => simp [stringBody] at h
  | case6 c cs hc body' rest' hbody ih =>
    simp only [List.cons_append, stringBody, hc, if_false] at h
    obtain ⟨rfl, hrest⟩ := Prod.mk.inj h
    obtain ⟨more, hmore⟩ := ih (Prod.ext rfl hrest)
    obtain ⟨rfl, rfl⟩ := Prod.mk.inj (hbody.symm.trans hmore)
    exact ⟨more, rfl⟩
  | case7 c cs hquote hbreak hlone hpair body' rest' hbody ih =>
    have hslash : c ≠ '\\' := by
      intro hc
      cases cs with
      | nil => exact hlone hc rfl
      | cons d ds => exact hpair d ds hc rfl
    rw [List.cons_append, stringBody] at h
    · obtain ⟨rfl, hrest⟩ := Prod.mk.inj h
      obtain ⟨more, hmore⟩ := ih (Prod.ext rfl hrest)
      obtain ⟨rfl, rfl⟩ := Prod.mk.inj (hbody.symm.trans hmore)
      exact ⟨more, rfl⟩
    · exact hquote
    · exact hbreak
    · exact fun hc => absurd hc hslash
    · exact fun _ _ hc => absurd hc hslash

/-- **A token ends in front of layout** as at the end of the text, unless it is a string that is not closed. -/
theorem scan_trailing (hgap : AllLayout gap) (c : Char) (cs : List Char) :
    Token.scan c (cs ++ gap) = Token.scan c cs ∨
      ∃ raw, (Token.scan c (cs ++ gap)).1 = .unterminatedString raw := by
  unfold Token.scan
  rw [takeWhile_trailing hgap isIdentifierChar_of_isLayout, ← List.cons_append, digits_trailing hgap,
    digits_trailing hgap]
  split
  · exact .inl rfl
  split
  · exact .inl rfl
  split
  · split
    · rename_i body rest hbody
      obtain ⟨more, hmore⟩ := stringBody_trailing hgap hbody
      rw [hmore]
      exact .inl rfl
    · exact .inr ⟨_, rfl⟩
  split
  · left
    cases cs with
    | nil =>
      cases gap with
      | nil => rfl
      | cons y ys =>
        have hangle : y ≠ '>' := by
          rintro rfl
          exact hgap.ne_cons (by decide) ys rfl
        have hdigit := isDigit_of_isLayout y (hgap y (by simp))
        split
        · rename_i heq
          exact absurd (List.cons.inj heq).1 hangle
        · rename_i heq
          obtain ⟨rfl, rfl⟩ := List.cons.inj heq
          rw [hdigit]
          rfl
        · rfl
    | cons d ds => by_cases hangle : d = '>' <;> simp [hangle]
  · exact .inl rfl

/-- No colon of an argument's name is in layout. -/
theorem namedArgumentAhead_trailing (hgap : AllLayout gap) :
    State.namedArgumentAhead (xs ++ gap) = State.namedArgumentAhead xs := by
  unfold State.namedArgumentAhead
  rw [dropWhile_trailing hgap isIdentifierChar_of_isLayout, List.dropWhile_append]
  cases (xs.dropWhile isIdentifierChar).dropWhile fun c => c == ' ' || c == '\r' || c == '\n' with
  | nil =>
    rw [List.isEmpty_nil, if_pos rfl]
    split
    · rename_i more hcolon
      exact absurd hcolon ((hgap.dropWhile _).ne_cons (by decide) more)
    · rfl
  | cons y ys => by_cases hcolon : y = ':' <;> simp [hcolon]

/-! ## Cursors -/

/-- A cursor in a text of `n` bytes with layout behind it, and the one in the text alone: both at the same place,
or the one among the layout and the other at the end. -/
inductive Cursor.Trims (n : Nat) (gap : List Char) : Cursor → Cursor → Prop
  | inside {o : Nat} {xs : List Char} : Solid xs → o + byteCount xs = n → Trims n gap ⟨o, xs ++ gap⟩ ⟨o, xs⟩
  | outside {o : Nat} {ys : List Char} : AllLayout ys → n ≤ o → Trims n gap ⟨o, ys⟩ ⟨n, []⟩

namespace Cursor.Trims

variable {n : Nat} {c d : Cursor}

theorem offset (h : c.Trims n gap d) : d.offset = min c.offset n := by
  cases h with
  | inside _ hn => exact (Nat.min_eq_left (by simp only; omega)).symm
  | outside _ hn => exact (Nat.min_eq_right hn).symm

/-- A cursor in front of something that the text alone has. -/
theorem inside_of_ne_nil (h : c.Trims n gap d) (hd : d.rest ≠ []) :
    Solid d.rest ∧ d.offset + byteCount d.rest = n ∧ c = ⟨d.offset, d.rest ++ gap⟩ := by
  cases h with
  | inside hxs hn => exact ⟨hxs, hn, rfl⟩
  | outside => exact absurd rfl hd

theorem isBlank (h : c.Trims n gap d) : Line.isBlank c.rest = Line.isBlank d.rest := by
  cases h with
  | inside hxs => exact hxs.isBlank gap
  | outside hys => exact hys.isBlank

/-- Characters of the text are passed alike. -/
theorem skip (hgap : AllLayout gap) (h : c.Trims n gap d) {m : Nat} (hm : m ≤ d.rest.length) :
    (c.skip m).Trims n gap (d.skip m) := by
  cases h with
  | @inside o xs hxs hn =>
    have hm : m ≤ xs.length := hm
    have hsplit : byteCount (xs.take m) + byteCount (xs.drop m) = byteCount xs := by
      rw [← byteCount_append, List.take_append_drop]
    rw [Cursor.skip, Cursor.skip]
    simp only
    rw [List.take_append_of_le_length hm, List.drop_append_of_le_length hm]
    cases hrest : xs.drop m with
    | nil =>
      rw [hrest] at hsplit
      have hend : o + byteCount (xs.take m) = n := by
        rw [← hn, ← hsplit]
        rfl
      rw [hend]
      exact .outside hgap (Nat.le_refl n)
    | cons y ys =>
      rw [← hrest]
      rw [← List.take_append_drop m xs] at hxs
      exact .inside (hxs.of_append (by simp [hrest])) (by omega)
  | outside hys hn =>
    obtain rfl : m = 0 := Nat.le_zero.1 hm
    exact .outside hys hn

theorem skipWhile (h : c.Trims n gap d) {p : Char → Bool} (hp : ∀ x, p x = true → isLayout x = true) :
    (c.skipWhile p).Trims n gap (d.skipWhile p) := by
  cases h with
  | @inside o xs hxs hn =>
    have hsplit : byteCount (xs.takeWhile p) + byteCount (xs.dropWhile p) = byteCount xs := by
      rw [← byteCount_append, List.takeWhile_append_dropWhile]
    have hbytes : o + byteCount (xs.takeWhile p) + byteCount (xs.dropWhile p) = n := by omega
    rw [Cursor.skipWhile, Cursor.skipWhile, hxs.takeWhile_layout gap hp, hxs.dropWhile_layout gap hp]
    exact .inside (hxs.of_dropWhile hp) hbytes
  | outside hys hn => exact .outside (hys.dropWhile p) (Nat.le_trans hn (Nat.le_add_right ..))

theorem lineEnd (hgap : AllLayout gap) (h : c.Trims n gap d) : c.lineEnd.Trims n gap d.lineEnd := by
  cases h with
  | @inside o xs hxs hn =>
    by_cases hbreak : '\n' ∈ xs
    · obtain ⟨hhead, htail⟩ := Line.head_append_of_mem hbreak gap
      have hsplit := Line.head_append_tail xs
      have hbytes : byteCount (Line.head xs) + byteCount (Line.tail xs) = byteCount xs := by
        rw [← byteCount_append, hsplit]
      have hsolid : Solid (Line.tail xs) := by
        rw [← hsplit] at hxs
        apply hxs.of_append
        intro hnil
        exact absurd (List.dropWhile_eq_nil_iff.1 hnil '\n' hbreak) (by decide)
      show Trims n gap ⟨o + byteCount (Line.head (xs ++ gap)), Line.tail (xs ++ gap)⟩
        ⟨o + byteCount (Line.head xs), Line.tail xs⟩
      rw [hhead, htail]
      exact .inside hsolid (by omega)
    · have hall : ∀ y ∈ xs, (y != '\n') = true := by
        intro y hy
        rw [bne_iff_ne]
        rintro rfl
        exact hbreak hy
      have hhead : Line.head xs = xs := List.takeWhile_eq_self_iff.2 hall
      have htail : Line.tail xs = [] := List.dropWhile_eq_nil_iff.2 hall
      show Trims n gap ⟨o + byteCount (Line.head (xs ++ gap)), Line.tail (xs ++ gap)⟩
        ⟨o + byteCount (Line.head xs), Line.tail xs⟩
      rw [hhead, htail, hn, Line.head, Line.tail, List.takeWhile_append_of_pos hall,
        List.dropWhile_append_of_pos hall, byteCount_append]
      exact .outside (hgap.dropWhile _) (by omega)
  | outside hys hn => exact .outside (hys.dropWhile _) (Nat.le_trans hn (Nat.le_add_right ..))

theorem nextContent? (h : c.Trims n gap d) :
    Line.nextContent? c.rest = (Line.nextContent? d.rest).map (.extend gap) := by
  cases h with
  | inside hxs => exact hxs.nextContent? gap
  | outside hys => simp [hys.nextContent?, Line.nextContent?]

/-- A line with content is part of the text. -/
theorem toContent (h : c.Trims n gap d) {l : Line.Next} (hl : Line.nextContent? d.rest = some l) :
    (c.toContent (l.extend gap)).Trims n gap (d.toContent l) ∧ (d.toContent l).rest ≠ [] := by
  obtain ⟨_, -, hover⟩ := Cursor.over_toContent hl
  have hd : d.rest ≠ [] := by
    intro hnil
    rw [hnil] at hl
    simp [Line.nextContent?] at hl
  obtain ⟨hsolid, hn, rfl⟩ := h.inside_of_ne_nil hd
  have hcontent : l.content ≠ [] := List.cons_ne_nil _ _
  rw [hover.rest] at hsolid hn
  rw [byteCount_append, ← Nat.add_assoc, ← hover.offset] at hn
  exact ⟨.inside (hsolid.of_append hcontent) hn, hcontent⟩

/-- An expression goes on alike, in front of something that is no layout, or not at all. -/
theorem skipBlank? (h : c.Trims n gap d) :
    (c.skipBlank? = none ∧ d.skipBlank? = none) ∨
      ∃ c' d', c.skipBlank? = some c' ∧ d.skipBlank? = some d' ∧ c'.Trims n gap d' := by
  have hhere := h.skipWhile (p := Line.isBlankChar) fun _ => isLayout_of_isBlankChar
  cases h with
  | @outside o ys hys hn =>
    left
    refine ⟨?_, rfl⟩
    cases hd : Cursor.skipBlank? ⟨o, ys⟩ with
    | none => rfl
    | some e =>
      -- what an expression goes on with is no layout
      obtain ⟨skipped, x, rest, -, hover, hrest, hx, -⟩ := Cursor.over_skipBlank hd
      have hsplit : ys = skipped ++ e.rest := hover.rest
      have hlayout := hys x (by rw [hsplit, hrest]; simp)
      rw [hlayout] at hx
      exact absurd hx (by decide)
  | @inside o xs hxs hn =>
    have hne : ((⟨o, xs⟩ : Cursor).skipWhile Line.isBlankChar).rest ≠ [] :=
      (hxs.of_dropWhile fun _ => isLayout_of_isBlankChar).ne_nil
    unfold Cursor.skipBlank?
    generalize (⟨o, xs⟩ : Cursor).skipWhile Line.isBlankChar = d at hhere hne
    have hnext := hhere.nextContent?
    obtain ⟨-, -, hc⟩ := hhere.inside_of_ne_nil hne
    rw [hc] at hhere hnext ⊢
    obtain ⟨offset, rest⟩ := d
    obtain ⟨y, ys, rfl⟩ := List.exists_cons_of_ne_nil hne
    simp only [List.cons_append] at hnext ⊢
    by_cases hbreak : y = '\n'
    · subst hbreak
      simp only
      rw [hnext]
      cases hl : Line.nextContent? ('\n' :: ys) with
      | none => exact .inl ⟨rfl, rfl⟩
      | some l =>
        have hcontinues : (l.extend gap).continuesExpression = l.continuesExpression := rfl
        simp only [Option.map_some]
        rw [hcontinues]
        by_cases hgoes : l.continuesExpression = true
        · right
          rw [if_pos hgoes, if_pos hgoes]
          have hcontent := (hhere.toContent hl).1.skipWhile (p := Line.isBlankChar) fun _ => isLayout_of_isBlankChar
          exact ⟨_, _, rfl, rfl, hcontent⟩
        · rw [if_neg hgoes, if_neg hgoes]
          exact .inl ⟨rfl, rfl⟩
    · right
      refine ⟨_, _, ?_, ?_, hhere⟩ <;> simp [hbreak]

end Cursor.Trims

end Fluent
