import Mathlib
import Fluent.Source.Cursor

/-!
# Stretches of a source

A cursor moves over text. `Cursor.Over c text d` says that `text` is what lies between `c` and `d`; every
move of a cursor is over some text, and where layout is skipped that text is layout (`isLayout`).

* `nextContent?_eq_some`: what lies between a line feed and the next line with content.
* `Cursor.over_skipBlank`, `Cursor.over_skipBlankLines`, `Cursor.over_toContent`: the moves over layout.
* `Over.slice`: the text of a stretch is the slice of the source at its span.
* `charAt?`: the character that a byte of a text belongs to.
-/

namespace Fluent

/-- The characters that lay out a source: blanks and line feeds. -/
def isLayout (c : Char) : Bool := Line.isBlankChar c || c == '\n'

theorem isLayout_of_isBlankChar {c : Char} (h : Line.isBlankChar c = true) : isLayout c = true := by
  simp [isLayout, h]

theorem utf8Size_of_isLayout {c : Char} (h : isLayout c = true) : c.utf8Size = 1 := by
  simp only [isLayout, Line.isBlankChar, Bool.or_eq_true, beq_iff_eq] at h
  rcases h with ((rfl | rfl) | rfl) | rfl <;> decide

/-- A run of one character. -/
theorem takeWhile_beq (x : Char) (cs : List Char) :
    cs.takeWhile (· == x) = List.replicate (cs.takeWhile (· == x)).length x :=
  List.eq_replicate_iff.2 ⟨rfl, fun _ hy => by simpa using List.mem_takeWhile_imp hy⟩

theorem byteCount_append (xs ys : List Char) :
    byteCount (xs ++ ys) = byteCount xs + byteCount ys := by
  induction xs with
  | nil => simp [byteCount]
  | cons x xs ih => simp only [List.cons_append, byteCount, ih]; omega

theorem byteCount_eq_length {xs : List Char} (h : ∀ c ∈ xs, c.utf8Size = 1) :
    byteCount xs = xs.length := by
  induction xs with
  | nil => rfl
  | cons x xs ih =>
    rw [byteCount, h x (by simp), ih fun c hc => h c (by simp [hc]), List.length_cons]
    omega

theorem byteCount_layout {xs : List Char} (h : ∀ c ∈ xs, isLayout c = true) :
    byteCount xs = xs.length :=
  byteCount_eq_length fun c hc => utf8Size_of_isLayout (h c hc)

theorem byteCount_replicate_space (n : Nat) : byteCount (List.replicate n ' ') = n := by
  rw [byteCount_layout (by simp +contextual [isLayout, Line.isBlankChar]), List.length_replicate]

theorem byteCount_pos {xs : List Char} (h : xs ≠ []) : 0 < byteCount xs := by
  obtain ⟨x, xs, rfl⟩ := List.exists_cons_of_ne_nil h
  have := x.utf8Size_pos
  simp only [byteCount]
  omega

theorem take_length_takeWhile (p : Char → Bool) (cs : List Char) :
    cs.take (cs.takeWhile p).length = cs.takeWhile p := by
  conv_lhs => arg 2; rw [← List.takeWhile_append_dropWhile (p := p) (l := cs)]
  exact List.take_left

theorem drop_length_takeWhile (p : Char → Bool) (cs : List Char) :
    cs.drop (cs.takeWhile p).length = cs.dropWhile p := by
  conv_lhs => arg 2; rw [← List.takeWhile_append_dropWhile (p := p) (l := cs)]
  exact List.drop_left

/-- The character that a byte of a text belongs to. -/
def charAt? : Nat → List Char → Option Char
  | _, [] => none
  | k, c :: cs => if k < c.utf8Size then some c else charAt? (k - c.utf8Size) cs

theorem charAt?_append_left {k : Nat} {xs ys : List Char} (h : k < byteCount xs) :
    charAt? k (xs ++ ys) = charAt? k xs := by
  induction xs generalizing k with
  | nil => simp [byteCount] at h
  | cons x xs ih =>
    simp only [List.cons_append, charAt?]
    split
    · rfl
    · rw [byteCount] at h
      exact ih (by omega)

theorem charAt?_append_right {k : Nat} {xs ys : List Char} (h : byteCount xs ≤ k) :
    charAt? k (xs ++ ys) = charAt? (k - byteCount xs) ys := by
  induction xs generalizing k with
  | nil => simp [byteCount]
  | cons x xs ih =>
    rw [byteCount] at h
    simp only [List.cons_append, charAt?]
    rw [if_neg (by omega), ih (by omega), byteCount, Nat.sub_sub]

theorem lt_byteCount_of_charAt? {k : Nat} {xs : List Char} {c : Char} (h : charAt? k xs = some c) :
    k < byteCount xs := by
  induction xs generalizing k with
  | nil => simp [charAt?] at h
  | cons x xs ih =>
    rw [charAt?] at h
    rw [byteCount]
    split at h
    · omega
    · have := ih h
      omega

theorem mem_of_charAt? {k : Nat} {xs : List Char} {c : Char} (h : charAt? k xs = some c) : c ∈ xs := by
  induction xs generalizing k with
  | nil => simp [charAt?] at h
  | cons x xs ih =>
    rw [charAt?] at h
    split at h
    · simp [Option.some.inj h]
    · exact List.mem_cons_of_mem _ (ih h)

/-- The offset falls between two characters of a text, or at one of its ends. -/
def isBoundary (cs : List Char) (offset : Nat) : Bool := (fromOffset? offset cs).isSome

theorem fromOffset?_append_right (xs ys : List Char) (n : Nat) :
    fromOffset? (byteCount xs + n) (xs ++ ys) = fromOffset? n ys := by
  induction xs with
  | nil => simp [byteCount]
  | cons x xs ih =>
    have hx := x.utf8Size_pos
    obtain ⟨m, hm⟩ : ∃ m, byteCount (x :: xs) + n = m + 1 :=
      ⟨x.utf8Size + byteCount xs + n - 1, by rw [byteCount]; omega⟩
    rw [hm, List.cons_append, fromOffset?, ← hm, byteCount, if_pos (by omega),
      show x.utf8Size + byteCount xs + n - x.utf8Size = byteCount xs + n by omega, ih]

theorem fromOffset?_append (xs ys : List Char) : fromOffset? (byteCount xs) (xs ++ ys) = some ys := by
  have h := fromOffset?_append_right xs ys 0
  rwa [Nat.add_zero, fromOffset?] at h

theorem fromOffset?_append_left {xs ys : List Char} {n : Nat} (h : n ≤ byteCount xs) :
    fromOffset? n (xs ++ ys) = (fromOffset? n xs).map (· ++ ys) := by
  induction xs generalizing n with
  | nil =>
    obtain rfl : n = 0 := Nat.le_zero.1 h
    simp [fromOffset?]
  | cons x xs ih =>
    cases n with
    | zero => simp [fromOffset?]
    | succ n =>
      rw [byteCount] at h
      rw [List.cons_append, fromOffset?, fromOffset?]
      split
      · exact ih (by omega)
      · rfl

theorem byteCount_fromOffset? {n : Nat} {cs rest : List Char} (h : fromOffset? n cs = some rest) :
    n + byteCount rest = byteCount cs := by
  fun_induction fromOffset? n cs with
  | case1 cs =>
    obtain rfl := Option.some.inj h
    exact Nat.zero_add _
  | case2 => simp at h
  | case3 n c cs hc ih =>
    have := ih h
    rw [byteCount]
    omega
  | case4 => simp at h

theorem takeBytes_append (xs ys : List Char) : takeBytes (byteCount xs) (xs ++ ys) = xs := by
  induction xs with
  | nil =>
    cases ys with
    | nil => rfl
    | cons y ys => simp [byteCount, takeBytes, Nat.ne_of_gt y.utf8Size_pos]
  | cons x xs ih =>
    rw [List.cons_append, takeBytes, byteCount, if_pos (by omega), Nat.add_sub_cancel_left, ih]

theorem takeBytes_append_left {xs ys : List Char} {n : Nat} (h : n ≤ byteCount xs) :
    takeBytes n (xs ++ ys) = takeBytes n xs := by
  induction xs generalizing n with
  | nil =>
    obtain rfl : n = 0 := Nat.le_zero.1 h
    cases ys with
    | nil => rfl
    | cons y ys => simp [takeBytes, Nat.ne_of_gt y.utf8Size_pos]
  | cons x xs ih =>
    rw [byteCount] at h
    rw [List.cons_append, takeBytes, takeBytes]
    split
    · rw [ih (by omega)]
    · rfl

namespace Line

theorem head_append_tail (cs : List Char) : head cs ++ tail cs = cs := List.takeWhile_append_dropWhile

theorem newline_notMem_head (cs : List Char) : '\n' ∉ head cs := by
  intro h
  simpa using List.mem_takeWhile_imp h

/-- A text beyond the line ends is empty or begins with a line feed. -/
theorem tail_eq_nil_or (cs : List Char) : tail cs = [] ∨ ∃ rest, tail cs = '\n' :: rest := by
  rcases h : tail cs with _ | ⟨c, rest⟩
  · exact .inl rfl
  · have := List.head?_dropWhile_not (· != '\n') cs
    rw [tail] at h
    rw [h] at this
    exact .inr ⟨rest, by simpa using this⟩

theorem isBlank_iff {cs : List Char} : isBlank cs = true ↔ ∀ c ∈ head cs, isBlankChar c = true := by
  simp [isBlank]

/-- What lies between a line feed and the next line with content: blank lines, and the indentation. -/
theorem nextContent?_eq_some {cs : List Char} {l : Next} (h : nextContent? cs = some l) :
    ∃ blanks, cs = blanks ++ '\n' :: (List.replicate l.indent ' ' ++ l.content) ∧
      (∀ c ∈ blanks, isLayout c = true) ∧ byteCount blanks + 1 = l.skipped ∧
      l.first ≠ ' ' ∧ isBlank l.content = false := by
  fun_induction nextContent? cs generalizing l with
  | case1 line hblank ih =>
    obtain ⟨m, hm, rfl⟩ := Option.map_eq_some_iff.1 h
    obtain ⟨blanks, hcs, hlayout, hskipped, hfirst, hcontent⟩ := ih hm
    have hhead : ∀ c ∈ head line, isLayout c = true :=
      fun c hc => isLayout_of_isBlankChar (isBlank_iff.1 hblank c hc)
    refine ⟨'\n' :: head line ++ blanks, ?_, ?_, ?_, hfirst, hcontent⟩
    · conv_lhs => rw [← head_append_tail line, hcs]
      simp [Next.content]
    · intro c hc
      rcases List.mem_append.1 hc with hc | hc
      · rcases List.mem_cons.1 hc with rfl | hc
        · rfl
        · exact hhead c hc
      · exact hlayout c hc
    · simp only [List.cons_append, byteCount, byteCount_append, byteCount_layout hhead]
      have : ('\n' : Char).utf8Size = 1 := rfl
      omega
  | case2 => simp at h
  | case3 line hblank c after hafter =>
    obtain rfl := Option.some.inj h
    have hsplit : line = List.replicate (indent line) ' ' ++ c :: after := by
      rw [indent, ← takeWhile_beq, ← hafter, List.takeWhile_append_dropWhile]
    have hfirst : c ≠ ' ' := by
      have := List.head?_dropWhile_not (· == ' ') line
      rw [hafter] at this
      simpa using this
    refine ⟨[], by simpa [Next.content] using hsplit, by simp, rfl, hfirst, ?_⟩
    -- the line is its indentation and its content, so it would be blank with blank content
    by_contra hcontent
    apply hblank
    rw [isBlank_iff]
    intro x hx
    rw [hsplit, head, List.takeWhile_append_of_pos (by simp +contextual)] at hx
    rcases List.mem_append.1 hx with hx | hx
    · rw [List.eq_of_mem_replicate hx]
      rfl
    · exact isBlank_iff.1 (Bool.not_eq_false _ ▸ hcontent) x hx
  | case4 => simp at h

/-- A header begins with a name, which takes all that can go on with it. Spaces and an equals sign follow. -/
theorem assignment?_eq_cons {cs : List Char} {a : Assignment} (h : assignment? cs = some a) :
    ∃ x xs, cs = x :: xs ∧ isIdentifierStart x = true ∧ a.name = x :: xs.takeWhile isIdentifierChar ∧
      xs.dropWhile isIdentifierChar = List.replicate a.spaces ' ' ++ '=' :: a.rest := by
  unfold assignment? identifier? at h
  cases cs with
  | nil => cases h
  | cons x xs =>
    simp only at h
    split at h
    · rename_i hstart
      simp only [Option.bind_eq_bind, Option.bind_some] at h
      split at h
      · rename_i rest hrest
        obtain rfl := Option.some.inj h
        refine ⟨x, xs, rfl, hstart, rfl, ?_⟩
        rw [indent, ← takeWhile_beq, ← hrest, List.takeWhile_append_dropWhile]
      · cases h
    · cases h

/-- A line that is not blank has a character after its blanks. -/
theorem dropWhile_isBlankChar {cs : List Char} (h : isBlank cs = false) :
    ∃ x rest, cs.dropWhile isBlankChar = x :: rest ∧ isLayout x = false := by
  induction cs with
  | nil => simp [isBlank, head] at h
  | cons c cs ih =>
    by_cases hblank : isBlankChar c = true
    · rw [List.dropWhile_cons, if_pos hblank]
      refine ih ?_
      have hbreak : c ≠ '\n' := by
        rintro rfl
        simp [isBlankChar] at hblank
      simpa [isBlank, head, hbreak, hblank] using h
    · have hbreak : c ≠ '\n' := by
        rintro rfl
        simp [isBlank, head] at h
      exact ⟨c, cs, by rw [List.dropWhile_cons, if_neg hblank], by simp [isLayout, hblank, hbreak]⟩

end Line

namespace Cursor

/-- The text that lies between two cursors: the first has it left in front of what the second has left, and the offsets
differ by its bytes. -/
structure Over (c : Cursor) (text : List Char) (d : Cursor) : Prop where
  rest : c.rest = text ++ d.rest
  offset : d.offset = c.offset + byteCount text

theorem Over.refl (c : Cursor) : c.Over [] c := ⟨rfl, rfl⟩

theorem Over.trans {c d e : Cursor} {xs ys : List Char} (h₁ : c.Over xs d) (h₂ : d.Over ys e) :
    c.Over (xs ++ ys) e :=
  ⟨by rw [h₁.rest, h₂.rest, List.append_assoc], by
    rw [h₂.offset, h₁.offset, byteCount_append, Nat.add_assoc]⟩

theorem Over.ofLayout {c : Cursor} {x : Char} {rest : List Char} (h : c.rest = x :: rest)
    (hx : isLayout x = true) : c.Over [x] ⟨c.offset + 1, rest⟩ :=
  ⟨h, by simp [byteCount, utf8Size_of_isLayout hx]⟩

theorem Over.offset_le {c d : Cursor} {text : List Char} (h : c.Over text d) : c.offset ≤ d.offset := by
  rw [h.offset]
  exact Nat.le_add_right _ _

theorem Over.offset_lt {c d : Cursor} {text : List Char} (h : c.Over text d) (ht : text ≠ []) :
    c.offset < d.offset := by
  rw [h.offset]
  exact Nat.lt_add_of_pos_right (byteCount_pos ht)

theorem over_skip (n : Nat) (c : Cursor) : c.Over (c.rest.take n) (c.skip n) :=
  ⟨(List.take_append_drop n c.rest).symm, rfl⟩

/-- Two cursors behind the same text are the same. -/
theorem Over.eq {c d e : Cursor} {xs : List Char} (h : c.Over xs d) (h' : c.Over xs e) : d = e := by
  cases d
  cases e
  obtain ⟨hrest, hoffset⟩ := h
  obtain ⟨hrest', hoffset'⟩ := h'
  have hsame := List.append_cancel_left (hrest.symm.trans hrest')
  simp only at hoffset hoffset' hsame
  rw [hoffset, hoffset', hsame]

theorem Over.split {c d : Cursor} {xs ys : List Char} (h : c.Over (xs ++ ys) d) : ∃ e, c.Over xs e ∧ e.Over ys d := by
  refine ⟨⟨c.offset + byteCount xs, ys ++ d.rest⟩, ⟨?_, rfl⟩, ⟨rfl, ?_⟩⟩
  · rw [h.rest, List.append_assoc]
  · rw [h.offset, byteCount_append, Nat.add_assoc]

theorem Over.skip {c d : Cursor} {xs : List Char} (h : c.Over xs d) : c.skip xs.length = d := by
  have hskip := over_skip xs.length c
  rw [h.rest, List.take_left] at hskip
  exact hskip.eq h

theorem skip_length_takeWhile (p : Char → Bool) (c : Cursor) : c.skip (c.rest.takeWhile p).length = c.skipWhile p := by
  rw [skip, skipWhile, take_length_takeWhile, drop_length_takeWhile]

theorem over_skipWhile (p : Char → Bool) (c : Cursor) : c.Over (c.rest.takeWhile p) (c.skipWhile p) :=
  ⟨List.takeWhile_append_dropWhile.symm, rfl⟩

theorem over_lineEnd (c : Cursor) : c.Over (Line.head c.rest) c.lineEnd := over_skipWhile _ c

/-- The next line lies beyond this one and its line feed, if there is one. -/
theorem over_nextLine (c : Cursor) :
    c.Over (Line.head c.rest ++ (Line.tail c.rest).take 1) c.nextLine :=
  (over_lineEnd c).trans (over_skip 1 c.lineEnd)

theorem offset_lt_nextLine {c : Cursor} (h : c.rest ≠ []) : c.offset < c.nextLine.offset := by
  refine (over_nextLine c).offset_lt ?_
  intro hnil
  have hrest := (over_nextLine c).rest
  have hlength := c.length_rest_nextLine_lt h
  rw [hnil, List.nil_append] at hrest
  rw [← hrest] at hlength
  exact Nat.lt_irrefl _ hlength

theorem skipWhile_skipWhile (p : Char → Bool) (c : Cursor) :
    (c.skipWhile p).skipWhile p = c.skipWhile p := by
  have hnone : (c.rest.dropWhile p).takeWhile p = [] := by
    rcases hrest : c.rest.dropWhile p with _ | ⟨x, rest⟩
    · rfl
    · have := List.head?_dropWhile_not p c.rest
      rw [hrest] at this
      exact List.takeWhile_cons_of_neg (by simpa using this)
  simp [skipWhile, hnone, List.dropWhile_idempotent, byteCount]

theorem nextLine_lineEnd (c : Cursor) : c.lineEnd.nextLine = c.nextLine := by
  rw [nextLine, nextLine, lineEnd, lineEnd, skipWhile_skipWhile]

/-- The stretch in front of a line with content ends with its indentation. -/
theorem over_toContent {c : Cursor} {l : Line.Next} (h : Line.nextContent? c.rest = some l) :
    ∃ blanks, (∀ x ∈ blanks, isLayout x = true) ∧
      c.Over (blanks ++ '\n' :: List.replicate l.indent ' ') (c.toContent l) := by
  obtain ⟨blanks, hrest, hlayout, hskipped, -⟩ := Line.nextContent?_eq_some h
  refine ⟨blanks, hlayout, by simp [hrest, toContent], ?_⟩
  have hnewline : ('\n' : Char).utf8Size = 1 := rfl
  simp only [toContent, Line.Next.distance, byteCount_append, byteCount, byteCount_replicate_space,
    hnewline]
  omega

/-- Behind a line feed, the first character of the next line with content begins its line, and so it is
one that goes on with the expression. -/
theorem continues_of_getLast {l : Line.Next} {blanks rest : List Char} {x : Char}
    (hcontinues : l.continuesExpression = true) (hx : l.content.dropWhile Line.isBlankChar = x :: rest)
    (hlast : (blanks ++ '\n' :: List.replicate l.indent ' ' ++ l.content.takeWhile Line.isBlankChar).getLast? =
      some '\n') : Line.continuesExpression x = true := by
  -- no blank stands behind the line feed, neither in the content nor as indentation
  have hnone : l.content.takeWhile Line.isBlankChar = [] := by
    by_contra hne
    rw [List.getLast?_append_of_ne_nil _ hne] at hlast
    have hblank : Line.isBlankChar '\n' = true := List.mem_takeWhile_imp (List.mem_of_getLast? hlast)
    simp [Line.isBlankChar] at hblank
  have hindent : l.indent = 0 := by
    by_contra hne
    obtain ⟨n, hn⟩ := Nat.exists_eq_succ_of_ne_zero hne
    rw [hnone, hn, List.append_nil, List.replicate_succ', ← List.cons_append, ← List.append_assoc,
      List.getLast?_concat] at hlast
    simp at hlast
  have hfirst : l.first = x := by
    have hsplit := List.takeWhile_append_dropWhile (p := Line.isBlankChar) (l := l.content)
    rw [hnone, List.nil_append, hx, Line.Next.content] at hsplit
    exact (List.cons.inj hsplit).1.symm
  simpa [Line.Next.continuesExpression, hindent, hfirst] using hcontinues

/-- On the same line an expression goes on past blanks. -/
theorem skipBlank?_of_cons {c : Cursor} {x : Char} {xs : List Char}
    (h : (c.skipWhile Line.isBlankChar).rest = x :: xs) (hx : x ≠ '\n') :
    c.skipBlank? = some (c.skipWhile Line.isBlankChar) := by
  unfold Cursor.skipBlank?
  simp only
  split
  · rename_i hnil
    rw [h] at hnil
    cases hnil
  · rename_i hbreak
    rw [h] at hbreak
    exact absurd (List.cons.inj hbreak).1 hx
  · rfl

/-- Where an expression goes on lies beyond layout. At a line start it is a sign that goes on with the
expression. -/
theorem over_skipBlank {c d : Cursor} (h : c.skipBlank? = some d) :
    ∃ gap x rest, (∀ y ∈ gap, isLayout y = true) ∧ c.Over gap d ∧ d.rest = x :: rest ∧
      isLayout x = false ∧ (gap.getLast? = some '\n' → Line.continuesExpression x = true) := by
  have hblanks : ∀ e : Cursor, ∀ x ∈ e.rest.takeWhile Line.isBlankChar, Line.isBlankChar x = true :=
    fun _ _ hx => List.mem_takeWhile_imp hx
  have hhere := over_skipWhile Line.isBlankChar c
  obtain ⟨rfl, hnil, hnewline⟩ | ⟨l, hl, hcontinues, rfl⟩ := skipBlank?_eq_some h
  · obtain ⟨x, rest, hx⟩ := List.exists_cons_of_ne_nil hnil
    refine ⟨_, x, rest, fun y hy => isLayout_of_isBlankChar (hblanks _ y hy), hhere, hx, ?_, ?_⟩
    · have hblank := List.head?_dropWhile_not Line.isBlankChar c.rest
      have hbreak : x ≠ '\n' := fun heq => hnewline rest (heq ▸ hx)
      rw [show c.rest.dropWhile Line.isBlankChar = x :: rest from hx] at hblank
      simpa [isLayout, hbreak] using hblank
    · -- the gap is blanks of one line, and a line feed is none
      intro hlast
      have := hblanks _ _ (List.mem_of_getLast? hlast)
      simp [Line.isBlankChar] at this
  · obtain ⟨blanks, hlayout, hcontent⟩ := over_toContent hl
    obtain ⟨-, -, -, -, -, hnotBlank⟩ := Line.nextContent?_eq_some hl
    obtain ⟨x, rest, hx, hxlayout⟩ := Line.dropWhile_isBlankChar hnotBlank
    have hskip := over_skipWhile Line.isBlankChar ((c.skipWhile Line.isBlankChar).toContent l)
    refine ⟨_, x, rest, ?_, (hhere.trans hcontent).trans hskip, hx, hxlayout, ?_⟩
    · intro y hy
      simp only [List.mem_append, List.mem_cons, List.mem_replicate] at hy
      rcases hy with (hy | hy | rfl | ⟨-, rfl⟩) | hy
      · exact isLayout_of_isBlankChar (hblanks _ y hy)
      · exact hlayout y hy
      · rfl
      · rfl
      · exact isLayout_of_isBlankChar (hblanks _ y hy)
    · intro hlast
      rw [← List.append_assoc] at hlast
      exact continues_of_getLast hcontinues hx hlast

/-- Where no expression goes on, nothing is left of the line. -/
theorem isBlank_of_skipBlank {c : Cursor} (h : c.skipBlank? = none) : Line.isBlank c.rest = true := by
  by_contra hblank
  obtain ⟨x, rest, hx, hlayout⟩ := Line.dropWhile_isBlankChar (Bool.eq_false_iff.2 hblank)
  have hbreak : x ≠ '\n' := by
    rintro rfl
    simp [isLayout] at hlayout
  simp [skipBlank?, skipWhile, hx, hbreak] at h

/-- Blank lines are layout. -/
theorem over_nextLine_of_isBlank {c : Cursor} (h : Line.isBlank c.rest = true) :
    ∃ gap, (∀ x ∈ gap, isLayout x = true) ∧ c.Over gap c.nextLine := by
  refine ⟨_, ?_, over_nextLine c⟩
  intro x hx
  rcases List.mem_append.1 hx with hx | hx
  · exact isLayout_of_isBlankChar (Line.isBlank_iff.1 h x hx)
  · rcases Line.tail_eq_nil_or c.rest with htail | ⟨rest, htail⟩
    · simp [htail] at hx
    · rw [htail] at hx
      simp only [List.take_succ_cons, List.take_zero, List.mem_singleton] at hx
      rw [hx]
      rfl

theorem over_skipBlankLines (c : Cursor) :
    ∃ gap, (∀ x ∈ gap, isLayout x = true) ∧ c.Over gap c.skipBlankLines := by
  fun_induction skipBlankLines c with
  | case1 c => exact ⟨[], by simp, Over.refl c⟩
  | case2 c _ _ _ hblank ih =>
    obtain ⟨gap₁, hgap₁, hover₁⟩ := over_nextLine_of_isBlank hblank
    obtain ⟨gap₂, hgap₂, hover₂⟩ := ih
    refine ⟨gap₁ ++ gap₂, ?_, hover₁.trans hover₂⟩
    intro x hx
    exact (List.mem_append.1 hx).elim (hgap₁ x) (hgap₂ x)
  | case3 c => exact ⟨[], by simp, Over.refl c⟩

/-- The source between two cursors that are reached from its start. -/
theorem Over.slice {source : String} {before text : List Char} {c d : Cursor}
    (h₁ : (ofChars source.toList).Over before c) (h₂ : c.Over text d) :
    (Source.ofString source).slice ⟨c.offset, d.offset⟩ = String.ofList text := by
  have hstart : c.offset = byteCount before := by simpa [ofChars] using h₁.offset
  have hchars : source.toList = before ++ c.rest := h₁.rest
  simp only [Source.slice, Source.ofString, hchars]
  rw [hstart, fromOffset?_append, h₂.offset, hstart, Nat.add_sub_cancel_left, h₂.rest]
  simp [takeBytes_append]

theorem Over.isBoundary {source text : List Char} {c : Cursor} (h : (ofChars source).Over text c) :
    isBoundary source c.offset = true := by
  have hstart : c.offset = byteCount text := by simpa [ofChars] using h.offset
  have hchars : source = text ++ c.rest := h.rest
  rw [Fluent.isBoundary, hstart, hchars, fromOffset?_append]
  rfl

end Cursor

end Fluent
