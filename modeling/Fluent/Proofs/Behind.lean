import Fluent.Proofs.Spelling
import Fluent.Token.Block

/-!
# What stands behind a line

A line is read as on its own where a text is cut at its end. Only two readings look further on: blank lines are
passed in search of a line that goes on with the entry, and blanks and line breaks in search of the colon behind
a name. So what is read of the text in front stays the same, or it is known what stands behind.

* `Ended u r`: nothing stands behind `r`, or `r` ends its line. `Headed u`: what stands behind is a header.
* `Ended.takeWhile`, `Ended.identifier?`, `Ended.scan`, ...: `u` changes nothing of what is read from `r`.
* `GoesOn u`, `ColonAhead u`: `u` begins with a line that may go on with an entry, or with a colon. Only then do
  `Ended.nextContent?` and `Ended.namedArgumentAhead` find something else with `u` behind the text.
* `Cursor.move k u`: a cursor in a text that stands `k` bytes further on and has `u` behind it.
* `Cursor.move_skipBlank?`, `Cursor.move_skipBlankLines`, ...: a moved cursor moves as the other does.
-/

namespace Fluent

/-- A character that the header of an entry can begin with. -/
def opensHeader (x : Char) : Bool := isIdentifierStart x || x == '-'

/-- Nothing stands behind a text, or the text ends its line. So what stands behind it never goes on with a line of the
text. -/
def Ended (u r : List Char) : Prop := u = [] ∨ r.getLast? = some '\n'

/-- A text is empty, or begins as a header does, at the start of its first line. No entry goes on with such a line. -/
def Headed (u : List Char) : Prop := u = [] ∨ ∃ x v, u = x :: v ∧ opensHeader x = true

/-- A text behind a line begins with a line that may belong to it: an indented one, or one that goes on with an
expression. -/
def GoesOn (u : List Char) : Prop :=
  ∃ l, Line.nextContent? ('\n' :: u) = some l ∧ (0 < l.indent ∨ Line.continuesExpression l.first = true)

/-- What may stand between the name of an argument and its colon. -/
def isGap (c : Char) : Bool := c == ' ' || c == '\r' || c == '\n'

/-- The look-ahead for a named argument finds the colon behind the name and the gap. -/
theorem namedArgumentAhead_eq (cs : List Char) :
    State.namedArgumentAhead cs = (((cs.dropWhile isIdentifierChar).dropWhile isGap).head? == some ':') := by
  have hgap : isGap = fun c => c == ' ' || c == '\r' || c == '\n' := rfl
  rw [State.namedArgumentAhead, hgap]
  split
  · rename_i heq
    simp [heq]
  · rename_i hnone
    symm
    rw [beq_eq_false_iff_ne]
    intro hhead
    obtain ⟨rest, hrest⟩ := List.head?_eq_some_iff.1 hhead
    exact hnone rest hrest

/-- A text begins with a colon, spaces and line breaks aside. Behind a name it makes the name that of an argument. -/
def ColonAhead (u : List Char) : Prop := ∃ v, u.dropWhile isGap = ':' :: v

/-- A line that begins as a header does is no comment and goes on with no expression, and its first character is neither
layout nor a colon: nothing that looks beyond the end of a text takes it in. -/
theorem opensHeader_spec {x : Char} (h : opensHeader x = true) :
    isLayout x = false ∧ x ≠ '#' ∧ x ≠ ':' ∧ Line.continuesExpression x = false := by
  refine ⟨?_, ?_, ?_, ?_⟩
  · by_contra hlayout
    simp only [Bool.not_eq_false, isLayout, Line.isBlankChar, Bool.or_eq_true, beq_iff_eq] at hlayout
    rcases hlayout with ((rfl | rfl) | rfl) | rfl <;> revert h <;> decide
  · rintro rfl
    revert h
    decide
  · rintro rfl
    revert h
    decide
  · by_contra hcontinues
    simp only [Bool.not_eq_false, Line.continuesExpression, Bool.or_eq_true, beq_iff_eq] at hcontinues
    rcases hcontinues with ((rfl | rfl) | rfl) | rfl <;> revert h <;> decide

/-- The line of a header is not blank, and it is not indented. -/
theorem Line.header_spec {x : Char} {v : List Char} (hx : opensHeader x = true) :
    isBlank (x :: v) = false ∧ (x :: v).dropWhile (· == ' ') = x :: v ∧ indent (x :: v) = 0 := by
  obtain ⟨hlayout, -⟩ := opensHeader_spec hx
  simp only [isLayout, isBlankChar, Bool.or_eq_false_iff, beq_eq_false_iff_ne] at hlayout
  obtain ⟨⟨⟨hspace, htab⟩, hreturn⟩, hbreak⟩ := hlayout
  refine ⟨?_, ?_, ?_⟩
  · simp [isBlank, head, hbreak, isBlankChar, hspace, htab, hreturn]
  · simp [hspace]
  · simp [indent, hspace]

namespace Headed

variable {u : List Char}

/-- A header goes on with no entry in front of it. -/
theorem not_goesOn (h : Headed u) : ¬ GoesOn u := by
  rintro ⟨l, hl, hgoes⟩
  rcases h with rfl | ⟨x, v, rfl, hx⟩
  · rw [Line.nextContent?, if_pos (by rfl)] at hl
    simp [Line.tail, Line.nextContent?] at hl
  · obtain ⟨hblank, hdrop, hindent⟩ := Line.header_spec (v := v) hx
    obtain ⟨-, -, -, hcontinues⟩ := opensHeader_spec hx
    rw [Line.nextContent?, hblank, hdrop] at hl
    obtain rfl := Option.some.inj hl
    simp [hindent, hcontinues] at hgoes

/-- No header begins with the colon behind a name. -/
theorem not_colonAhead (h : Headed u) : ¬ ColonAhead u := by
  rintro ⟨w, hw⟩
  rcases h with rfl | ⟨x, v, rfl, hx⟩
  · simp at hw
  · obtain ⟨hlayout, -, hcolon, -⟩ := opensHeader_spec hx
    simp only [isLayout, Line.isBlankChar, Bool.or_eq_false_iff, beq_eq_false_iff_ne] at hlayout
    obtain ⟨⟨⟨hspace, -⟩, hreturn⟩, hbreak⟩ := hlayout
    have hgap : isGap x = false := by simp [isGap, hspace, hreturn, hbreak]
    rw [List.dropWhile_cons_of_neg (by simp [hgap])] at hw
    exact hcolon (List.cons.inj hw).1

end Headed

namespace Ended

variable {u r xs : List Char} {p : Char → Bool}

theorem nil (r : List Char) : Ended [] r := .inl rfl

theorem of_append (h : Ended u (xs ++ r)) (hr : r ≠ []) : Ended u r :=
  h.imp_right fun hlast => by rwa [List.getLast?_append_of_ne_nil _ hr] at hlast

/-- What is left behind a part of a line is not all of it. -/
theorem of_append_notMem (h : Ended u (xs ++ r)) (hxs : '\n' ∉ xs) : Ended u r := by
  by_cases hr : r = []
  · rcases h with rfl | hlast
    · exact .nil r
    · rw [hr, List.append_nil] at hlast
      exact absurd (List.mem_of_getLast? hlast) hxs
  · exact h.of_append hr

theorem tail {x : Char} (h : Ended u (x :: xs)) (hx : x ≠ '\n') : Ended u xs :=
  of_append_notMem (show Ended u ([x] ++ xs) from h) (by simpa using hx.symm)

theorem takeWhile (h : Ended u r) (hp : p '\n' = false) : (r ++ u).takeWhile p = r.takeWhile p := by
  rcases h with rfl | hlast
  · rw [List.append_nil]
  · rw [List.takeWhile_append, if_neg]
    intro hlength
    have hall := List.takeWhile_eq_self_iff.1 ((List.takeWhile_prefix p).eq_of_length hlength)
    simpa [hp] using hall '\n' (List.mem_of_getLast? hlast)

theorem dropWhile (h : Ended u r) (hp : p '\n' = false) : (r ++ u).dropWhile p = r.dropWhile p ++ u := by
  have hboth := List.takeWhile_append_dropWhile (p := p) (l := r ++ u)
  rw [h.takeWhile hp] at hboth
  conv_rhs at hboth => rw [← List.takeWhile_append_dropWhile (p := p) (l := r), List.append_assoc]
  exact List.append_cancel_left hboth

theorem of_dropWhile (h : Ended u r) (hp : p '\n' = false) : Ended u (r.dropWhile p) := by
  rw [← List.takeWhile_append_dropWhile (p := p) (l := r)] at h
  apply h.of_append_notMem
  intro hmem
  simpa [hp] using List.mem_takeWhile_imp hmem

theorem head (h : Ended u r) : Line.head (r ++ u) = Line.head r := h.takeWhile rfl

theorem lineTail (h : Ended u r) : Line.tail (r ++ u) = Line.tail r ++ u := h.dropWhile rfl

theorem isBlank (h : Ended u r) : Line.isBlank (r ++ u) = Line.isBlank r := by
  rw [Line.isBlank, Line.isBlank, h.head]

theorem indent (h : Ended u r) : Line.indent (r ++ u) = Line.indent r := by
  rw [Line.indent, Line.indent, h.takeWhile rfl]

end Ended

/-- The same line in a text with more behind it. -/
def Line.Next.extend (u : List Char) (l : Next) : Next := { l with after := l.after ++ u }

/-- The content of a line that is found from a line feed on lies behind it. -/
theorem Line.content_suffix {u : List Char} {l : Next} (h : nextContent? ('\n' :: u) = some l) :
    l.content <:+ u := by
  obtain ⟨blanks, hu, -⟩ := nextContent?_eq_some h
  cases blanks with
  | nil => exact ⟨List.replicate l.indent ' ', (List.cons.inj hu).2.symm⟩
  | cons y ys => exact ⟨ys ++ '\n' :: List.replicate l.indent ' ', by simp [(List.cons.inj hu).2]⟩

namespace Ended

variable {u r : List Char}

/-- The next line with content is the same, or it begins behind the text: then that goes on with the entry if the
line does. -/
theorem nextContent? (h : Ended u r) :
    Line.nextContent? (r ++ u) = (Line.nextContent? r).map (.extend u) ∨
      Line.nextContent? r = none ∧ ∃ l, Line.nextContent? (r ++ u) = some l ∧ l.content <:+ u ∧
        (0 < l.indent ∨ Line.continuesExpression l.first = true → GoesOn u) := by
  rcases h with rfl | hlast
  · left
    rw [List.append_nil]
    cases hnext : Line.nextContent? r with
    | none => rfl
    | some l => simp [Line.Next.extend]
  fun_induction Line.nextContent? r with
  | case1 line hline ih =>
    by_cases hnil : line = []
    · -- behind the last line feed the text behind it begins
      subst hnil
      have hnone : Line.nextContent? (Line.tail []) = none := by simp [Line.tail, Line.nextContent?]
      rw [hnone, List.cons_append, List.nil_append]
      cases hnext : Line.nextContent? ('\n' :: u) with
      | none => exact .inl rfl
      | some l =>
        right
        have hsuffix := Line.content_suffix hnext
        refine ⟨rfl, l, rfl, hsuffix, ?_⟩
        intro hgoes
        exact ⟨l, hnext, hgoes⟩
    · have hended : Ended u line := of_append (show Ended u (['\n'] ++ line) from .inr hlast) hnil
      by_cases hu : u = []
      · left
        subst hu
        rw [List.append_nil, Line.nextContent?, if_pos hline]
        cases Line.nextContent? (Line.tail line) with
        | none => rfl
        | some l => simp [Line.Next.extend]
      have htail := (hended.of_dropWhile (p := (· != '\n')) rfl).resolve_left hu
      rw [List.cons_append, Line.nextContent?, hended.isBlank, if_pos hline, hended.lineTail, hended.head]
      rcases ih htail with hsame | ⟨hnone, l, hl, hcontent, hgoes⟩
      · left
        rw [hsame, Option.map_map, Option.map_map]
        rfl
      · right
        rw [hnone, hl]
        exact ⟨rfl, _, rfl, hcontent, hgoes⟩
  | case2 line hline hspaces =>
    -- a line that is not blank is not spaces only
    have hnil : line ≠ [] := by
      rintro rfl
      simp [Line.isBlank, Line.head] at hline
    rw [List.getLast?_cons_of_ne_nil hnil] at hlast
    have := List.dropWhile_eq_nil_iff.1 hspaces '\n' (List.mem_of_getLast? hlast)
    simp at this
  | case3 line hline c after hafter =>
    left
    have hnil : line ≠ [] := by
      rintro rfl
      simp [Line.isBlank, Line.head] at hline
    have hended : Ended u line := of_append (show Ended u (['\n'] ++ line) from .inr hlast) hnil
    rw [List.cons_append, Line.nextContent?, hended.isBlank, if_neg hline, hended.dropWhile rfl, hafter,
      hended.indent]
    rfl
  | case4 r hr =>
    left
    obtain ⟨y, ys, rfl⟩ := List.exists_cons_of_ne_nil (List.ne_nil_of_mem (List.mem_of_getLast? hlast))
    have hbreak : y ≠ '\n' := fun heq => hr ys (by rw [heq])
    rw [List.cons_append, Line.nextContent?.eq_2 _ (by simpa using hbreak)]
    rfl

/-- A line of the same text is no content of its own: what is behind it stays there. -/
theorem of_nextContent? (h : Ended u r) {l : Line.Next} (hl : Line.nextContent? r = some l) :
    Ended u l.content := by
  obtain ⟨blanks, hr, -⟩ := Line.nextContent?_eq_some hl
  rw [hr, ← List.cons_append, ← List.append_assoc] at h
  exact h.of_append (List.cons_ne_nil _ _)

theorem commentLevel? (h : Ended u r) : Line.commentLevel? (r ++ u) = Line.commentLevel? r := by
  have hrest := h.of_dropWhile (p := (· == '#')) rfl
  unfold Line.commentLevel?
  rw [h.takeWhile rfl, h.dropWhile rfl]
  rcases hrest with rfl | hlast
  · rw [List.append_nil]
  · -- what follows the hashes ends with a line feed, so the character after them is there already
    generalize r.dropWhile (· == '#') = rest at hlast
    obtain ⟨y, ys, rfl⟩ := List.exists_cons_of_ne_nil (List.ne_nil_of_mem (List.mem_of_getLast? hlast))
    cases hlevel : CommentLevel.ofHashes? (r.takeWhile (· == '#')).length with
    | none => rfl
    | some level =>
      rw [List.cons_append]
      by_cases hreturn : y = '\r'
      · subst hreturn
        cases ys with
        | nil => simp at hlast
        | cons z zs => by_cases hz : z = '\n' <;> simp [hz]
      · by_cases hspace : y = ' '
        · simp [hspace]
        · by_cases hbreak : y = '\n' <;> simp [hbreak, hspace, hreturn]

theorem identifier? (h : Ended u r) :
    Fluent.identifier? (r ++ u) = (Fluent.identifier? r).map fun a => (a.1, a.2 ++ u) := by
  cases r with
  | nil =>
    rcases h with rfl | hlast
    · rfl
    · simp at hlast
  | cons y ys =>
    rw [List.cons_append, Fluent.identifier?, Fluent.identifier?]
    split
    · rename_i hy
      have hrest := h.tail (identifierStart_ne_newline hy)
      rw [hrest.takeWhile rfl, hrest.dropWhile rfl]
      rfl
    · rfl

end Ended

/-- The same header in a text with more behind it. -/
def Line.Assignment.extend (u : List Char) (a : Assignment) : Assignment := { a with rest := a.rest ++ u }

namespace Ended

variable {u r : List Char}

theorem of_identifier? (h : Ended u r) {name after : List Char}
    (hname : Fluent.identifier? r = some (name, after)) : Ended u after := by
  unfold Fluent.identifier? at hname
  split at hname
  · simp at hname
  · rename_i y ys
    split at hname
    · rename_i hy
      obtain ⟨-, rfl⟩ := Prod.mk.inj (Option.some.inj hname)
      exact (h.tail (identifierStart_ne_newline hy)).of_dropWhile rfl
    · simp at hname

theorem assignment? (h : Ended u r) :
    Line.assignment? (r ++ u) = (Line.assignment? r).map (.extend u) := by
  unfold Line.assignment?
  rw [h.identifier?]
  cases hname : Fluent.identifier? r with
  | none => rfl
  | some a =>
    obtain ⟨name, after⟩ := a
    have hafter := h.of_identifier? hname
    simp only [Option.map_some, Option.bind_eq_bind, Option.bind_some]
    rw [hafter.dropWhile rfl, hafter.indent]
    have hrest := hafter.of_dropWhile (p := (· == ' ')) rfl
    generalize after.dropWhile (· == ' ') = rest at hrest
    cases rest with
    | nil =>
      rcases hrest with rfl | hlast
      · rfl
      · simp at hlast
    | cons y ys =>
      rw [List.cons_append]
      by_cases hequals : y = '='
      · subst hequals
        rfl
      · simp [hequals]

/-- Where a text is at its end, nothing is behind it. -/
theorem eq_nil (h : Ended u []) : u = [] := by
  rcases h with rfl | hlast
  · rfl
  · simp at hlast

theorem attributeHeader? (h : Ended u r) :
    Line.attributeHeader? (r ++ u) = (Line.attributeHeader? r).map (.extend u) := by
  cases r with
  | nil => rw [h.eq_nil]; rfl
  | cons y ys =>
    rw [List.cons_append]
    by_cases hdot : y = '.'
    · subst hdot
      exact (h.tail (by decide)).assignment?
    · simp [Line.attributeHeader?, hdot]

/-- A header is read alike with more text behind its line: only what is left behind the sign is longer. -/
theorem entryHeader? (h : Ended u r) :
    Line.entryHeader? (r ++ u) = (Line.entryHeader? r).map fun a => (a.1, a.2.extend u) := by
  cases r with
  | nil => rw [h.eq_nil]; rfl
  | cons y ys =>
    rw [List.cons_append]
    by_cases hminus : y = '-'
    · subst hminus
      simp only [Line.entryHeader?]
      rw [(h.tail (by decide)).assignment?, Option.map_map, Option.map_map]
      rfl
    · rw [Line.entryHeader?.eq_2 _ (by simpa using hminus), Line.entryHeader?.eq_2 _ (by simpa using hminus),
        ← List.cons_append, h.assignment?, Option.map_map, Option.map_map]
      rfl

/-- The end of a string literal is looked for on its own line, so what stands behind the line has no part in it. -/
theorem stringBody (h : Ended u r) :
    Fluent.stringBody (r ++ u) = ((Fluent.stringBody r).1, (Fluent.stringBody r).2 ++ u) := by
  fun_induction Fluent.stringBody r with
  | case1 => rw [h.eq_nil]; rfl
  | case2 => simp [Fluent.stringBody]
  | case3 => simp [Fluent.stringBody]
  | case4 => rw [(h.tail (by decide)).eq_nil]; rfl
  | case5 => simp [Fluent.stringBody]
  | case6 c cs hc body rest hbody ih =>
    have hrest := ih ((h.tail (by decide)).tail hc)
    rw [hbody] at hrest
    simp [Fluent.stringBody, hc, hrest]
  | case7 c cs hquote hbreak hlone hpair body rest hbody ih =>
    have hslash : c ≠ '\\' := by
      intro hc
      cases cs with
      | nil => exact hlone hc rfl
      | cons d ds => exact hpair d ds hc rfl
    have hrest := ih (h.tail hbreak)
    rw [hbody] at hrest
    rw [List.cons_append, Fluent.stringBody, hrest]
    · exact hquote
    · exact hbreak
    · exact fun hc => absurd hc hslash
    · exact fun _ _ hc => absurd hc hslash

theorem digits (h : Ended u r) : Fluent.digits (r ++ u) = Fluent.digits r := by
  have hrest := h.of_dropWhile (p := Char.isDigit) rfl
  unfold Fluent.digits
  rw [h.takeWhile rfl, h.dropWhile rfl]
  generalize r.dropWhile Char.isDigit = rest at hrest
  cases rest with
  | nil => rw [hrest.eq_nil]; rfl
  | cons y ys =>
    rw [List.cons_append]
    by_cases hdot : y = '.'
    · subst hdot
      simp only
      rw [(hrest.tail (by decide)).takeWhile rfl]
    · simp [hdot]

/-- A token is scanned alike with more text behind, since no token reaches over the end of its line. -/
theorem scan {c : Char} {cs : List Char} (h : Ended u (c :: cs)) (hc : c ≠ '\n') :
    Token.scan c (cs ++ u) = Token.scan c cs := by
  have hrest := h.tail hc
  unfold Token.scan
  rw [hrest.takeWhile rfl, ← List.cons_append, h.digits, hrest.stringBody, hrest.digits]
  split
  · rfl
  split
  · rfl
  split
  · have hbody := stringBody_spec cs
    generalize Fluent.stringBody cs = parts at hbody
    obtain ⟨body, rest⟩ := parts
    obtain ⟨rfl, hmem⟩ := hbody
    -- the body of a string stays on its line, and so does its closing quote
    cases rest with
    | nil => rw [(hrest.of_append_notMem hmem).eq_nil, List.append_nil]
    | cons y ys => by_cases hquote : y = '"' <;> simp [hquote]
  split
  · cases cs with
    | nil => rw [hrest.eq_nil]; rfl
    | cons d ds => by_cases hangle : d = '>' <;> simp [hangle]
  · rfl

/-- The colon behind a name is found alike, unless only spaces and line breaks follow the name: then it may be
found behind the text, where the text alone has none. -/
theorem namedArgumentAhead (h : Ended u r) :
    State.namedArgumentAhead (r ++ u) = State.namedArgumentAhead r ∨
      State.namedArgumentAhead (r ++ u) = true ∧ State.namedArgumentAhead r = false ∧ ColonAhead u ∧
        ∀ y ∈ r.dropWhile isIdentifierChar, isGap y = true := by
  rw [namedArgumentAhead_eq, namedArgumentAhead_eq, h.dropWhile rfl, List.dropWhile_append]
  cases hgap : (r.dropWhile isIdentifierChar).dropWhile isGap with
  | cons y ys => exact .inl rfl
  | nil =>
    simp only [List.isEmpty_nil, if_true]
    by_cases hcolon : (u.dropWhile isGap).head? = some ':'
    · right
      exact ⟨by simp [hcolon], rfl, List.head?_eq_some_iff.1 hcolon, List.dropWhile_eq_nil_iff.1 hgap⟩
    · exact .inl (by simpa using hcolon)

end Ended

/-! ## Moved cursors -/

/-- The cursor in a text that stands `k` bytes further on and has `u` behind it. -/
def Cursor.move (k : Nat) (u : List Char) (c : Cursor) : Cursor := ⟨c.offset + k, c.rest ++ u⟩

namespace Cursor

variable {k n : Nat} {u : List Char} {c : Cursor} {p : Char → Bool}

theorem ended_skip (h : Ended u c.rest) (hn : '\n' ∉ c.rest.take n) : Ended u (c.skip n).rest := by
  rw [← List.take_append_drop n c.rest] at h
  exact h.of_append_notMem hn

/-- A moved cursor skips the same bytes, so long as none of them is a line feed. -/
theorem move_skip (h : Ended u c.rest) (hn : '\n' ∉ c.rest.take n) :
    (c.move k u).skip n = (c.skip n).move k u := by
  -- skipping more than there is passes the line feed at the end
  have hlength : n ≤ c.rest.length ∨ u = [] := by
    by_contra hcon
    push Not at hcon
    rw [List.take_of_length_le (Nat.le_of_lt hcon.1)] at hn
    exact hn (List.mem_of_getLast? (h.resolve_left hcon.2))
  rcases hlength with hlength | rfl
  · simp only [skip, move, List.take_append_of_le_length hlength, List.drop_append_of_le_length hlength,
      Nat.add_right_comm]
  · simp only [skip, move, List.append_nil, Nat.add_right_comm]

theorem ended_skipWhile (h : Ended u c.rest) (hp : p '\n' = false) : Ended u (c.skipWhile p).rest :=
  h.of_dropWhile hp

theorem move_skipWhile (h : Ended u c.rest) (hp : p '\n' = false) :
    (c.move k u).skipWhile p = (c.skipWhile p).move k u := by
  simp only [skipWhile, move, h.takeWhile hp, h.dropWhile hp, Nat.add_right_comm]

theorem ended_lineEnd (h : Ended u c.rest) : Ended u c.lineEnd.rest := ended_skipWhile h rfl

theorem move_lineEnd (h : Ended u c.rest) : (c.move k u).lineEnd = c.lineEnd.move k u := move_skipWhile h rfl

theorem ended_nextLine (h : Ended u c.rest) : c.nextLine.rest = [] ∨ Ended u c.nextLine.rest := by
  by_cases hnil : c.nextLine.rest = []
  · exact .inl hnil
  · have hend := ended_lineEnd h
    rw [← List.take_append_drop 1 c.lineEnd.rest] at hend
    exact .inr (hend.of_append hnil)

/-- The next line of a moved cursor is the next line, moved. At the last line of the text both are at its end. -/
theorem move_nextLine (h : Ended u c.rest) : (c.move k u).nextLine = c.nextLine.move k u := by
  have hend := ended_lineEnd h
  rw [nextLine, move_lineEnd h, nextLine]
  rcases Line.tail_eq_nil_or c.rest with htail | ⟨rest, htail⟩
  · have hnil : c.lineEnd.rest = [] := htail
    rw [hnil] at hend
    rw [hend.eq_nil]
    simp [move, skip, Nat.add_right_comm]
  · have hcons : c.lineEnd.rest = '\n' :: rest := htail
    simp [move, skip, hcons, Nat.add_right_comm]

theorem move_toContent (c : Cursor) (l : Line.Next) :
    (c.move k u).toContent (l.extend u) = (c.toContent l).move k u := by
  simp only [move, toContent, Line.Next.extend, Line.Next.distance, Line.Next.content, List.cons_append,
    Nat.add_right_comm]

theorem ended_toContent (h : Ended u c.rest) {l : Line.Next} (hl : Line.nextContent? c.rest = some l) :
    Ended u (c.toContent l).rest := h.of_nextContent? hl

theorem ended_skipBlank? (h : Ended u c.rest) {d : Cursor} (hd : c.skipBlank? = some d) :
    Ended u d.rest := by
  obtain ⟨gap, x, rest, -, hover, hrest, -⟩ := over_skipBlank hd
  rw [hover.rest] at h
  exact h.of_append (by simp [hrest])

/-- An expression goes on where it did, or behind the text. -/
theorem move_skipBlank? (h : Ended u c.rest) :
    (c.move k u).skipBlank? = c.skipBlank?.map (move k u) ∨
      GoesOn u ∧ ∃ d, (c.move k u).skipBlank? = some d ∧ d.rest <:+ u := by
  have hhere := ended_skipWhile (p := Line.isBlankChar) h rfl
  unfold skipBlank?
  rw [move_skipWhile h rfl]
  generalize c.skipWhile Line.isBlankChar = here at hhere
  obtain ⟨offset, rest⟩ := here
  simp only [move]
  cases rest with
  | nil => rw [hhere.eq_nil]; exact .inl rfl
  | cons y ys =>
    by_cases hbreak : y = '\n'
    · subst hbreak
      rw [List.cons_append]
      simp only
      rw [← List.cons_append]
      -- the next line with content is the same one, or the first such line of the text behind
      rcases hhere.nextContent? with hsame | ⟨hnone, l, hl, hcontent, hgoes⟩
      · left
        simp only at hsame
        rw [hsame]
        cases hl : Line.nextContent? ('\n' :: ys) with
        | none => rfl
        | some l =>
          have hcontent := ended_toContent (c := ⟨offset, '\n' :: ys⟩) hhere hl
          have hskip := move_skipWhile (p := Line.isBlankChar) (k := k) hcontent rfl
          rw [← move_toContent] at hskip
          show (if l.continuesExpression = true then
            some ((((⟨offset, '\n' :: ys⟩ : Cursor).move k u).toContent (l.extend u)).skipWhile
              Line.isBlankChar)
            else none) = _
          rw [hskip]
          by_cases hcontinues : l.continuesExpression = true <;> simp [hcontinues]
      · simp only at hnone hl
        rw [hnone, hl]
        simp only
        by_cases hcontinues : l.continuesExpression = true
        · right
          rw [if_pos hcontinues]
          refine ⟨hgoes ?_, _, rfl, (List.dropWhile_suffix _).trans hcontent⟩
          simpa [Line.Next.continuesExpression] using hcontinues
        · left
          rw [if_neg hcontinues]
          rfl
    · left
      simp [hbreak, move]

theorem skipBlankLines_of_ne_nil (h : c.rest ≠ []) :
    c.skipBlankLines = if Line.isBlank c.rest then c.nextLine.skipBlankLines else c := by
  rw [skipBlankLines]
  split
  · contradiction
  · rfl

/-- Blank lines end at a header, as they end with the text. -/
theorem move_skipBlankLines (hu : Headed u)
    (h : c.rest = [] ∨ Ended u c.rest) : (c.move k u).skipBlankLines = c.skipBlankLines.move k u := by
  fun_induction skipBlankLines c with
  | case1 c hnil =>
    obtain ⟨offset, rest⟩ := c
    obtain rfl : rest = [] := hnil
    rcases hu with rfl | ⟨x, v, rfl, hx⟩
    · simp [skipBlankLines, move]
    · obtain ⟨hblank, -, -⟩ := Line.header_spec (v := v) hx
      rw [skipBlankLines_of_ne_nil (by simp [move]), if_neg (by simp [move, hblank])]
  | case2 c y ys hcons hblank ih =>
    have hended := h.resolve_left (by simp [hcons])
    rw [skipBlankLines_of_ne_nil (by simp [move, hcons]), move_nextLine hended, ih (ended_nextLine hended)]
    exact if_pos (hended.isBlank.trans hblank)
  | case3 c y ys hcons hblank =>
    have hended := h.resolve_left (by simp [hcons])
    rw [skipBlankLines_of_ne_nil (by simp [move, hcons])]
    exact if_neg fun hmoved => hblank (hended.isBlank.symm.trans hmoved)

/-- Behind blank lines a text still ends its line, or nothing of it is left. -/
theorem ended_skipBlankLines (h : c.rest = [] ∨ Ended u c.rest) :
    c.skipBlankLines.rest = [] ∨ Ended u c.skipBlankLines.rest := by
  fun_induction skipBlankLines c with
  | case1 c hnil => exact .inl hnil
  | case2 c _ _ hcons _ ih => exact ih (ended_nextLine (h.resolve_left (by simp [hcons])))
  | case3 c => exact h

end Cursor

end Fluent
