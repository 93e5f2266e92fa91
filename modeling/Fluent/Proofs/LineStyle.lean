import Fluent.Proofs.Blocks
import Fluent.Proofs.Trimmed

/-!
# Lines in another style

The same lines may be written with more spaces in front of those that are indented, and with a carriage return
before each line feed. What the scanning functions see of a line is the same in any style, or differs by just that.

* `LineStyle.line`, `LineStyle.inner`: a text in another style, from a line start or from the middle of a line on.
* `LineStyle.Near`: the texts behind two cursors, which may have passed a carriage return or not.
* `LineStyle.nextContent?_settled`: the next line with content has the same content, and more spaces before it.
* `LineStyle.scan_inner`: the next token is the same, unless it is a string that is not closed.
* `LineStyle.entryHeader?_line`, `LineStyle.commentLevel?_line`: a line opens in the same way.
-/

namespace Fluent

/-- How lines are written: with so many spaces more in front of those that are indented, and with carriage returns
before the line feeds or not. -/
structure LineStyle where
  spaces : Nat
  returns : Bool

namespace LineStyle

/-- What stands before a line feed. -/
def ending (y : LineStyle) : List Char := if y.returns then ['\r'] else []

/-- What stands before a line: nothing if it is blank or does not begin with a space. -/
def lead (y : LineStyle) (cs : List Char) : List Char :=
  if !Line.isBlank cs && cs.head? == some ' ' then List.replicate y.spaces ' ' else []

/-- A text in this style that begins in the middle of a line. -/
def inner (y : LineStyle) : List Char → List Char
  | [] => []
  | c :: cs => if c = '\n' then y.ending ++ '\n' :: (y.lead cs ++ y.inner cs) else c :: y.inner cs

/-- A text in this style that begins at a line start. -/
def line (y : LineStyle) (cs : List Char) : List Char := y.lead cs ++ y.inner cs

/-- A text in this style that begins in the middle of a line, behind the carriage return if there is one. -/
def settled (y : LineStyle) : List Char → List Char
  | '\n' :: cs => '\n' :: y.line cs
  | cs => y.inner cs

/-- The carriage returns of this style are the only ones. A text that had some of its own could not be told from one
with those of the style. -/
def Fits (y : LineStyle) (cs : List Char) : Prop := y.returns = true → '\r' ∉ cs

/-- A text, and the same in this style; a carriage return at its front may be passed. -/
def Near (y : LineStyle) (cs cs' : List Char) : Prop := cs' = y.inner cs ∨ cs' = y.settled cs

variable {y : LineStyle} {cs cs' xs : List Char} {c : Char} {p : Char → Bool}

/-- A style puts a carriage return in front of each line feed, or it puts nothing there. -/
theorem ending_eq (y : LineStyle) : (y.returns = false ∧ y.ending = []) ∨ (y.returns = true ∧ y.ending = ['\r']) := by
  unfold ending
  cases y.returns with
  | false => exact .inl ⟨rfl, rfl⟩
  | true => exact .inr ⟨rfl, rfl⟩

/-- A style puts spaces in front of a line only where the line has content and is indented already. -/
theorem lead_eq (y : LineStyle) (cs : List Char) :
    y.lead cs = [] ∨ Line.isBlank cs = false ∧ (∃ t, cs = ' ' :: t) ∧ y.lead cs = List.replicate y.spaces ' ' := by
  unfold lead
  split
  · rename_i h
    obtain ⟨hblank, hspace⟩ : Line.isBlank cs = false ∧ cs.head? = some ' ' := by simpa using h
    exact .inr ⟨hblank, ⟨_, List.eq_cons_of_mem_head? hspace⟩, rfl⟩
  · exact .inl rfl

theorem forall_mem_lead : ∀ c ∈ y.lead cs, c = ' ' := by
  rcases y.lead_eq cs with h | ⟨-, -, h⟩
  · simp [h]
  · rw [h]
    exact fun c hc => List.eq_of_mem_replicate hc

theorem lead_of_ne (h : ∀ t, cs ≠ ' ' :: t) : y.lead cs = [] := by
  rcases y.lead_eq cs with hlead | ⟨-, ⟨t, ht⟩, -⟩
  · exact hlead
  · exact absurd ht (h t)

theorem lead_of_isBlank (h : Line.isBlank cs = true) : y.lead cs = [] := by
  rw [lead, h]
  rfl

@[simp] theorem inner_nil : y.inner [] = [] := rfl

theorem inner_newline : y.inner ('\n' :: cs) = y.ending ++ '\n' :: y.line cs := by
  rw [inner, if_pos rfl, line]

theorem inner_cons (h : c ≠ '\n') : y.inner (c :: cs) = c :: y.inner cs := by
  rw [inner, if_neg h]

theorem inner_append (h : '\n' ∉ xs) : y.inner (xs ++ cs) = xs ++ y.inner cs := by
  induction xs with
  | nil => rfl
  | cons x xs ih =>
    rw [List.mem_cons, not_or] at h
    rw [List.cons_append, inner_cons (Ne.symm h.1), ih h.2, List.cons_append]

@[simp] theorem settled_newline : y.settled ('\n' :: cs) = '\n' :: y.line cs := rfl

theorem settled_of_ne (h : ∀ t, cs ≠ '\n' :: t) : y.settled cs = y.inner cs := by
  unfold settled
  split
  · exact absurd rfl (h _)
  · rfl

@[simp] theorem line_nil : y.line [] = [] := rfl

theorem Fits.of_returns (h : y.returns = false) : y.Fits cs := by
  intro hreturns
  rw [h] at hreturns
  cases hreturns

theorem Fits.suffix (h : y.Fits cs) (hsuffix : xs <:+ cs) : y.Fits xs := fun hy hr => h hy (hsuffix.mem hr)

/-! ## Runs of characters -/

/-- A run of characters that neither a line feed nor a carriage return is among is the same in every style. -/
theorem takeWhile_inner (hbreak : p '\n' = false) (hreturn : p '\r' = false) (cs : List Char) :
    (y.inner cs).takeWhile p = cs.takeWhile p := by
  induction cs with
  | nil => rfl
  | cons c cs ih =>
    by_cases hc : c = '\n'
    · subst hc
      rw [inner_newline, List.takeWhile_cons_of_neg (by simp [hbreak])]
      rcases y.ending_eq with ⟨-, he⟩ | ⟨-, he⟩ <;> simp [he, hbreak, hreturn]
    · rw [inner_cons hc, List.takeWhile_cons, List.takeWhile_cons, ih]

theorem dropWhile_inner (hbreak : p '\n' = false) (hreturn : p '\r' = false) (cs : List Char) :
    (y.inner cs).dropWhile p = y.inner (cs.dropWhile p) := by
  induction cs with
  | nil => rfl
  | cons c cs ih =>
    by_cases hc : c = '\n'
    · subst hc
      rw [List.dropWhile_cons_of_neg (by simp [hbreak]), inner_newline]
      rcases y.ending_eq with ⟨-, he⟩ | ⟨-, he⟩ <;> simp [he, hbreak, hreturn]
    · rw [inner_cons hc, List.dropWhile_cons, List.dropWhile_cons, ih]
      split
      · rfl
      · rw [inner_cons hc]

/-- A run that passes carriage returns also passes that of its line. -/
theorem dropWhile_inner_return (hbreak : p '\n' = false) (hreturn : p '\r' = true) (cs : List Char) :
    (y.inner cs).dropWhile p = y.settled (cs.dropWhile p) := by
  induction cs with
  | nil => rfl
  | cons c cs ih =>
    by_cases hc : c = '\n'
    · subst hc
      rw [List.dropWhile_cons_of_neg (by simp [hbreak]), inner_newline, settled_newline]
      rcases y.ending_eq with ⟨-, he⟩ | ⟨-, he⟩ <;> simp [he, hbreak, hreturn]
    · rw [inner_cons hc, List.dropWhile_cons, List.dropWhile_cons, ih]
      split
      · rfl
      · rw [settled_of_ne (fun t ht => hc (List.cons.inj ht).1), inner_cons hc]

/-- A run of characters that may hold carriage returns takes in the one of the style as well, where it goes up to the
end of its line. -/
theorem takeWhile_inner_return (hbreak : p '\n' = false) (hreturn : p '\r' = true) (cs : List Char) :
    (y.inner cs).takeWhile p = cs.takeWhile p ∨
      y.returns = true ∧ (y.inner cs).takeWhile p = cs.takeWhile p ++ ['\r'] ∧ ∃ t, cs.dropWhile p = '\n' :: t := by
  induction cs with
  | nil => exact .inl rfl
  | cons c cs ih =>
    by_cases hc : c = '\n'
    · subst hc
      rw [List.takeWhile_cons_of_neg (by simp [hbreak]), List.dropWhile_cons_of_neg (by simp [hbreak]), inner_newline]
      rcases y.ending_eq with ⟨-, he⟩ | ⟨hy, he⟩
      · exact .inl (by simp [he, hbreak])
      · exact .inr ⟨hy, by simp [he, hbreak, hreturn], cs, rfl⟩
    · rw [inner_cons hc, List.takeWhile_cons, List.takeWhile_cons, List.dropWhile_cons]
      split
      · rcases ih with ih | ⟨hy, ih, hdrop⟩
        · exact .inl (by rw [ih])
        · exact .inr ⟨hy, by rw [ih, List.cons_append], hdrop⟩
      · exact .inl rfl

namespace Near

theorem inner (cs : List Char) : y.Near cs (y.inner cs) := .inl rfl

theorem settled (cs : List Char) : y.Near cs (y.settled cs) := .inr rfl

/-- There is no carriage return in front of something else than a line feed. -/
theorem eq_inner (h : y.Near cs cs') (hcs : ∀ t, cs ≠ '\n' :: t) : cs' = y.inner cs := by
  rcases h with h | h
  · exact h
  · rw [h, settled_of_ne hcs]

theorem eq_cons (h : y.Near (c :: cs) cs') (hc : c ≠ '\n') : cs' = c :: y.inner cs := by
  rw [h.eq_inner fun t ht => hc (List.cons.inj ht).1, inner_cons hc]

/-- Behind a run that takes in carriage returns the two texts are in step again, in front of the line feed. -/
theorem dropWhile_return (h : y.Near cs cs') (hbreak : p '\n' = false) (hreturn : p '\r' = true) :
    cs'.dropWhile p = y.settled (cs.dropWhile p) := by
  by_cases hcs : ∃ t, cs = '\n' :: t
  · obtain ⟨t, rfl⟩ := hcs
    rcases h with rfl | rfl
    · exact dropWhile_inner_return hbreak hreturn _
    · rw [settled_newline, List.dropWhile_cons_of_neg (by simp [hbreak]), List.dropWhile_cons_of_neg (by simp [hbreak]),
        settled_newline]
  · rw [h.eq_inner (not_exists.1 hcs)]
    exact dropWhile_inner_return hbreak hreturn _

theorem dropWhile (h : y.Near cs cs') (hbreak : p '\n' = false) : y.Near (cs.dropWhile p) (cs'.dropWhile p) := by
  by_cases hreturn : p '\r' = true
  · rw [h.dropWhile_return hbreak hreturn]
    exact settled _
  · have hreturn : p '\r' = false := by simpa using hreturn
    rcases h with rfl | rfl
    · rw [dropWhile_inner hbreak hreturn]
      exact inner _
    · by_cases hcs : ∃ t, cs = '\n' :: t
      · obtain ⟨t, rfl⟩ := hcs
        rw [settled_newline, List.dropWhile_cons_of_neg (by simp [hbreak]),
          List.dropWhile_cons_of_neg (by simp [hbreak])]
        exact settled _
      · rw [settled_of_ne (not_exists.1 hcs), dropWhile_inner hbreak hreturn]
        exact inner _

theorem takeWhile_return (h : y.Near cs cs') (hbreak : p '\n' = false) (hreturn : p '\r' = true) :
    cs'.takeWhile p = cs.takeWhile p ∨
      y.returns = true ∧ cs'.takeWhile p = cs.takeWhile p ++ ['\r'] ∧ ∃ t, cs.dropWhile p = '\n' :: t := by
  by_cases hcs : ∃ t, cs = '\n' :: t
  · obtain ⟨t, rfl⟩ := hcs
    rcases h with rfl | rfl
    · exact takeWhile_inner_return hbreak hreturn _
    · rw [settled_newline, List.takeWhile_cons_of_neg (by simp [hbreak]), List.takeWhile_cons_of_neg (by simp [hbreak])]
      exact .inl rfl
  · rw [h.eq_inner (not_exists.1 hcs)]
    exact takeWhile_inner_return hbreak hreturn _

theorem isBlank (h : y.Near cs cs') : Line.isBlank cs' = Line.isBlank cs := by
  have hhead : Line.head cs' = Line.head cs ∨ _ := h.takeWhile_return (p := (· != '\n')) rfl rfl
  rw [Line.isBlank, Line.isBlank]
  rcases hhead with hhead | ⟨-, hhead, -⟩
  · rw [hhead]
  · have hhead : Line.head cs' = Line.head cs ++ ['\r'] := hhead
    rw [hhead, List.all_append]
    simp [Line.isBlankChar]

theorem tail (h : y.Near cs cs') : Line.tail cs' = y.settled (Line.tail cs) := h.dropWhile_return rfl rfl

end Near

/-! ## Lines -/

/-- A line is blank in any style or in none: what a style adds is white space. -/
theorem isBlank_line (cs : List Char) : Line.isBlank (y.line cs) = Line.isBlank cs := by
  have hspaces : ∀ c ∈ y.lead cs, (c != '\n') = true ∧ Line.isBlankChar c = true := by
    intro c hc
    rw [forall_mem_lead c hc]
    exact ⟨rfl, rfl⟩
  have hhead : Line.head (y.line cs) = y.lead cs ++ Line.head (y.inner cs) :=
    List.takeWhile_append_of_pos fun c hc => (hspaces c hc).1
  rw [← (Near.inner cs).isBlank, Line.isBlank, Line.isBlank, hhead, List.all_append,
    List.all_eq_true.2 fun c hc => (hspaces c hc).2, Bool.true_and]

/-- A line that is not blank has something behind its spaces. -/
theorem dropWhile_space (h : Line.isBlank cs = false) : ∃ x t, cs.dropWhile (· == ' ') = x :: t ∧ x ≠ '\n' := by
  obtain ⟨x, t, hx, hlayout⟩ := Line.dropWhile_isBlankChar h
  cases hdrop : cs.dropWhile (· == ' ') with
  | nil =>
    have hall : ∀ c ∈ cs, Line.isBlankChar c = true := by
      intro c hc
      have hspace := List.dropWhile_eq_nil_iff.1 hdrop c hc
      obtain rfl : c = ' ' := by simpa using hspace
      rfl
    rw [List.dropWhile_eq_nil_iff.2 hall] at hx
    cases hx
  | cons z t =>
    refine ⟨z, t, rfl, ?_⟩
    rintro rfl
    -- a line feed right behind the spaces ends the line
    have hsplit : cs = cs.takeWhile (· == ' ') ++ '\n' :: t := by rw [← hdrop, List.takeWhile_append_dropWhile]
    have hspaces : ∀ c ∈ cs.takeWhile (· == ' '), Line.isBlankChar c = true := by
      intro c hc
      obtain rfl : c = ' ' := by simpa using List.mem_takeWhile_imp hc
      rfl
    rw [hsplit, List.dropWhile_append_of_pos hspaces, List.dropWhile_cons_of_neg (by decide)] at hx
    obtain ⟨rfl, -⟩ := List.cons.inj hx
    simp [isLayout] at hlayout

theorem dropWhile_space_line (cs : List Char) :
    (y.line cs).dropWhile (· == ' ') = y.inner (cs.dropWhile (· == ' ')) := by
  have hlead : ∀ c ∈ y.lead cs, (c == ' ') = true := by
    intro c hc
    rw [forall_mem_lead c hc]
    rfl
  rw [line, List.dropWhile_append_of_pos hlead, dropWhile_inner rfl rfl]

/-- Only indented lines have more spaces. -/
theorem indent_line (h : Line.isBlank cs = false) :
    Line.indent (y.line cs) = if 0 < Line.indent cs then Line.indent cs + y.spaces else 0 := by
  have hlead : ∀ c ∈ y.lead cs, (c == ' ') = true := by
    intro c hc
    rw [forall_mem_lead c hc]
    rfl
  have hindent : Line.indent (y.line cs) = (y.lead cs).length + Line.indent cs := by
    rw [Line.indent, line, List.takeWhile_append_of_pos hlead, takeWhile_inner rfl rfl, List.length_append, Line.indent]
  by_cases hspace : cs.head? = some ' '
  · have hpos : 0 < Line.indent cs := by
      rw [List.eq_cons_of_mem_head? hspace]
      simp [Line.indent]
    have hlength : (y.lead cs).length = y.spaces := by simp [lead, h, hspace]
    rw [hindent, if_pos hpos, hlength, Nat.add_comm]
  · have hzero : Line.indent cs = 0 := by
      cases cs with
      | nil => rfl
      | cons c cs =>
        have hc : (c == ' ') = false := by simpa using hspace
        simp [Line.indent, hc]
    rw [hindent, lead_of_ne (fun t ht => hspace (by simp [ht])), hzero]
    rfl

end LineStyle

/-- The next line with content, and the same line in another style: as many line breaks are crossed to it, and only its
indentation grows. -/
structure Line.Next.Restyled (y : LineStyle) (l l' : Next) : Prop where
  breaks : l'.breaks = l.breaks
  indent : l'.indent = if 0 < l.indent then l.indent + y.spaces else 0
  first : l'.first = l.first
  after : l'.after = y.inner l.after
  inside : l.first ≠ '\n'

namespace Line.Next.Restyled

variable {y : LineStyle} {l l' : Line.Next}

theorem content (h : l.Restyled y l') : l'.content = y.inner l.content := by
  rw [Line.Next.content, Line.Next.content, h.first, h.after, LineStyle.inner_cons h.inside]

theorem indented (h : l.Restyled y l') : decide (0 < l'.indent) = decide (0 < l.indent) := by
  rw [h.indent, decide_eq_decide]
  split <;> omega

/-- Whether a line goes on with a pattern depends on its first character and on whether it is indented at all, which a
style leaves alone. -/
theorem continuesPattern (h : l.Restyled y l') : l'.continuesPattern = l.continuesPattern := by
  rw [Line.Next.continuesPattern, Line.Next.continuesPattern, h.indented, h.first]

theorem continuesExpression (h : l.Restyled y l') : l'.continuesExpression = l.continuesExpression := by
  rw [Line.Next.continuesExpression, Line.Next.continuesExpression, h.indented, h.first]

theorem opensAttribute (h : l.Restyled y l') : l'.opensAttribute = l.opensAttribute := by
  rw [Line.Next.opensAttribute, Line.Next.opensAttribute, h.indented, h.first]

/-- A line that goes on with a pattern is indented. -/
theorem indent_of_continuesPattern (h : l.Restyled y l') (hl : l.continuesPattern = true) :
    l'.indent = l.indent + y.spaces := by
  have hpos : 0 < l.indent := by
    rw [Line.Next.continuesPattern, Bool.and_eq_true, decide_eq_true_eq] at hl
    exact hl.1
  rw [h.indent, if_pos hpos]

end Line.Next.Restyled

namespace LineStyle

variable {y : LineStyle} {cs cs' xs : List Char} {c : Char}

/-- **The next line with content** is the same line. -/
theorem nextContent?_settled (cs : List Char) :
    (Line.nextContent? cs = none ∧ Line.nextContent? (y.settled cs) = none) ∨
      ∃ l l', Line.nextContent? cs = some l ∧ Line.nextContent? (y.settled cs) = some l' ∧ l.Restyled y l' := by
  have hinside (cs : List Char) (hcs : ∀ t, cs ≠ '\n' :: t) : Line.nextContent? cs = none := by
    unfold Line.nextContent?
    split
    · exact absurd rfl (hcs _)
    · rfl
  fun_induction Line.nextContent? cs with
  | case1 line hblank ih =>
    -- a blank line is still blank, and of another length
    have hline : Line.nextContent? (y.settled ('\n' :: line)) =
        (Line.nextContent? (y.settled (Line.tail line))).map fun l =>
          { l with breaks := l.breaks + 1, skipped := l.skipped + 1 + (Line.head (y.inner line)).length } := by
      rw [settled_newline, Line.nextContent?, isBlank_line, if_pos hblank, LineStyle.line, lead_of_isBlank hblank,
        List.nil_append, (Near.inner line).tail]
    rw [hline]
    rcases ih with ⟨hnone, hnone'⟩ | ⟨l, l', hl, hl', hrestyled⟩
    · exact .inl ⟨by rw [hnone]; rfl, by rw [hnone']; rfl⟩
    · refine .inr ⟨_, _, by rw [hl]; rfl, by rw [hl']; rfl, ?_⟩
      exact ⟨congrArg (· + 1) hrestyled.breaks, hrestyled.indent, hrestyled.first, hrestyled.after, hrestyled.inside⟩
  | case2 line hblank hnil =>
    obtain ⟨x, t, hx, -⟩ := dropWhile_space (by simpa using hblank)
    rw [hnil] at hx
    cases hx
  | case3 line hblank x after hx =>
    have hblank : Line.isBlank line = false := by simpa using hblank
    obtain ⟨z, t, hz, hbreak⟩ := dropWhile_space hblank
    obtain ⟨rfl, rfl⟩ := List.cons.inj (hx.symm.trans hz)
    refine .inr ⟨_, ⟨1, 1, Line.indent (y.line line), x, y.inner after⟩, rfl, ?_,
      ⟨rfl, indent_line hblank, rfl, rfl, hbreak⟩⟩
    have hdrop : (y.line line).dropWhile (· == ' ') = x :: y.inner after := by
      rw [dropWhile_space_line, hx, inner_cons hbreak]
    rw [settled_newline, Line.nextContent?, isBlank_line, if_neg (by simp [hblank])]
    simp only [hdrop]
  | case4 cs hcs =>
    have hcs : ∀ t, cs ≠ '\n' :: t := fun t ht => hcs t ht
    refine .inl ⟨rfl, ?_⟩
    rw [settled_of_ne hcs]
    cases cs with
    | nil => exact hinside _ (by rintro _ ⟨⟩)
    | cons c cs =>
      have hc : c ≠ '\n' := by
        rintro rfl
        exact hcs _ rfl
      rw [inner_cons hc]
      exact hinside _ fun t ht => hc (List.cons.inj ht).1

/-! ## Headers -/

theorem identifierChar_breaks : isIdentifierChar '\n' = false ∧ isIdentifierChar '\r' = false := by decide

theorem digit_breaks : Char.isDigit '\n' = false ∧ Char.isDigit '\r' = false := by decide

theorem identifier?_inner (cs : List Char) :
    identifier? (y.inner cs) = (identifier? cs).map fun a => (a.1, y.inner a.2) := by
  cases cs with
  | nil => rfl
  | cons c cs =>
    by_cases hc : c = '\n'
    · subst hc
      rw [inner_newline]
      rcases y.ending_eq with ⟨-, he⟩ | ⟨-, he⟩ <;> rw [he] <;> rfl
    · obtain ⟨hbreak, hreturn⟩ := identifierChar_breaks
      rw [inner_cons hc, identifier?, identifier?, takeWhile_inner hbreak hreturn, dropWhile_inner hbreak hreturn]
      split <;> rfl

/-- The header of the same line in another style. -/
def restyle (y : LineStyle) (a : Line.Assignment) : Line.Assignment := { a with rest := y.inner a.rest }

/-- A name and its sign stand on one line, so they are found alike in every style. -/
theorem assignment?_inner (cs : List Char) :
    Line.assignment? (y.inner cs) = (Line.assignment? cs).map y.restyle := by
  rw [Line.assignment?, Line.assignment?, identifier?_inner]
  cases identifier? cs with
  | none => rfl
  | some a =>
    obtain ⟨name, after⟩ := a
    have hindent : Line.indent (y.inner after) = Line.indent after := by
      rw [Line.indent, Line.indent, takeWhile_inner rfl rfl]
    simp only [Option.map_some, Option.bind_eq_bind, Option.bind_some, hindent]
    rw [dropWhile_inner rfl rfl]
    cases after.dropWhile (· == ' ') with
    | nil => rfl
    | cons x rest =>
      by_cases hx : x = '\n'
      · subst hx
        rw [inner_newline]
        rcases y.ending_eq with ⟨-, he⟩ | ⟨-, he⟩ <;> rw [he] <;> rfl
      · rw [inner_cons hx]
        split
        · rename_i heq
          obtain ⟨rfl, rfl⟩ := List.cons.inj heq
          rfl
        · rename_i hother
          split
          · rename_i heq
            obtain ⟨rfl, rfl⟩ := List.cons.inj heq
            exact absurd rfl (hother _)
          · rfl

theorem attributeHeader?_inner (cs : List Char) :
    Line.attributeHeader? (y.inner cs) = (Line.attributeHeader? cs).map y.restyle := by
  cases cs with
  | nil => rfl
  | cons c cs =>
    by_cases hdot : c = '.'
    · subst hdot
      rw [inner_cons (by decide)]
      exact assignment?_inner cs
    · have hnone (c : Char) (cs : List Char) (hc : c ≠ '.') : Line.attributeHeader? (c :: cs) = none := by
        unfold Line.attributeHeader?
        split
        · rename_i heq
          exact absurd (List.cons.inj heq).1 hc
        · rfl
      rw [hnone c cs hdot]
      by_cases hc : c = '\n'
      · subst hc
        rw [inner_newline]
        rcases y.ending_eq with ⟨-, he⟩ | ⟨-, he⟩ <;> rw [he] <;> exact hnone _ _ (by decide)
      · rw [inner_cons hc]
        exact hnone _ _ hdot

theorem entryHeader?_of_ne (h : c ≠ '-') :
    Line.entryHeader? (c :: cs) = (Line.assignment? (c :: cs)).map (false, ·) := by
  unfold Line.entryHeader?
  split
  · rename_i heq
    exact absurd (List.cons.inj heq).1 h
  · rfl

/-- A header stands at the start of its line, where no style adds anything, so it is found alike in every style. -/
theorem entryHeader?_inner (cs : List Char) :
    Line.entryHeader? (y.inner cs) = (Line.entryHeader? cs).map fun b => (b.1, y.restyle b.2) := by
  cases cs with
  | nil => rfl
  | cons c cs =>
    by_cases hdash : c = '-'
    · subst hdash
      rw [inner_cons (by decide), Line.entryHeader?, Line.entryHeader?, assignment?_inner]
      cases Line.assignment? cs <;> rfl
    · have hassignment := assignment?_inner (y := y) (c :: cs)
      rw [entryHeader?_of_ne hdash]
      have hheader : Line.entryHeader? (y.inner (c :: cs)) = (Line.assignment? (y.inner (c :: cs))).map (false, ·) := by
        by_cases hc : c = '\n'
        · subst hc
          rw [inner_newline]
          rcases y.ending_eq with ⟨-, he⟩ | ⟨-, he⟩ <;> rw [he] <;> exact entryHeader?_of_ne (by decide)
        · rw [inner_cons hc]
          exact entryHeader?_of_ne hdash
      rw [hheader, hassignment]
      cases Line.assignment? (c :: cs) <;> rfl

theorem entryHeader?_space (cs : List Char) : Line.entryHeader? (' ' :: cs) = none := rfl

/-- **A line opens an entry in any style**, and then it has no more spaces in front. -/
theorem entryHeader?_line (cs : List Char) :
    Line.entryHeader? (y.line cs) = (Line.entryHeader? cs).map fun b => (b.1, y.restyle b.2) := by
  rcases y.lead_eq cs with hlead | ⟨-, ⟨t, rfl⟩, hlead⟩
  · rw [line, hlead, List.nil_append, entryHeader?_inner]
  · rw [entryHeader?_space, line, hlead, inner_cons (by decide)]
    cases y.spaces <;> rfl

/-- A header stands at the very start of its line. -/
theorem line_of_entryHeader {b : Bool × Line.Assignment} (h : Line.entryHeader? cs = some b) :
    y.line cs = y.inner cs := by
  rw [line, lead_of_ne, List.nil_append]
  rintro t rfl
  rw [entryHeader?_space] at h
  cases h

theorem commentLevel?_space (cs : List Char) : Line.commentLevel? (' ' :: cs) = none := rfl

/-- **A line is a comment in any style.** -/
theorem commentLevel?_line (hfits : y.Fits cs) : Line.commentLevel? (y.line cs) = Line.commentLevel? cs := by
  rcases y.lead_eq cs with hlead | ⟨-, ⟨t, rfl⟩, hlead⟩
  · rw [line, hlead, List.nil_append]
    unfold Line.commentLevel?
    rw [takeWhile_inner rfl rfl, dropWhile_inner rfl rfl]
    have hfits : y.Fits (cs.dropWhile (· == '#')) := hfits.suffix (List.dropWhile_suffix _)
    cases CommentLevel.ofHashes? (cs.takeWhile (· == '#')).length with
    | none => rfl
    | some level =>
      cases hdrop : cs.dropWhile (· == '#') with
      | nil => rfl
      | cons x t =>
        rw [hdrop] at hfits
        by_cases hbreak : x = '\n'
        · subst hbreak
          rw [inner_newline]
          rcases y.ending_eq with ⟨-, he⟩ | ⟨-, he⟩ <;> rw [he] <;> rfl
        rw [inner_cons hbreak]
        by_cases hreturn : x = '\r'
        · -- a carriage return of the text itself, so that the style has none
          subst hreturn
          have hy : y.ending = [] := by
            rcases y.ending_eq with ⟨-, he⟩ | ⟨hy, -⟩
            · exact he
            · exact absurd List.mem_cons_self (hfits hy)
          cases t with
          | nil => rfl
          | cons z t =>
            by_cases hz : z = '\n'
            · subst hz
              rw [inner_newline, hy]
              rfl
            · rw [inner_cons hz]
              split <;> split <;> simp_all
        · split <;> split <;> simp_all
  · rw [commentLevel?_space, line, hlead, inner_cons (by decide)]
    cases y.spaces <;> rfl

theorem line_of_commentLevel {level : CommentLevel} (h : Line.commentLevel? cs = some level) :
    y.line cs = y.inner cs := by
  rw [line, lead_of_ne, List.nil_append]
  rintro t rfl
  rw [commentLevel?_space] at h
  cases h

/-! ## Tokens -/

theorem digits_inner (cs : List Char) : digits (y.inner cs) = digits cs := by
  obtain ⟨hbreak, hreturn⟩ := digit_breaks
  unfold digits
  rw [takeWhile_inner hbreak hreturn, dropWhile_inner hbreak hreturn]
  cases cs.dropWhile Char.isDigit with
  | nil => rfl
  | cons x rest =>
    by_cases hx : x = '\n'
    · subst hx
      rw [inner_newline]
      rcases y.ending_eq with ⟨-, he⟩ | ⟨-, he⟩ <;> rw [he] <;> rfl
    · rw [inner_cons hx]
      by_cases hdot : x = '.'
      · subst hdot
        simp only [takeWhile_inner hbreak hreturn]
      · simp [hdot]

theorem stringBody_cons (hquote : c ≠ '"') (hbreak : c ≠ '\n') (hescape : c ≠ '\\') :
    stringBody (c :: cs) = (c :: (stringBody cs).1, (stringBody cs).2) := by
  rw [stringBody]
  · exact fun h => hquote h
  · exact fun h => hbreak h
  · exact fun h => absurd h hescape
  · exact fun _ _ h => absurd h hescape

/-- A string that is closed is closed in any style; the inside of another one may take the carriage return. -/
theorem stringBody_inner (cs : List Char) :
    (∃ body rest, stringBody cs = (body, '"' :: rest) ∧ stringBody (y.inner cs) = (body, '"' :: y.inner rest)) ∨
      (∀ rest, (stringBody cs).2 ≠ '"' :: rest) ∧ (∀ rest, (stringBody (y.inner cs)).2 ≠ '"' :: rest) ∧
        (y.returns = false → (stringBody (y.inner cs)).1 = (stringBody cs).1) := by
  fun_induction stringBody cs with
  | case1 => exact .inr ⟨by rintro _ ⟨⟩, by rintro _ ⟨⟩, fun _ => rfl⟩
  | case2 cs => exact .inl ⟨[], cs, rfl, by rw [inner_cons (by decide)]; rfl⟩
  | case3 cs =>
    rw [inner_newline]
    rcases y.ending_eq with ⟨-, he⟩ | ⟨hy, he⟩ <;> rw [he]
    · exact .inr ⟨by rintro _ ⟨⟩, by rintro _ ⟨⟩, fun _ => rfl⟩
    · exact .inr ⟨by rintro _ ⟨⟩, by rintro _ ⟨⟩, by simp [hy]⟩
  | case4 => exact .inr ⟨by rintro _ ⟨⟩, by rintro _ ⟨⟩, fun _ => rfl⟩
  | case5 cs =>
    rw [inner_cons (by decide), inner_newline]
    rcases y.ending_eq with ⟨-, he⟩ | ⟨hy, he⟩ <;> rw [he]
    · exact .inr ⟨by rintro _ ⟨⟩, by rintro _ ⟨⟩, fun _ => rfl⟩
    · exact .inr ⟨by rintro _ ⟨⟩, by rintro _ ⟨⟩, by simp [hy]⟩
  | case6 c cs hc body rest hbody ih =>
    have hinner : stringBody (y.inner ('\\' :: c :: cs)) =
        ('\\' :: c :: (stringBody (y.inner cs)).1, (stringBody (y.inner cs)).2) := by
      rw [inner_cons (by decide), inner_cons hc, stringBody, if_neg hc]
    rw [hinner]
    rw [hbody] at ih
    rcases ih with ⟨body', rest', hclosed, hclosed'⟩ | ⟨hopen, hopen', hsame⟩
    · obtain ⟨rfl, rfl⟩ := Prod.mk.inj hclosed
      exact .inl ⟨_, _, rfl, by rw [hclosed']⟩
    · exact .inr ⟨hopen, hopen', fun hy => by rw [hsame hy]⟩
  | case7 c cs hquote hbreak hend hescape body rest hbody ih =>
    have hc : c ≠ '\\' := by
      rintro rfl
      cases cs with
      | nil => exact hend rfl rfl
      | cons x xs => exact hescape x xs rfl rfl
    have hinner : stringBody (y.inner (c :: cs)) = (c :: (stringBody (y.inner cs)).1, (stringBody (y.inner cs)).2) := by
      rw [inner_cons hbreak, stringBody_cons hquote hbreak hc]
    rw [hinner]
    rw [hbody] at ih
    rcases ih with ⟨body', rest', hclosed, hclosed'⟩ | ⟨hopen, hopen', hsame⟩
    · obtain ⟨rfl, rfl⟩ := Prod.mk.inj hclosed
      exact .inl ⟨_, _, rfl, by rw [hclosed']⟩
    · exact .inr ⟨hopen, hopen', fun hy => by rw [hsame hy]⟩

/-- **The next token** is the same in any style, unless it is a string that is not closed. -/
theorem scan_inner (hc : c ≠ '\n') (cs : List Char) :
    Token.scan c (y.inner cs) = Token.scan c cs ∨
      y.returns = true ∧ (Token.scan c cs).1.isUnfinished = true ∧
        (Token.scan c (y.inner cs)).1.isUnfinished = true := by
  obtain ⟨hbreak, hreturn⟩ := identifierChar_breaks
  unfold Token.scan
  rw [takeWhile_inner hbreak hreturn, ← inner_cons hc, digits_inner]
  split
  · exact .inl rfl
  split
  · exact .inl rfl
  split
  · rcases stringBody_inner (y := y) cs with ⟨body, rest, hclosed, hclosed'⟩ | ⟨hopen, hopen', hsame⟩
    · rw [hclosed, hclosed']
      exact .inl rfl
    · generalize stringBody cs = b at hopen hsame
      generalize stringBody (y.inner cs) = b' at hopen' hsame
      obtain ⟨body, rest⟩ := b
      obtain ⟨body', rest'⟩ := b'
      split
      · rename_i heq
        exact absurd (congrArg Prod.snd heq) (hopen' _)
      rename_i heq
      cases heq
      rcases y.ending_eq with ⟨hy, -⟩ | ⟨hy, -⟩
      · have hbody : body' = body := hsame hy
        rw [hbody]
        exact .inl rfl
      · exact .inr ⟨hy, rfl, rfl⟩
  split
  · left
    cases cs with
    | nil => rfl
    | cons x xs =>
      by_cases hx : x = '\n'
      · subst hx
        rw [inner_newline]
        rcases y.ending_eq with ⟨-, he⟩ | ⟨-, he⟩ <;> rw [he] <;> rfl
      · rw [inner_cons hx]
        by_cases harrow : x = '>'
        · subst harrow
          rfl
        · have hdigits : digits (x :: y.inner xs) = digits (x :: xs) := by rw [← inner_cons hx, digits_inner]
          simp only [hdigits]
  · exact .inl rfl

theorem dropWhile_gap_inner (cs : List Char) : (y.inner cs).dropWhile isGap = y.inner (cs.dropWhile isGap) := by
  induction cs with
  | nil => rfl
  | cons c cs ih =>
    by_cases hc : c = '\n'
    · subst hc
      have hfront : ∀ c ∈ y.ending ++ '\n' :: y.lead cs, isGap c = true := by
        intro c hc
        rw [List.mem_append, List.mem_cons] at hc
        rcases hc with hc | rfl | hc
        · rcases y.ending_eq with ⟨-, he⟩ | ⟨-, he⟩ <;> rw [he] at hc
          · cases hc
          · obtain rfl := List.mem_singleton.1 hc
            rfl
        · rfl
        · rw [forall_mem_lead c hc]
          rfl
      have hsplit : y.inner ('\n' :: cs) = (y.ending ++ '\n' :: y.lead cs) ++ y.inner cs := by
        rw [inner_newline, line, List.append_assoc, List.cons_append]
      rw [hsplit, List.dropWhile_append_of_pos hfront, ih]
      rfl
    · rw [inner_cons hc, List.dropWhile_cons, List.dropWhile_cons, ih]
      split
      · rfl
      · rw [inner_cons hc]

/-- A named argument lies ahead in any style. -/
theorem namedArgumentAhead_inner (cs : List Char) :
    State.namedArgumentAhead (y.inner cs) = State.namedArgumentAhead cs := by
  obtain ⟨hbreak, hreturn⟩ := identifierChar_breaks
  rw [namedArgumentAhead_eq, namedArgumentAhead_eq, dropWhile_inner hbreak hreturn, dropWhile_gap_inner]
  cases (cs.dropWhile isIdentifierChar).dropWhile isGap with
  | nil => rfl
  | cons x rest =>
    by_cases hx : x = '\n'
    · subst hx
      rw [inner_newline]
      rcases y.ending_eq with ⟨-, he⟩ | ⟨-, he⟩ <;> rw [he] <;> rfl
    · rw [inner_cons hx]
      rfl

/-! ## Carriage returns at the end -/

theorem dropReturn_of_notMem (h : '\r' ∉ cs) : Line.dropReturn cs = cs := by
  rw [Line.dropReturn, if_neg]
  intro hlast
  exact h (List.mem_of_getLast? hlast)

theorem dropReturn_append (cs : List Char) : Line.dropReturn (cs ++ ['\r']) = cs := by
  simp [Line.dropReturn]

/-- The content of a comment line does not end in the carriage return of the style. -/
theorem token_commentLine {level : CommentLevel} {c c' : Cursor} (hlevel : Line.commentLevel? c.rest = some level)
    (hfits : y.Fits c.rest) (h : c'.rest = y.inner c.rest) :
    (commentLine level c').token = (commentLine level c).token := by
  obtain ⟨text, hhead, -⟩ := Line.commentLevel?_eq_some hlevel
  have hlength : level.hashes ≤ (Line.head c.rest).length := by
    rw [hhead]
    simp [CommentLevel.sigil]
  have htext : Line.dropReturn ((Line.head c'.rest).drop level.hashes) =
      Line.dropReturn ((Line.head c.rest).drop level.hashes) := by
    rw [h]
    have hinner : Line.head (y.inner c.rest) = Line.head c.rest ∨ _ :=
      takeWhile_inner_return (p := (· != '\n')) rfl rfl c.rest
    rcases hinner with hinner | ⟨hy, hinner, -⟩
    · rw [hinner]
    · have hinner : Line.head (y.inner c.rest) = Line.head c.rest ++ ['\r'] := hinner
      have hnone : '\r' ∉ (Line.head c.rest).drop level.hashes := fun hr =>
        hfits hy ((List.takeWhile_prefix _).mem (List.mem_of_mem_drop hr))
      rw [hinner, List.drop_append_of_le_length hlength, dropReturn_append, dropReturn_of_notMem hnone]
  simp only [commentLine, htext]

end LineStyle

end Fluent
