import Fluent.Proofs.Checked.Access
import Fluent.Proofs.Machine

/-!
# Lines, with checks

What a line looks like, found by offsets that are checked at every access. Where a cursor stands the checks do not fail,
and what is found is what the cursor finds.

* `Checked.lineEnd?`, `Checked.isBlank?`, `Checked.nextContent?`, `Checked.commentLevel?`: the layout of lines.
* `At.lineEnd?`, `At.isBlank?`, `At.nextContent?`, `At.commentLevel?`: the same as without checks.
* `Line.entryHeader?_head`, `Line.attributeHeader?_head`: a header is found in the slice of its line as well.
-/

namespace Fluent

namespace Checked

variable (source : List Char)

/-- The end of the line that an offset is on. -/
def lineEnd? (offset : Nat) : Option Nat := (cursor? source offset).map (·.lineEnd.offset)

/-- Only white space between two offsets. -/
def isBlank? (start stop : Nat) : Option Bool := (text? source start stop).map (·.all Line.isBlankChar)

/-- The first line with content behind a line feed, found by its offset rather than by what a cursor has left. -/
structure NextLine where
  start : Nat
  indent : Nat
  first : Char
  breaks : Nat

namespace NextLine

def content (l : NextLine) : Nat := l.start + l.indent

def continuesPattern (l : NextLine) : Bool := decide (0 < l.indent) && !Line.isSpecialStart l.first

def continuesExpression (l : NextLine) : Bool := decide (0 < l.indent) || Line.continuesExpression l.first

def opensAttribute (l : NextLine) : Bool := decide (0 < l.indent) && l.first == '.'

/-- The line as it is seen from an offset. -/
def ofNext (offset : Nat) (l : Line.Next) : NextLine := ⟨offset + l.skipped, l.indent, l.first, l.breaks⟩

variable (offset : Nat) (l : Line.Next)

@[simp] theorem indent_ofNext : (ofNext offset l).indent = l.indent := rfl

@[simp] theorem breaks_ofNext : (ofNext offset l).breaks = l.breaks := rfl

@[simp] theorem continuesPattern_ofNext : (ofNext offset l).continuesPattern = l.continuesPattern := rfl

@[simp] theorem continuesExpression_ofNext : (ofNext offset l).continuesExpression = l.continuesExpression := rfl

@[simp] theorem opensAttribute_ofNext : (ofNext offset l).opensAttribute = l.opensAttribute := rfl

end NextLine

/-- The next line with content from a line end on, some line breaks behind where the search began. The first byte
behind the indentation is read without asking whether there is one. -/
def contentFrom? (offset breaks : Nat) : Option (Option NextLine) :=
  if offset < byteCount source then do
    let start := offset + 1
    let stop ← lineEnd? source start
    if ← isBlank? source start stop then
      let ⟨next, _⟩ ← ahead? offset stop
      contentFrom? next (breaks + 1)
    else
      let line ← cursor? source start
      let first ← char? source (start + Line.indent line.rest)
      return some ⟨start, Line.indent line.rest, first, breaks + 1⟩
  else return none
termination_by byteCount source - offset

/-- The next line with content behind the line feed at an offset, if there is one. -/
def nextContent? (offset : Nat) : Option (Option NextLine) := do
  let c ← cursor? source offset
  if c.rest.head? = some '\n' then contentFrom? source offset 0 else return none

/-- Where the text of a line from one offset to another ends: in front of a carriage return at its end. -/
def textStop? (start stop : Nat) : Option Nat :=
  if start < stop then do
    let last ← minus? stop 1
    let byte ← byte? source last
    return if byte = UInt8.ofNat '\r'.toNat then last else stop
  else return stop

/-- What may follow the hashes of a comment. -/
def endsSigil : List Char → Bool
  | [] | ' ' :: _ | '\n' :: _ | '\r' :: '\n' :: _ => true
  | _ => false

/-- The level of the comment line at an offset. -/
def commentLevel? (offset : Nat) : Option (Option CommentLevel) := do
  let c ← cursor? source offset
  let hashes := (c.rest.takeWhile (· == '#')).length
  match CommentLevel.ofHashes? hashes with
  | none => return none
  | some level =>
    let after ← cursor? source (offset + hashes)
    return if endsSigil after.rest then some level else none

end Checked

namespace Cursor

variable {source : List Char} {c : Cursor}

namespace At

open Checked (NextLine)

theorem lineEnd? (h : c.At source) : Checked.lineEnd? source c.offset = some c.lineEnd.offset := by
  rw [Checked.lineEnd?, h.cursor?]
  rfl

theorem isBlank? (h : c.At source) :
    Checked.isBlank? source c.offset c.lineEnd.offset = some (Line.isBlank c.rest) := by
  rw [Checked.isBlank?, h.text? (over_lineEnd c)]
  rfl

/-- The line break at a cursor is one byte. -/
theorem behindBreak (h : c.At source) {line : List Char} (hline : c.rest = '\n' :: line) :
    (⟨c.offset + 1, line⟩ : Cursor).At source :=
  h.move (Over.ofLayout hline rfl)

/-- Spaces are bytes, so the indentation of a line is the distance of its content. -/
theorem behindIndent (h : c.At source) :
    (⟨c.offset + Line.indent c.rest, c.rest.dropWhile (· == ' ')⟩ : Cursor).At source := by
  have hspaces : byteCount (c.rest.takeWhile (· == ' ')) = Line.indent c.rest := by
    refine byteCount_layout ?_
    intro x hx
    have : x = ' ' := by simpa using List.mem_takeWhile_imp hx
    rw [this]
    rfl
  have hskip := h.skipWhile (· == ' ')
  rwa [Cursor.skipWhile, hspaces] at hskip

theorem contentFrom? (h : c.At source) (hc : c.rest = [] ∨ c.rest.head? = some '\n') (breaks : Nat) :
    Checked.contentFrom? source c.offset breaks =
      some ((Line.nextContent? c.rest).map fun l =>
        { NextLine.ofNext c.offset l with breaks := breaks + l.breaks }) := by
  generalize hrest : c.rest = rest at hc
  fun_induction Line.nextContent? rest generalizing c breaks with
  | case1 line hblank ih =>
    have hline := h.behindBreak hrest
    have hlt : c.offset < byteCount source := h.offset_lt_iff.2 (by simp [hrest])
    have hcount : byteCount (Line.head line) = (Line.head line).length :=
      byteCount_layout fun x hx => isLayout_of_isBlankChar (Line.isBlank_iff.1 hblank x hx)
    have hend : Line.tail line = [] ∨ (Line.tail line).head? = some '\n' := by
      rcases Line.tail_eq_nil_or line with htail | ⟨after, htail⟩
      · exact .inl htail
      · exact .inr (by rw [htail]; rfl)
    have hoffset : (⟨c.offset + 1, line⟩ : Cursor).lineEnd.offset = c.offset + 1 + (Line.head line).length := by
      rw [(over_lineEnd _).offset, hcount]
    have hnext := ih hline.lineEnd (breaks + 1) rfl hend
    have hahead : c.offset < (⟨c.offset + 1, line⟩ : Cursor).lineEnd.offset := by omega
    rw [Checked.contentFrom?, if_pos hlt]
    simp only [hline.lineEnd?, hline.isBlank?, hblank, Checked.ahead?_of_lt hahead, Option.bind_eq_bind, Option.bind_some,
      if_true, hnext, Option.map_map]
    congr 2
    funext l
    simp only [Function.comp, NextLine.ofNext, hoffset]
    congr 1 <;> omega
  | case2 line hblank hspaces =>
    -- a line of spaces only is blank
    refine absurd (Line.isBlank_iff.2 fun x hx => ?_) hblank
    have hx : x = ' ' := by simpa using List.dropWhile_eq_nil_iff.1 hspaces x (List.takeWhile_subset _ hx)
    rw [hx]
    rfl
  | case3 line hblank x after hcontent =>
    have hline := h.behindBreak hrest
    have hlt : c.offset < byteCount source := h.offset_lt_iff.2 (by simp [hrest])
    have hfirst := hline.behindIndent.char?
    simp only [hcontent, List.head?_cons] at hfirst
    rw [Checked.contentFrom?, if_pos hlt]
    simp only [hline.lineEnd?, hline.isBlank?, Bool.eq_false_iff.2 hblank, hline.cursor?, hfirst, Option.bind_eq_bind,
      Option.bind_some, Bool.false_eq_true, if_false, Option.map_some]
    rfl
  | case4 rest hnone =>
    have hnil : rest = [] := by
      rcases hc with hnil | hbreak
      · exact hnil
      · obtain ⟨line, rfl⟩ := List.head?_eq_some_iff.1 hbreak
        exact absurd rfl (hnone line)
    have hlt : ¬ c.offset < byteCount source := fun hlt => h.offset_lt_iff.1 hlt (hrest.trans hnil)
    rw [Checked.contentFrom?, if_neg hlt]
    rfl

/-- The next line with content is found, and the byte behind its indentation exists. -/
theorem nextContent? (h : c.At source) :
    Checked.nextContent? source c.offset = some ((Line.nextContent? c.rest).map (NextLine.ofNext c.offset)) := by
  rw [Checked.nextContent?, h.cursor?]
  simp only [Option.bind_eq_bind, Option.bind_some]
  by_cases hbreak : c.rest.head? = some '\n'
  · rw [if_pos hbreak, h.contentFrom? (.inr hbreak)]
    simp only [Nat.zero_add]
    rfl
  · rw [if_neg hbreak]
    have hnone : Line.nextContent? c.rest = none := by
      unfold Line.nextContent?
      split
      · rename_i hrest
        rw [hrest] at hbreak
        exact absurd rfl hbreak
      · rfl
    rw [hnone]
    rfl

theorem content_ofNext (l : Line.Next) : (NextLine.ofNext c.offset l).content = (c.toContent l).offset := by
  simp only [NextLine.content, NextLine.ofNext, Cursor.toContent, Line.Next.distance]
  omega

theorem textStop? (h : c.At source) {text : List Char} {d : Cursor} (hover : c.Over text d) :
    Checked.textStop? source c.offset d.offset = some (c.offset + byteCount (Line.dropReturn text)) := by
  unfold Checked.textStop?
  rcases List.eq_nil_or_concat text with rfl | ⟨init, x, rfl⟩
  · rw [if_neg (by simp [hover.offset, byteCount]), hover.offset]
    rfl
  · rw [List.concat_eq_append] at hover ⊢
    have hlt : c.offset < d.offset := hover.offset_lt (by simp)
    have hbyte := h.byte? hover List.getLast?_concat
    have hlast : lastByte x = UInt8.ofNat '\r'.toNat ↔ x = '\r' := lastByte_eq_iff (by decide)
    have hoffset := hover.offset
    rw [if_pos hlt]
    simp only [Checked.minus?_of_le (show 1 ≤ d.offset by omega), hbyte, hlast, Option.bind_eq_bind, Option.bind_some,
      Line.dropReturn, List.getLast?_concat, Option.some.injEq, Option.pure_def]
    split
    · rename_i hx
      have hone : ('\r' : Char).utf8Size = 1 := rfl
      simp only [hx, byteCount_append, byteCount, hone, List.dropLast_concat] at hoffset ⊢
      omega
    · exact hoffset

theorem commentLevel? (h : c.At source) : Checked.commentLevel? source c.offset = some (Line.commentLevel? c.rest) := by
  have hcount : byteCount (c.rest.takeWhile (· == '#')) = (c.rest.takeWhile (· == '#')).length := by
    refine byteCount_eq_length ?_
    intro x hx
    have : x = '#' := by simpa using List.mem_takeWhile_imp hx
    rw [this]
    rfl
  have hafter := (h.skipWhile (· == '#')).cursor?
  rw [Cursor.skipWhile, hcount] at hafter
  rw [Checked.commentLevel?, h.cursor?]
  simp only [Option.bind_eq_bind, Option.bind_some, hafter]
  unfold Line.commentLevel?
  cases CommentLevel.ofHashes? (c.rest.takeWhile (· == '#')).length with
  | none => rfl
  | some level =>
    generalize c.rest.dropWhile (· == '#') = after
    fun_cases Checked.endsSigil after with
    | case5 => split <;> simp_all
    | _ => rfl

end At

end Cursor

/-! ## Headers in the slice of a line -/

/-- Within a longer run, a run is the same. -/
theorem takeWhile_takeWhile_of_imp {p q : Char → Bool} (h : ∀ x, p x = true → q x = true) (cs : List Char) :
    (cs.takeWhile q).takeWhile p = cs.takeWhile p := by
  induction cs with
  | nil => rfl
  | cons x xs ih =>
    by_cases hp : p x = true
    · rw [List.takeWhile_cons_of_pos (h x hp), List.takeWhile_cons_of_pos hp, List.takeWhile_cons_of_pos hp, ih]
    · by_cases hq : q x = true
      · rw [List.takeWhile_cons_of_pos hq, List.takeWhile_cons_of_neg hp, List.takeWhile_cons_of_neg hp]
      · rw [List.takeWhile_cons_of_neg hq, List.takeWhile_cons_of_neg hp]
        rfl

theorem dropWhile_takeWhile_of_imp {p q : Char → Bool} (h : ∀ x, p x = true → q x = true) (cs : List Char) :
    (cs.takeWhile q).dropWhile p = (cs.dropWhile p).takeWhile q := by
  induction cs with
  | nil => rfl
  | cons x xs ih =>
    by_cases hp : p x = true
    · rw [List.takeWhile_cons_of_pos (h x hp), List.dropWhile_cons_of_pos hp, List.dropWhile_cons_of_pos hp, ih]
    · by_cases hq : q x = true
      · rw [List.takeWhile_cons_of_pos hq, List.dropWhile_cons_of_neg hp, List.dropWhile_cons_of_neg hp,
          List.takeWhile_cons_of_pos hq]
      · rw [List.takeWhile_cons_of_neg hq, List.dropWhile_cons_of_neg hp, List.takeWhile_cons_of_neg hq]
        rfl

namespace Line

/-- A header read from the slice of its line. -/
def Assignment.onLine (a : Assignment) : Assignment := { a with rest := head a.rest }

theorem head_cons {x : Char} (hx : x ≠ '\n') (cs : List Char) : head (x :: cs) = x :: head cs :=
  List.takeWhile_cons_of_pos (by simpa using hx)

theorem assignment?_head (cs : List Char) : assignment? (head cs) = (assignment? cs).map Assignment.onLine := by
  cases cs with
  | nil => rfl
  | cons x xs =>
    by_cases hx : isIdentifierStart x = true
    · have hbreak := identifierStart_ne_newline hx
      have hname (y : Char) (hy : isIdentifierChar y = true) : (y != '\n') = true := by
        simpa using identifierChar_ne_newline hy
      have hspace (y : Char) (hy : (y == ' ') = true) : (y != '\n') = true := by
        simp_all
      rw [head_cons hbreak]
      unfold assignment? identifier?
      simp only [hx, if_true, Option.bind_eq_bind, Option.bind_some]
      rw [head, takeWhile_takeWhile_of_imp hname, dropWhile_takeWhile_of_imp hname, dropWhile_takeWhile_of_imp hspace,
        indent, takeWhile_takeWhile_of_imp hspace, ← indent]
      rcases (xs.dropWhile isIdentifierChar).dropWhile (· == ' ') with _ | ⟨y, ys⟩
      · rfl
      · by_cases hy : y = '='
        · subst hy
          rw [List.takeWhile_cons_of_pos (by decide)]
          rfl
        · by_cases hnewline : y = '\n'
          · subst hnewline
            rw [List.takeWhile_cons_of_neg (by decide)]
            rfl
          · rw [List.takeWhile_cons_of_pos (by simpa using hnewline)]
            simp [hy]
    · have hnone : assignment? (x :: xs) = none := by
        simp [assignment?, identifier?, hx]
      have hhead : head (x :: xs) = [] ∨ head (x :: xs) = x :: head xs := by
        by_cases hbreak : x = '\n'
        · exact .inl (List.takeWhile_cons_of_neg (by simpa using hbreak))
        · exact .inr (head_cons hbreak xs)
      rw [hnone]
      rcases hhead with hhead | hhead <;> rw [hhead] <;> simp [assignment?, identifier?, hx]

/-- A name has only characters of one byte. -/
theorem utf8Size_of_isIdentifierChar {x : Char} (h : isIdentifierChar x = true) : x.utf8Size = 1 := by
  have hx : x.val ≤ 127 := by
    simp only [isIdentifierChar, Char.isAlphanum, Char.isAlpha, Char.isUpper, Char.isLower, Char.isDigit,
      Bool.or_eq_true, Bool.and_eq_true, decide_eq_true_eq, beq_iff_eq] at h
    rcases h with (((⟨-, h⟩ | ⟨-, h⟩) | ⟨-, h⟩) | rfl) | rfl
    · exact UInt32.le_trans h (by decide)
    · exact UInt32.le_trans h (by decide)
    · exact UInt32.le_trans h (by decide)
    · decide
    · decide
  exact if_pos hx

theorem byteCount_name {cs : List Char} {a : Assignment} (h : assignment? cs = some a) :
    byteCount a.name = a.name.length := by
  refine byteCount_eq_length fun x hx => utf8Size_of_isIdentifierChar ?_
  obtain ⟨y, ys, -, hstart, hname, -⟩ := assignment?_eq_cons h
  rw [hname] at hx
  rcases List.mem_cons.1 hx with rfl | hx
  · exact isIdentifierChar_of_isIdentifierStart hstart
  · exact List.mem_takeWhile_imp hx

/-- The header of an entry is found in its line. -/
theorem entryHeader?_head (cs : List Char) :
    entryHeader? (head cs) = (entryHeader? cs).map fun (isTerm, a) => (isTerm, a.onLine) := by
  by_cases hminus : ∃ rest, cs = '-' :: rest
  · obtain ⟨rest, rfl⟩ := hminus
    rw [head_cons (by decide), entryHeader?, entryHeader?, assignment?_head]
    simp [Function.comp_def]
  · have hother (xs : List Char) (hxs : ∀ rest, xs ≠ '-' :: rest) :
        entryHeader? xs = (assignment? xs).map (false, ·) := by
      unfold entryHeader?
      split
      · exact absurd rfl (hxs _)
      · rfl
    have hhead (rest : List Char) : head cs ≠ '-' :: rest := by
      intro h
      have happend := head_append_tail cs
      rw [h] at happend
      exact hminus ⟨_, happend.symm⟩
    rw [hother _ hhead, hother _ fun rest h => hminus ⟨rest, h⟩, assignment?_head]
    simp [Function.comp_def]

/-- The header of an attribute is found in its line. -/
theorem attributeHeader?_head (cs : List Char) :
    attributeHeader? (head cs) = (attributeHeader? cs).map Assignment.onLine := by
  by_cases hdot : ∃ rest, cs = '.' :: rest
  · obtain ⟨rest, rfl⟩ := hdot
    rw [head_cons (by decide), attributeHeader?, attributeHeader?, assignment?_head]
  · have hother (xs : List Char) (hxs : ∀ rest, xs ≠ '.' :: rest) : attributeHeader? xs = none := by
      unfold attributeHeader?
      split
      · exact absurd rfl (hxs _)
      · rfl
    have hhead (rest : List Char) : head cs ≠ '.' :: rest := by
      intro h
      have happend := head_append_tail cs
      rw [h] at happend
      exact hdot ⟨_, happend.symm⟩
    rw [hother _ hhead, hother _ fun rest h => hdot ⟨rest, h⟩]
    rfl

end Line

end Fluent
