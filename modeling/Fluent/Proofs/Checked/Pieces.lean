import Fluent.Proofs.Checked.Access
import Fluent.Proofs.Account

/-!
# Text pieces among tokens

While a pattern is read, each run of its text keeps a place among the tokens: a *piece* is the index of such a place, and
what is needed to fill it in. When the pattern ends, the payloads of its pieces are filled in at their indices, and the
places of those without any text are removed. Tokens that were added in the meantime are not touched.

* `Checked.finish?`: filling in, with every index, slice and difference checked. An index fails as well if another token
  than the place of its piece is there.
* `PatternItem.hold?`, `pieces`: the places of what is read, and the pieces that belong to them.
* `finish?_pieces`, `finish?_run`: behind any tokens, filling in does not fail, and comes to `dedent`.
-/

namespace Fluent

namespace Checked

/-- A run of text whose payload is not known yet. Its place among the tokens is kept, since the common indentation is
known only where the pattern ends. -/
structure Piece where
  /-- The index of its place among the tokens. -/
  token : Nat
  breaks : Nat
  indent : Option Nat
  start : Nat
  stop : Nat

namespace Piece

/-- What stands in the place of a piece until then. -/
def holder (p : Piece) : Lexeme := ⟨.pureText "", ⟨p.start, p.stop⟩⟩

/-- The spaces of an indentation that are content. -/
def spaces? (common : Nat) (p : Piece) : Option Nat :=
  match p.indent with
  | none => some 0
  | some n => minus? n common

/-- Where the text of a piece ends, without white space at its end if it is trimmed. -/
def stop? (source : List Char) (trims : Bool) (p : Piece) : Option Nat :=
  if trims then (text? source p.start p.stop).map fun text =>
    p.start + byteCount (text.reverse.dropWhile Line.isBlankChar).reverse
  else some p.stop

/-- The payload of a piece, and where its text ends. -/
def payload? (source : List Char) (common : Nat) (trims : Bool) (p : Piece) : Option (List Char × Nat) := do
  let stop ← p.stop? source trims
  let spaces ← p.spaces? common
  let text ← text? source p.start stop
  return (List.replicate p.breaks '\n' ++ List.replicate spaces ' ' ++ text, stop)

end Piece

/-- Writes a token into the place of a piece. -/
def replace? (tokens : List Lexeme) (p : Piece) (l : Lexeme) : Option (List Lexeme) :=
  if tokens[p.token]? = some p.holder then some (tokens.set p.token l) else none

/-- Removes the place of a piece. -/
def remove? (tokens : List Lexeme) (p : Piece) : Option (List Lexeme) :=
  if tokens[p.token]? = some p.holder then some (tokens.eraseIdx p.token) else none

/-- Fills in the payloads of pieces, the latest of which comes first and may be trimmed. The pieces without a payload are
left for later. -/
def fill? (source : List Char) (common : Nat) : Bool → List Piece → List Lexeme → Option (List Lexeme × List Piece)
  | _, [], tokens => some (tokens, [])
  | trims, p :: ps, tokens => do
    let (tokens, empty) ← fill? source common false ps tokens
    let (value, stop) ← p.payload? source common trims
    if value = [] then return (tokens, p :: empty)
    else
      let tokens ← replace? tokens p ⟨.pureText (String.ofList value), ⟨p.start, stop⟩⟩
      return (tokens, empty)

/-- Removes the places of pieces, that of the latest first. -/
def removeAll? : List Piece → List Lexeme → Option (List Lexeme)
  | [], tokens => some tokens
  | p :: ps, tokens => do
    let tokens ← remove? tokens p
    removeAll? ps tokens

/-- Fills in the pieces of a pattern. If it ends with text, its last piece is trimmed. -/
def finish? (source : List Char) (pieces : List Piece) (trims : Bool) (tokens : List Lexeme) : Option (List Lexeme) := do
  let common := commonIndent (pieces.filterMap (·.indent))
  let (tokens, empty) ← fill? source common trims pieces tokens
  removeAll? empty tokens

end Checked

/-- The run stands in the source: its text is what lies there from its start on, so to cut it out by its offsets gives
the text again. -/
def TextRun.At (source : List Char) (r : TextRun) : Prop :=
  ∃ c d : Cursor, c.At source ∧ c.offset = r.start ∧ c.Over r.text d

/-- A run that needs no place: it has neither text nor anything in front of it. -/
def TextRun.isVoid (r : TextRun) : Bool := r.text.isEmpty && r.breaks == 0 && r.indent.isNone

namespace TextRun

def piece (n : Nat) (r : TextRun) : Checked.Piece := ⟨n, r.breaks, r.indent, r.start, r.start + byteCount r.text⟩

/-- What stands in the place of a run. -/
def holder (r : TextRun) : Lexeme := ⟨.pureText "", ⟨r.start, r.start + byteCount r.text⟩⟩

/-- A run that may be trimmed. -/
def cut (trims : Bool) (r : TextRun) : TextRun := if trims then r.trimEnd else r

end TextRun

namespace PatternItem

/-- The place of an item among the tokens. -/
def hold? : PatternItem → Option Lexeme
  | lexeme l => some l
  | run r => if r.isVoid then none else some r.holder

end PatternItem

/-- The pieces of items that `n` tokens stand in front of, the latest first. -/
def pieces (n : Nat) : List PatternItem → List Checked.Piece
  | [] => []
  | .lexeme _ :: is => pieces n is
  | .run r :: is =>
    if r.isVoid then pieces n is else r.piece (n + (is.filterMap PatternItem.hold?).length) :: pieces n is

theorem Reads.run_at {P : List Char → Token → Prop} {source t : List Char} {c d : Cursor} {is : List PatternItem}
    (h : Reads P c t is d) (hc : c.At source) {r : TextRun} (hr : .run r ∈ is) : r.At source := by
  induction h with
  | start => simp at hr
  | layout _ _ _ ih => exact ih hr
  | run hreads _ hover hstart ih =>
    rcases List.mem_cons.1 hr with heq | hr
    · obtain rfl := PatternItem.run.inj heq
      exact ⟨_, _, hc.move hreads.stretch, hstart.symm, hover⟩
    · exact ih hr
  | lexeme _ _ _ _ _ ih =>
    rcases List.mem_cons.1 hr with heq | hr
    · cases heq
    · exact ih hr

theorem foldl_min_le (ns : List Nat) (m : Nat) : ns.foldl min m ≤ m ∧ ∀ n ∈ ns, ns.foldl min m ≤ n := by
  induction ns generalizing m with
  | nil => simp
  | cons k ns ih =>
    obtain ⟨hle, hall⟩ := ih (min m k)
    rw [List.foldl_cons]
    refine ⟨by omega, ?_⟩
    intro n hn
    rcases List.mem_cons.1 hn with rfl | hn
    · omega
    · exact hall n hn

theorem commonIndent_le {ns : List Nat} {n : Nat} (h : n ∈ ns) : commonIndent ns ≤ n := by
  cases ns with
  | nil => simp at h
  | cons m ns =>
    obtain ⟨hle, hall⟩ := foldl_min_le ns m
    rcases List.mem_cons.1 h with rfl | h
    · exact hle
    · exact hall n h

theorem filterMap_indent_pieces (n : Nat) (is : List PatternItem) :
    (pieces n is).filterMap (·.indent) = is.filterMap PatternItem.indent? := by
  induction is with
  | nil => rfl
  | cons i is ih =>
    cases i with
    | lexeme l => exact ih
    | run r =>
      rw [pieces]
      split
      · rename_i hvoid
        have hnone : r.indent = none := by
          simp only [TextRun.isVoid, Bool.and_eq_true] at hvoid
          exact Option.isNone_iff_eq_none.1 hvoid.2
        rw [List.filterMap_cons_none (by exact hnone), ih]
      · rw [List.filterMap_cons, List.filterMap_cons, ih]
        rfl

namespace TextRun

variable {source : List Char} {r : TextRun} {common : Nat}

theorem exists_append_trimEnd (r : TextRun) : ∃ gap, r.text = r.trimEnd.text ++ gap :=
  ⟨(r.text.reverse.takeWhile Line.isBlankChar).reverse, by
    rw [trimEnd, ← List.reverse_append, List.takeWhile_append_dropWhile, List.reverse_reverse]⟩

theorem At.cut (h : r.At source) (trims : Bool) : (r.cut trims).At source := by
  cases trims with
  | false => exact h
  | true =>
    obtain ⟨c, d, hc, hstart, hover⟩ := h
    obtain ⟨gap, hgap⟩ := r.exists_append_trimEnd
    exact ⟨c, ⟨c.offset + byteCount r.trimEnd.text, gap ++ d.rest⟩, hc, hstart,
      ⟨by show c.rest = r.trimEnd.text ++ (gap ++ d.rest); rw [hover.rest, hgap, List.append_assoc], rfl⟩⟩

theorem At.text? (h : r.At source) :
    Checked.text? source r.start (r.start + byteCount r.text) = some r.text := by
  obtain ⟨c, d, hc, hstart, hover⟩ := h
  rw [← hstart, ← hover.offset]
  exact hc.text? hover

/-- In an indentation there are at least as many spaces as all have in common. -/
theorem payload?_piece (h : r.At source) (hcommon : ∀ n ∈ r.indent, common ≤ n) (trims : Bool) (n : Nat) :
    (r.piece n).payload? source common trims =
      some ((r.cut trims).value common, r.start + byteCount (r.cut trims).text) := by
  have hstop : (r.piece n).stop? source trims = some (r.start + byteCount (r.cut trims).text) := by
    cases trims with
    | false => rfl
    | true =>
      rw [Checked.Piece.stop?, if_pos rfl, piece, h.text?]
      rfl
  have hspaces : (r.piece n).spaces? common = some (r.indent.getD common - common) := by
    unfold Checked.Piece.spaces? piece
    cases hindent : r.indent with
    | none => simp
    | some m => exact Checked.minus?_of_le (hcommon m hindent)
  have htext := (h.cut trims).text?
  have hsame : (r.cut trims).start = r.start ∧ (r.cut trims).breaks = r.breaks ∧ (r.cut trims).indent = r.indent := by
    cases trims <;> exact ⟨rfl, rfl, rfl⟩
  rw [hsame.1] at htext
  rw [Checked.Piece.payload?, hstop, hspaces]
  simp only [Option.bind_eq_bind, Option.bind_some, piece, htext, value, hsame]
  rfl

end TextRun

/-- Filling in pieces comes to `settled`, whatever tokens stand behind them: the places held for the pieces are filled,
and those whose text comes to nothing are taken out. -/
def Settles (source : List Char) (common : Nat) (before : List Lexeme) (trims : Bool) (ps : List Checked.Piece)
    (held settled : List Lexeme) : Prop :=
  ∃ filled empty, filled.length = held.length ∧
    (∀ after, Checked.fill? source common trims ps (before ++ (held ++ after)) =
      some (before ++ (filled ++ after), empty)) ∧
    ∀ after, Checked.removeAll? empty (before ++ (filled ++ after)) = some (before ++ (settled ++ after))

namespace Settles

variable {source : List Char} {common : Nat} {before held settled : List Lexeme} {ps : List Checked.Piece} {trims : Bool}

theorem nil : Settles source common before trims [] [] [] := ⟨[], [], rfl, fun _ => rfl, fun _ => rfl⟩

/-- A token behind the pieces stays. -/
theorem lexeme (h : Settles source common before trims ps held settled) (l : Lexeme) :
    Settles source common before trims ps (held ++ [l]) (settled ++ [l]) := by
  obtain ⟨filled, empty, hlength, hfill, hremove⟩ := h
  refine ⟨filled ++ [l], empty, by simp [hlength], fun after => ?_, fun after => ?_⟩
  · simpa using hfill (l :: after)
  · simpa using hremove (l :: after)

/-- A piece behind others is found at its index, with those in front of it filled in. -/
theorem run (h : Settles source common before false ps held settled) {r : TextRun} (hr : r.At source)
    (hcommon : ∀ n ∈ r.indent, common ≤ n) (trims : Bool) {n : Nat} (hn : n = before.length + held.length) :
    Settles source common before trims (r.piece n :: ps) (held ++ [r.holder])
      (settled ++ (PatternItem.settle? common (.run (r.cut trims))).toList) := by
  obtain ⟨filled, empty, hlength, hfill, hremove⟩ := h
  have hindex : (r.piece n).token = (before ++ filled).length := by simp [TextRun.piece, hn, hlength]
  have hplace (after : List Lexeme) :
      (before ++ filled ++ r.holder :: after)[(r.piece n).token]? = some (r.piece n).holder := by
    rw [hindex, List.getElem?_append_right (Nat.le_refl _), Nat.sub_self]
    rfl
  have hothers (after : List Lexeme) : Checked.fill? source common false ps (before ++ (held ++ [r.holder] ++ after)) =
      some (before ++ filled ++ r.holder :: after, empty) := by
    simpa using hfill (r.holder :: after)
  have hpayload := TextRun.payload?_piece hr hcommon trims n
  by_cases hvalue : (r.cut trims).value common = []
  · refine ⟨filled ++ [r.holder], r.piece n :: empty, by simp [hlength], fun after => ?_, fun after => ?_⟩
    · simp only [Checked.fill?, hothers, hpayload, Option.bind_eq_bind, Option.bind_some, if_pos hvalue]
      simp
    · have hgone : (before ++ filled ++ r.holder :: after).eraseIdx (r.piece n).token = before ++ (filled ++ after) := by
        rw [hindex, List.eraseIdx_append_of_length_le (Nat.le_refl _), Nat.sub_self]
        simp
      have hthere : before ++ (filled ++ [r.holder] ++ after) = before ++ filled ++ r.holder :: after := by simp
      rw [hthere, Checked.removeAll?, Checked.remove?, if_pos (hplace after), hgone]
      simpa [PatternItem.settle?, hvalue] using hremove after
  · obtain ⟨x, xs, hcons⟩ := List.exists_cons_of_ne_nil hvalue
    let l : Lexeme := ⟨.pureText (String.ofList ((r.cut trims).value common)),
      ⟨r.start, r.start + byteCount (r.cut trims).text⟩⟩
    have hsettle : PatternItem.settle? common (.run (r.cut trims)) = some l := by
      have hstart : (r.cut trims).start = r.start := by cases trims <;> rfl
      simp only [PatternItem.settle?, hcons, hstart, l]
    have hwritten (after : List Lexeme) :
        Checked.replace? (before ++ filled ++ r.holder :: after) (r.piece n) l = some (before ++ filled ++ l :: after) := by
      rw [Checked.replace?, if_pos (hplace after), hindex, List.set_append_right _ _ (Nat.le_refl _), Nat.sub_self]
      rfl
    refine ⟨filled ++ [l], empty, by simp [hlength], fun after => ?_, fun after => ?_⟩
    · simp only [Checked.fill?, hothers, hpayload, Option.bind_eq_bind, Option.bind_some, if_neg hvalue]
      rw [show (r.piece n).start = r.start from rfl, hwritten]
      simp
    · rw [hsettle]
      simpa using hremove (l :: after)

theorem finish? (h : Settles source (commonIndent (ps.filterMap (·.indent))) before trims ps held settled) :
    Checked.finish? source ps trims (before ++ held) = some (before ++ settled) := by
  obtain ⟨filled, empty, -, hfill, hremove⟩ := h
  have hfilled := hfill []
  have hremoved := hremove []
  simp only [List.append_nil] at hfilled hremoved
  simp only [Checked.finish?, hfilled, Option.bind_eq_bind, Option.bind_some, hremoved]

end Settles

theorem reverse_filterMap_cons {α β : Type} (g : α → Option β) (x : α) (xs : List α) :
    ((x :: xs).filterMap g).reverse = (xs.filterMap g).reverse ++ (g x).toList := by
  rw [List.filterMap_cons]
  cases g x <;> simp

theorem TextRun.settle?_of_isVoid {r : TextRun} (h : r.isVoid = true) (common : Nat) :
    PatternItem.settle? common (.run r) = none := by
  obtain ⟨breaks, indent, start, text⟩ := r
  simp only [TextRun.isVoid, Bool.and_eq_true, List.isEmpty_iff, beq_iff_eq, Option.isNone_iff_eq_none] at h
  obtain ⟨⟨rfl, rfl⟩, rfl⟩ := h
  simp [PatternItem.settle?, TextRun.value]

section Finish

variable {source : List Char} {is : List PatternItem}

theorem settles_pieces (hruns : ∀ r, .run r ∈ is → r.At source) {common : Nat}
    (hcommon : ∀ i ∈ is, ∀ n ∈ i.indent?, common ≤ n) (before : List Lexeme) :
    Settles source common before false (pieces before.length is) (is.filterMap PatternItem.hold?).reverse
      (is.filterMap (PatternItem.settle? common)).reverse := by
  induction is with
  | nil => exact .nil
  | cons i is ih =>
    have hrest := ih (fun r hr => hruns r (List.mem_cons_of_mem _ hr)) fun j hj => hcommon j (List.mem_cons_of_mem _ hj)
    rw [reverse_filterMap_cons, reverse_filterMap_cons]
    cases i with
    | lexeme l => exact hrest.lexeme l
    | run r =>
      rw [pieces, PatternItem.hold?]
      by_cases hvoid : r.isVoid = true
      · rw [if_pos hvoid, if_pos hvoid, TextRun.settle?_of_isVoid hvoid]
        simpa using hrest
      · rw [if_neg hvoid, if_neg hvoid]
        exact hrest.run (hruns r List.mem_cons_self) (hcommon _ List.mem_cons_self) false (by rw [List.length_reverse])

theorem commonIndent_le_indent {i : PatternItem} (hi : i ∈ is) :
    ∀ n ∈ i.indent?, commonIndent (is.filterMap PatternItem.indent?) ≤ n :=
  fun _ hn => commonIndent_le (List.mem_filterMap.2 ⟨i, hi, hn⟩)

/-- **The pieces of a pattern that is cut short** are filled in. -/
theorem finish?_pieces (hruns : ∀ r, .run r ∈ is → r.At source) (before : List Lexeme) :
    Checked.finish? source (pieces before.length is) false (before ++ (is.filterMap PatternItem.hold?).reverse) =
      some (before ++ (dedent is).reverse) := by
  have hsettles := settles_pieces hruns (fun _ hi => commonIndent_le_indent hi) before
  rw [← filterMap_indent_pieces before.length is] at hsettles
  rw [hsettles.finish?, filterMap_indent_pieces, dedent]

/-- **The pieces of a pattern that ends with a run of text** are filled in, and the run is trimmed. -/
theorem finish?_run {r : TextRun} (hvoid : r.isVoid = false) (hruns : ∀ q, .run q ∈ .run r :: is → q.At source)
    (before : List Lexeme) :
    Checked.finish? source (pieces before.length (.run r :: is)) true
        (before ++ ((.run r :: is).filterMap PatternItem.hold?).reverse) =
      some (before ++ (dedent (.run r.trimEnd :: is)).reverse) := by
  have hcommon {i : PatternItem} (hi : i ∈ PatternItem.run r :: is) := commonIndent_le_indent hi
  have hothers := settles_pieces (fun q hq => hruns q (List.mem_cons_of_mem _ hq))
    (fun i hi => hcommon (List.mem_cons_of_mem _ hi)) before
  have hrun := hothers.run (hruns r List.mem_cons_self) (hcommon List.mem_cons_self) true
    (n := before.length + (is.filterMap PatternItem.hold?).length) (by rw [List.length_reverse])
  have hpieces : pieces before.length (.run r :: is) =
      r.piece (before.length + (is.filterMap PatternItem.hold?).length) :: pieces before.length is := by
    rw [pieces, if_neg (by simp [hvoid])]
  rw [← filterMap_indent_pieces before.length, ← hpieces] at hrun
  have hfinish := hrun.finish?
  rw [filterMap_indent_pieces] at hfinish
  rw [reverse_filterMap_cons, PatternItem.hold?, if_neg (by simp [hvoid]), dedent, reverse_filterMap_cons]
  exact hfinish

end Finish

end Fluent
