import Fluent.Grammar.Body
import Fluent.Proofs.Checked.Agreeing
import Fluent.Proofs.Checked.Tokens
import Fluent.Proofs.Fences

/-!
# The body of a resource, with checks

The loop over the tokens of a source, by indices, with the slices of the source that become junk.

* `Checked.bodyFrom?`: the entries of a token stream.
* `Placed`: tokens that stand in their source, none in front of an earlier one; those of `tokenize` do.
* `bodyFrom?_eq`: no check fails.
-/

namespace Fluent

namespace Checked

section Body

variable (source : List Char) (tokens : List Lexeme)

/-- A parser that sees everything. -/
def wholeParser : Parser := ⟨source, tokens, tokens.length⟩

/-- The next index from `n` on where something else begins. -/
def fence? (n : Nat) : Option Nat := do
  if ← (wholeParser source tokens).isFence? n then return n
  else if n < tokens.length then fence? (n + 1)
  else none
termination_by tokens.length - n

/-- Source text as junk, with its slice and its location. -/
def junk? (start stop : Nat) (fault : Fault) : Option Junk := do
  let text ← text? source start stop
  let location ← locate? (.ofChars source) ⟨start, stop⟩
  return ⟨String.ofList text, fault, location⟩

/-- Entries, and the index behind them. -/
structure Items where
  entries : List Entry
  next : Nat

/-- Behind a fault: junk from the token at `start` to the next index where something else begins. -/
def recover? (start cursor : Nat) (fault : Fault) : Option (Entry × Nat) := do
  let first ← tokens[start]?
  let next ← fence? source tokens (max cursor (start + 1))
  let junk ← junk? source first.span.start ((wholeParser source tokens).spanAt next).start fault
  return (.junk junk, next)

/-- The token at an index is a stray line of its own. -/
def isStray? (n : Nat) (l : Lexeme) : Option Bool :=
  if l.token = .unfinishedLine then (wholeParser source tokens).isFence? n else some false

/-- Where stray lines end that go on at an index. -/
def strayEnd? (n stop : Nat) : Option (Nat × Nat) :=
  if n < tokens.length then do
    let l ← tokens[n]?
    if ← isStray? source tokens n l then strayEnd? (n + 1) l.span.stop else return (n, stop)
  else return (n, stop)
termination_by tokens.length - n

/-- The comment at an index, whose lines are read as long as there are any. -/
def comment? (n : Nat) : Option (Comment × Nat) := do
  let lines := (tokens.drop n).takeWhile fun l => (commentPart? l).isSome
  let parts := lines.filterMap commentPart?
  let start := ((wholeParser source tokens).spanAt n).start
  let location ← locate? (.ofChars source) ⟨start, (lines.getLast?.map (·.span.stop)).getD start⟩
  let after := n + lines.length
  return (⟨(parts.getLast?.map (·.1)).getD .comment, "\n".intercalate (parts.map (·.2)), location⟩,
    if tokens[after]?.map (·.token) = some .closeComment then after + 1 else after)

/-- The entry at an index up to the next fence, or the fault found in it. -/
def fenced? (n : Nat) : Option (Except Fault Entry × Nat) := do
  let limit ← fence? source tokens (n + 1)
  Parser.entry ⟨source, tokens, limit⟩ n

/-- An entry that begins at an index, or the junk in its place. -/
def entryOrJunk? (n : Nat) : Option Items := do
  match ← fenced? source tokens n with
  | (.ok e, next) => return ⟨[e], next⟩
  | (.error fault, cursor) =>
    let (junk, next) ← recover? source tokens n cursor fault
    return ⟨[junk], next⟩

/-- An entry under its comment; junk in its place leaves the comment on its own. -/
def documented? (c : Comment) (n : Nat) : Option Items := do
  match ← fenced? source tokens n with
  | (.ok e, next) => return ⟨[e.document c], next⟩
  | (.error fault, cursor) =>
    let (junk, next) ← recover? source tokens n cursor fault
    return ⟨[.comment c, junk], next⟩

/-- Stray lines from an index on, or junk if something else stands there. -/
def strayOrJunk? (n : Nat) (l : Lexeme) : Option Items := do
  if ← isStray? source tokens n l then
    let (next, stop) ← strayEnd? source tokens (n + 1) l.span.stop
    let junk ← junk? source l.span.start stop (.unfinishedLine ⟨l.span.start, stop⟩)
    return ⟨[.junk junk], next⟩
  else
    let (junk, next) ← recover? source tokens n n (.unexpected l.span.start .entryOrComment (.token l.token))
    return ⟨[junk], next⟩

/-- What a body begins with at an index. -/
def item? (n : Nat) (l : Lexeme) : Option Items :=
  match l.token with
  | .blankLines | .closeComment => some ⟨[], n + 1⟩
  | .comment .. => do
    let (c, m) ← comment? source tokens n
    if c.level = .comment ∧ (tokens[m]?.map (·.token.opensEntry)).getD false then documented? source tokens c m
    else return ⟨[.comment c], m⟩
  | .identifier _ | .minus => entryOrJunk? source tokens n
  | _ => strayOrJunk? source tokens n l

/-- The entries from an index on. -/
def bodyFrom? (n : Nat) : Option (List Entry) :=
  if n < tokens.length then do
    let l ← tokens[n]?
    let items ← item? source tokens n l
    let ⟨next, _⟩ ← ahead? n items.next
    let rest ← bodyFrom? next
    return items.entries ++ rest
  else return []
termination_by tokens.length - n

end Body

end Checked

namespace Cursor

variable {source : List Char} {c d : Cursor}

/-- Where a slice may begin or end, a cursor may stand. -/
theorem at_of_fromOffset? {n : Nat} {rest : List Char} (h : fromOffset? n source = some rest) :
    (⟨n, rest⟩ : Cursor).At source := by
  obtain ⟨pre, hsource, hcount⟩ : ∃ pre, source = pre ++ rest ∧ n = byteCount pre := by
    fun_induction fromOffset? n source with
    | case1 cs => exact ⟨[], Option.some.inj h, rfl⟩
    | case2 => cases h
    | case3 n c cs hle ih =>
      obtain ⟨pre, rfl, hcount⟩ := ih h
      exact ⟨c :: pre, rfl, by rw [byteCount, ← hcount]; omega⟩
    | case4 => cases h
  exact ⟨pre, hsource, by rw [hcount]; exact (Nat.zero_add _).symm⟩

namespace At

/-- Between two cursors there is some text. -/
theorem exists_over (hc : c.At source) (hd : d.At source) (hle : c.offset ≤ d.offset) : ∃ text, c.Over text d := by
  obtain ⟨pre, hpre⟩ := hc
  obtain ⟨pre', hpre'⟩ := hd
  have hc : c.offset = byteCount pre := hpre.offset.trans (Nat.zero_add _)
  have hd : d.offset = byteCount pre' := hpre'.offset.trans (Nat.zero_add _)
  rcases List.append_eq_append_iff.1 (hpre.rest.symm.trans hpre'.rest) with ⟨text, rfl, hrest⟩ | ⟨text, rfl, hrest⟩
  · exact ⟨text, hrest, by rw [hc, hd, byteCount_append]⟩
  · -- the second one stands no further on, so there is nothing in between
    have hnil : text = [] := by
      by_contra hne
      have := byteCount_pos hne
      rw [hc, hd, byteCount_append] at hle
      omega
    subst hnil
    exact ⟨[], hrest.symm, by rw [hc, hd, List.append_nil]; rfl⟩

theorem slice? {source : String} (hc : c.At source.toList) (hd : d.At source.toList) (hle : c.offset ≤ d.offset) :
    (Checked.text? source.toList c.offset d.offset).map String.ofList =
      some ((Source.ofString source).slice ⟨c.offset, d.offset⟩) := by
  obtain ⟨text, hover⟩ := hc.exists_over hd hle
  obtain ⟨pre, hpre⟩ := id hc
  rw [hc.text? hover, hpre.slice hover]
  rfl

end At

end Cursor

/-- Tokens that stand in their source, none of which starts in front of an earlier one. They may overlap. -/
structure Placed (source : List Char) (ls : List Lexeme) : Prop where
  start : ∀ l ∈ ls, ∃ c : Cursor, c.At source ∧ c.offset = l.span.start
  stop : ∀ l ∈ ls, ∃ c : Cursor, c.At source ∧ c.offset = l.span.stop
  le : ∀ l ∈ ls, l.span.start ≤ l.span.stop
  ordered : ls.Pairwise fun l m => l.span.start ≤ m.span.start

namespace Placed

variable {source : List Char} {ls : List Lexeme} {l m : Lexeme}

theorem drop (h : Placed source ls) (n : Nat) : Placed source (ls.drop n) :=
  ⟨fun l hl => h.start l (List.mem_of_mem_drop hl), fun l hl => h.stop l (List.mem_of_mem_drop hl),
    fun l hl => h.le l (List.mem_of_mem_drop hl), h.ordered.drop⟩

theorem start_le_stop (h : Placed source (l :: ls)) (hm : m ∈ l :: ls) : l.span.start ≤ m.span.stop := by
  have hle := h.le m hm
  rcases List.mem_cons.1 hm with rfl | hm
  · exact hle
  · exact Nat.le_trans ((List.pairwise_cons.1 h.ordered).1 m hm) hle

end Placed

theorem placed_tokenize (limit : Nat) (source : List Char) : Placed source (tokenize limit source) := by
  obtain ⟨d, -, h⟩ := reads_tokenize limit source
  have hmem (l : Lexeme) (hl : l ∈ tokenize limit source) : ∃ c e : Cursor, c.At source ∧ e.At source ∧
      l.span = ⟨c.offset, e.offset⟩ ∧ c.offset ≤ e.offset := by
    obtain ⟨before, text, c, e, -, h₁, h₂, -, hspan, -⟩ := h.mem (List.mem_reverse.2 hl)
    exact ⟨c, e, ⟨_, h₁⟩, ⟨_, h₁.trans h₂⟩, hspan, h₂.offset_le⟩
  have hle (l : Lexeme) (hl : l ∈ tokenize limit source) : l.span.start ≤ l.span.stop := by
    obtain ⟨c, e, -, -, hspan, hle⟩ := hmem l hl
    rw [hspan]
    exact hle
  have hbehind : (tokenize limit source).Pairwise fun l m => l.span.stop ≤ m.span.start := by
    simpa using List.pairwise_reverse.1 h.pairwise
  refine ⟨?_, ?_, hle, hbehind.imp_of_mem fun hl _ hlm => Nat.le_trans (hle _ hl) hlm⟩
  · intro l hl
    obtain ⟨c, e, hc, -, hspan, -⟩ := hmem l hl
    exact ⟨c, hc, by rw [hspan]⟩
  · intro l hl
    obtain ⟨c, e, -, he, hspan, -⟩ := hmem l hl
    exact ⟨e, he, by rw [hspan]⟩

section Body

variable {source : String} {tokens ls : List Lexeme} {l : Lexeme} {n : Nat}

open Checked

theorem getElem?_of_drop (hnext : tokens.drop n = l :: ls) : tokens[n]? = some l := by
  rw [← List.head?_drop, hnext]
  rfl

theorem lt_length_of_drop (hnext : tokens.drop n = l :: ls) : n < tokens.length :=
  (List.getElem?_eq_some_iff.1 (getElem?_of_drop hnext)).1

theorem not_lt_length_of_drop (hnext : tokens.drop n = []) : ¬ n < tokens.length :=
  Nat.not_lt.2 (List.drop_eq_nil_iff.1 hnext)

theorem drop_succ (hnext : tokens.drop n = l :: ls) : tokens.drop (n + 1) = ls := by
  rw [← List.tail_drop, hnext]
  rfl

/-- A run behind a token ends with the tokens at the latest. -/
theorem run_le_length (hnext : tokens.drop n = l :: ls) (q : Lexeme → Bool) :
    n + 1 + (ls.takeWhile q).length ≤ tokens.length := by
  have hlength := congrArg List.length hnext
  have hrun : (ls.takeWhile q).length ≤ ls.length := (List.takeWhile_prefix q).length_le
  rw [List.length_drop, List.length_cons] at hlength
  omega

theorem isLineStart?_eq {p : Parser} {c : Cursor} (hc : c.At p.source) :
    p.isLineStart? c.offset = some ((LineMap.ofChars p.source).isLineStart c.offset) := by
  obtain ⟨pre, hpre⟩ := hc
  have hsource : p.source = pre ++ c.rest := hpre.rest
  have hoffset : c.offset = byteCount pre := hpre.offset.trans (Nat.zero_add _)
  have hline := LineMap.isLineStart_iff pre c.rest
  rw [← hsource, ← hoffset] at hline
  rcases List.eq_nil_or_concat pre with rfl | ⟨init, x, rfl⟩
  · rw [Parser.isLineStart?, if_pos (show c.offset = 0 from hoffset), hline.2 (.inl rfl)]
  · rw [List.concat_eq_append] at hpre hoffset hline
    have hpos := x.utf8Size_pos
    have hne : 1 ≤ c.offset := by
      rw [hoffset, byteCount_append, byteCount]
      omega
    have hbyte : (utf8 p.source)[c.offset - 1]? = some (lastByte x) :=
      (Cursor.at_ofChars p.source).byte? hpre List.getLast?_concat
    have hlast : lastByte x = UInt8.ofNat '\n'.toNat ↔ x = '\n' := lastByte_eq_iff (by decide)
    have hbreak : AtLineStart (init ++ [x]) ↔ x = '\n' := by simp [AtLineStart]
    rw [Parser.isLineStart?, if_neg (by omega), minus?_of_le hne, Option.bind_eq_bind, Option.bind_some, hbyte,
      Option.pure_def, Option.some.injEq, Bool.eq_iff_iff, beq_iff_eq, Option.some.injEq, hlast, hline, hbreak]

/-- Where something else begins. -/
theorem isFence?_eq (hplaced : Placed source.toList tokens) (hnext : tokens.drop n = l :: ls) (limit : Nat) :
    Parser.isFence? ⟨source.toList, tokens, limit⟩ n = some (isFence (.ofString source) l) := by
  have hl := getElem?_of_drop hnext
  obtain ⟨c, hc, hstart⟩ := hplaced.start l (List.mem_of_getElem? hl)
  have hline := isLineStart?_eq (p := ⟨source.toList, tokens, limit⟩) hc
  rw [hstart] at hline
  unfold Parser.isFence? isFence
  simp only [hl, hline]
  cases l.token.startsItem <;> rfl

theorem isFence?_nil (hnext : tokens.drop n = []) (limit : Nat) :
    Parser.isFence? ⟨source.toList, tokens, limit⟩ n = some true := by
  have hnone : tokens[n]? = none := by rw [← List.head?_drop, hnext]; rfl
  unfold Parser.isFence?
  simp only [hnone]

/-- The next index where something else begins is behind the tokens in front of it. -/
theorem fence?_eq (hplaced : Placed source.toList tokens) (hnext : tokens.drop n = ls) :
    fence? source.toList tokens n = some (n + (beforeFence (.ofString source) ls).length) := by
  induction ls generalizing n with
  | nil =>
    rw [fence?, wholeParser, isFence?_nil hnext]
    rfl
  | cons l ls ih =>
    rw [fence?, wholeParser, isFence?_eq hplaced hnext]
    cases hfence : isFence (.ofString source) l with
    | true => simp [beforeFence, hfence]
    | false =>
      have hmore := ih (drop_succ hnext)
      rw [beforeFence] at hmore
      simp [beforeFence, hfence, hmore, lt_length_of_drop hnext]
      omega

/-- The index of the fence behind a token. -/
theorem drop_fence (hnext : tokens.drop n = l :: ls) :
    tokens.drop (n + 1 + (beforeFence (.ofString source) ls).length) = fromFence (.ofString source) ls := by
  rw [← List.drop_drop, drop_succ hnext, beforeFence, fromFence]
  conv_lhs => arg 2; rw [← List.takeWhile_append_dropWhile (p := (!isFence (.ofString source) ·)) (l := ls)]
  exact List.drop_left

/-- The tokens of an entry are those up to the fence. -/
theorem drop_take_fence (hnext : tokens.drop n = l :: ls) :
    (tokens.take (n + 1 + (beforeFence (.ofString source) ls).length)).drop n = l :: beforeFence (.ofString source) ls := by
  have htake : ls.take (beforeFence (.ofString source) ls).length = beforeFence (.ofString source) ls := by
    rw [beforeFence]
    conv_lhs => arg 2; rw [← List.takeWhile_append_dropWhile (p := (!isFence (.ofString source) ·)) (l := ls)]
    exact List.take_left
  rw [List.drop_take, hnext, Nat.add_assoc, Nat.add_sub_cancel_left, Nat.add_comm, List.take_succ_cons, htake]

/-- A fence stands at the limit of an entry, or the tokens end there. -/
theorem isFence?_limit (hplaced : Placed source.toList tokens) (hnext : tokens.drop n = fromFence (.ofString source) ls)
    (limit : Nat) : Parser.isFence? ⟨source.toList, tokens, limit⟩ n = some true := by
  have hfirst := List.head?_dropWhile_not (!isFence (.ofString source) ·) ls
  rw [← fromFence] at hfirst
  cases hfence : fromFence (.ofString source) ls with
  | nil => exact isFence?_nil (hnext.trans hfence) limit
  | cons x xs =>
    rw [hfence] at hfirst
    rw [isFence?_eq hplaced (hnext.trans hfence)]
    simpa using hfirst

/-- No fence stands inside an entry. -/
theorem isFence?_inside (hplaced : Placed source.toList tokens) (hnext : tokens.drop n = l :: ls) {m : Nat} (hn : n < m)
    (hm : m < n + 1 + (beforeFence (.ofString source) ls).length) (limit : Nat) :
    Parser.isFence? ⟨source.toList, tokens, limit⟩ m = some false := by
  obtain ⟨j, rfl⟩ := Nat.exists_eq_add_of_le hn
  have hj : j < (beforeFence (.ofString source) ls).length := by omega
  have hrun : beforeFence (.ofString source) ls <+: ls := List.takeWhile_prefix _
  have hdrop : tokens.drop (n + 1 + j) = (beforeFence (.ofString source) ls)[j] :: ls.drop (j + 1) := by
    rw [← List.drop_drop, drop_succ hnext, List.drop_eq_getElem_cons (Nat.lt_of_lt_of_le hj hrun.length_le),
      hrun.getElem hj]
  rw [Nat.succ_eq_add_one, isFence?_eq hplaced hdrop]
  have hinside := List.mem_takeWhile_imp (List.getElem_mem hj)
  simpa using hinside

/-- The parser of an entry sees its tokens. -/
theorem fits_fence {m : Nat} (hm : m ≤ tokens.length) (hnext : tokens.drop m = ls) :
    Parser.Fits ⟨source.toList, tokens, m⟩ (fenceAt (.ofString source) ls) := by
  have hhead : tokens[m]? = ls.head? := by rw [← List.head?_drop, hnext]
  cases ls with
  | nil => exact ⟨hm, rfl, by simp [Parser.spanAt, hhead, fenceAt]; rfl, by simp [Parser.foundAt, hhead, fenceAt]⟩
  | cons l ls => exact ⟨hm, rfl, by simp [Parser.spanAt, hhead, fenceAt], by simp [Parser.foundAt, hhead, fenceAt]⟩

/-- **The entry at an index** is read up to the next fence. -/
theorem fenced?_eq (hplaced : Placed source.toList tokens) (hnext : tokens.drop n = l :: ls) {limit : Nat}
    (hlimit : n + 1 + (beforeFence (.ofString source) ls).length = limit) :
    ∃ cursor ≤ limit, fenced? source.toList tokens n = some (fencedEntry (.ofString source) l ls, cursor) ∧
      ∀ e, fencedEntry (.ofString source) l ls = .ok e → cursor = limit := by
  have hfits : Parser.Fits ⟨source.toList, tokens, limit⟩ (fenceAt (.ofString source) _) :=
    fits_fence (hlimit ▸ run_le_length hnext _) (hlimit ▸ drop_fence hnext)
  have hstands : Parser.Stands ⟨source.toList, tokens, limit⟩
      ⟨l :: beforeFence (.ofString source) ls, lastEnd (tokens.take n)⟩ n :=
    ⟨show n ≤ limit by omega, (hlimit ▸ drop_take_fence hnext).symm, rfl⟩
  have hentry := Parser.agrees_entry hfits hstands
    (fun m hn hm => isFence?_inside hplaced hnext hn (hlimit ▸ hm) limit)
    (isFence?_limit hplaced (hlimit ▸ drop_fence hnext) limit)
  rw [entry_readTo _ _ (lastEnd (tokens.take n)) 0] at hentry
  have hread : fenced? source.toList tokens n = Parser.entry ⟨source.toList, tokens, limit⟩ n := by
    rw [fenced?, fence?_eq hplaced (drop_succ hnext), hlimit]
    rfl
  rw [hread]
  change Parser.Agrees _ _ (fencedEntry (.ofString source) l ls) _ at hentry
  generalize fencedEntry (.ofString source) l ls = r at hentry ⊢
  generalize Parser.entry ⟨source.toList, tokens, limit⟩ n = x at hentry ⊢
  cases hentry with
  | ok h =>
    obtain ⟨rfl, hcursor⟩ := h
    exact ⟨limit, Nat.le_refl limit, by rw [hcursor], fun _ _ => rfl⟩
  | error h =>
    refine ⟨_, h, rfl, ?_⟩
    intro e he
    cases he

/-- A slice of the source from one place to another, as junk. -/
theorem junk?_eq {c d : Cursor} (hc : c.At source.toList) (hd : d.At source.toList) (hle : c.offset ≤ d.offset)
    (fault : Fault) :
    junk? source.toList c.offset d.offset fault = some (junkFrom (.ofString source) c.offset d.offset fault) := by
  obtain ⟨text, htext⟩ := hc.exists_over hd hle
  have hslice := hc.slice? hd hle
  rw [hc.text? htext, Option.map_some, Option.some.injEq] at hslice
  simp only [junk?, hc.text? htext, locate?_eq, Option.bind_eq_bind, Option.bind_some, hslice]
  rfl

/-- What is behind a token begins where it begins or further on. -/
theorem spanAt_fence (hplaced : Placed source.toList tokens) (hnext : tokens.drop n = l :: ls) {m : Nat} (hm : n < m)
    {ms : List Lexeme} (hfence : tokens.drop m = ms) :
    ∃ d : Cursor, d.At source.toList ∧ (fenceAt (.ofString source) ms).position = d.offset ∧
      ((wholeParser source.toList tokens).spanAt m).start = d.offset ∧ l.span.start ≤ d.offset := by
  have hl := getElem?_of_drop hnext
  have hhead : tokens[m]? = ms.head? := by rw [← List.head?_drop, hfence]
  cases ms with
  | nil =>
    obtain ⟨c, hc, hstart⟩ := hplaced.start l (List.mem_of_getElem? hl)
    have hend : (⟨byteCount source.toList, []⟩ : Cursor).At source.toList :=
      ⟨source.toList, (List.append_nil _).symm, (Nat.zero_add _).symm⟩
    have hle := hc.offset_add
    refine ⟨_, hend, rfl, by simp [wholeParser, Parser.spanAt, hhead, Span.at], ?_⟩
    rw [← hstart]
    show c.offset ≤ byteCount source.toList
    omega
  | cons x xs =>
    have hx : tokens[m]? = some x := hhead
    obtain ⟨d, hd, hstart⟩ := hplaced.start x (List.mem_of_getElem? hx)
    obtain ⟨hnl, rfl⟩ := List.getElem?_eq_some_iff.1 hl
    obtain ⟨hmx, rfl⟩ := List.getElem?_eq_some_iff.1 hx
    have hordered := List.pairwise_iff_getElem.1 hplaced.ordered n m hnl hmx hm
    exact ⟨d, hd, hstart.symm, by simp [wholeParser, Parser.spanAt, hx, hstart], by omega⟩

/-- From within a run, what is left of it. -/
theorem takeWhile_drop_of_le {α : Type} (q : α → Bool) {xs : List α} {j : Nat} (h : j ≤ (xs.takeWhile q).length) :
    (xs.drop j).takeWhile q = (xs.takeWhile q).drop j := by
  induction xs generalizing j with
  | nil => simp
  | cons x xs ih =>
    cases j with
    | zero => rfl
    | succ j =>
      by_cases hx : q x = true
      · rw [List.takeWhile_cons_of_pos hx] at h ⊢
        exact ih (Nat.le_of_succ_le_succ h)
      · rw [List.takeWhile_cons_of_neg hx] at h
        cases h

/-- **Behind a fault** the junk goes up to the next fence, wherever the fault was found before it. -/
theorem recover?_eq (hplaced : Placed source.toList tokens) (hnext : tokens.drop n = l :: ls) {limit cursor : Nat}
    (hlimit : n + 1 + (beforeFence (.ofString source) ls).length = limit) (hcursor : cursor ≤ limit) (fault : Fault) :
    recover? source.toList tokens n cursor fault = some (fencedJunk (.ofString source) l ls fault, limit) := by
  have hl := getElem?_of_drop hnext
  obtain ⟨j, hj⟩ := Nat.exists_eq_add_of_le (Nat.le_max_right cursor (n + 1))
  have hle : j ≤ (beforeFence (.ofString source) ls).length := by omega
  have hdrop : tokens.drop (n + 1 + j) = ls.drop j := by rw [← List.drop_drop, drop_succ hnext]
  have hfence : fence? source.toList tokens (n + 1 + j) = some limit := by
    rw [fence?_eq hplaced hdrop, beforeFence, takeWhile_drop_of_le _ hle, ← beforeFence, List.length_drop,
      Option.some.injEq]
    omega
  obtain ⟨c, hc, hstart⟩ := hplaced.start l (List.mem_of_getElem? hl)
  obtain ⟨d, hd, hposition, hspan, hbehind⟩ :=
    spanAt_fence hplaced hnext (show n < limit by omega) (hlimit ▸ drop_fence hnext)
  have hjunk := junk?_eq hc hd (by omega) fault
  rw [hstart] at hjunk
  simp only [recover?, hl, hj, hfence, hspan, hjunk, Option.bind_eq_bind, Option.bind_some, fencedJunk, hposition]
  rfl

theorem isStray?_eq (hplaced : Placed source.toList tokens) (hnext : tokens.drop n = l :: ls) :
    isStray? source.toList tokens n l = some (isUnfinishedFence (.ofString source) l) := by
  rw [isStray?, wholeParser, isFence?_eq hplaced hnext, isUnfinishedFence]
  split
  · rename_i htoken
    rw [htoken]
    rfl
  · rename_i htoken
    rw [beq_false_of_ne htoken, Bool.false_and]

/-- Stray lines go on as long as each one begins at a line start. -/
theorem strayEnd?_eq (hplaced : Placed source.toList tokens) (hnext : tokens.drop n = ls) (l : Lexeme) :
    strayEnd? source.toList tokens n l.span.stop =
      some (n + (ls.takeWhile (isUnfinishedFence (.ofString source))).length,
        ((l :: ls.takeWhile (isUnfinishedFence (.ofString source))).getLast?.getD l).span.stop) := by
  induction ls generalizing n l with
  | nil =>
    rw [strayEnd?, if_neg (not_lt_length_of_drop hnext)]
    rfl
  | cons m ms ih =>
    rw [strayEnd?, if_pos (lt_length_of_drop hnext)]
    simp only [getElem?_of_drop hnext, isStray?_eq hplaced hnext, Option.bind_eq_bind, Option.bind_some,
      ih (drop_succ hnext) m]
    cases hstray : isUnfinishedFence (.ofString source) m with
    | true =>
      rw [List.takeWhile_cons_of_pos hstray, List.getLast?_cons_cons, List.getLast?_cons]
      simp [Nat.add_assoc, Nat.add_comm]
    | false =>
      rw [List.takeWhile_cons_of_neg (by simp [hstray])]
      rfl

/-- Stray lines that begin with a token, as one piece of junk. -/
theorem junk?_stray (hplaced : Placed source.toList tokens) (hnext : tokens.drop n = l :: ls) :
    let stop := ((l :: ls.takeWhile (isUnfinishedFence (.ofString source))).getLast?.getD l).span.stop
    (junk? source.toList l.span.start stop (.unfinishedLine ⟨l.span.start, stop⟩)).map Entry.junk =
      some (strayJunk (.ofString source) l (ls.takeWhile (isUnfinishedFence (.ofString source)))) := by
  have hbehind := hplaced.drop n
  rw [hnext] at hbehind
  have hlast : (l :: ls.takeWhile (isUnfinishedFence (.ofString source))).getLast?.getD l ∈ l :: ls := by
    rw [List.getLast?_eq_some_getLast (List.cons_ne_nil _ _), Option.getD_some]
    exact List.Sublist.subset ((List.takeWhile_sublist _).cons_cons l) (List.getLast_mem _)
  intro stop
  obtain ⟨c, hc, hstart⟩ := hbehind.start l List.mem_cons_self
  obtain ⟨d, hd, hstop⟩ := hbehind.stop _ hlast
  have hle := hbehind.start_le_stop hlast
  have hjunk := junk?_eq hc hd (by omega) (.unfinishedLine ⟨c.offset, d.offset⟩)
  rw [hstart, hstop] at hjunk
  rw [hjunk]
  rfl

/-- A comment, and the index behind it. -/
theorem comment?_eq (hnext : tokens.drop n = l :: ls) (hl : (commentPart? l).isSome = true) :
    ∃ m ≤ tokens.length, tokens.drop m = afterComment ls ∧ comment? source.toList tokens n =
      some (joinComment (.ofString source) l (ls.takeWhile fun l => (commentPart? l).isSome), m) := by
  have hspan : ((wholeParser source.toList tokens).spanAt n) = l.span := by
    have hl := getElem?_of_drop hnext
    simp [wholeParser, Parser.spanAt, hl]
  have hlines : (l :: ls).takeWhile (fun l => (commentPart? l).isSome) =
      l :: ls.takeWhile fun l => (commentPart? l).isSome := List.takeWhile_cons_of_pos hl
  have hafter : tokens.drop (n + (l :: ls.takeWhile fun l => (commentPart? l).isSome).length) =
      ls.dropWhile fun l => (commentPart? l).isSome := by
    rw [List.length_cons, ← Nat.add_assoc, Nat.add_right_comm, ← List.drop_drop, drop_succ hnext]
    conv_lhs => arg 2; rw [← List.takeWhile_append_dropWhile (p := fun l => (commentPart? l).isSome) (l := ls)]
    exact List.drop_left
  have hstart := run_le_length hnext fun l => (commentPart? l).isSome
  generalize ls.takeWhile (fun l => (commentPart? l).isSome) = lines at hlines hafter hstart ⊢
  have hstop : (((l :: lines).getLast?.map (·.span.stop)).getD l.span.start) =
      ((l :: lines).getLast?.getD l).span.stop := by
    rw [List.getLast?_eq_some_getLast (List.cons_ne_nil _ _)]
    rfl
  have hclose : tokens[n + (l :: lines).length]? = (ls.dropWhile fun l => (commentPart? l).isSome).head? := by
    rw [← List.head?_drop, hafter]
  simp only [comment?, hnext, hlines, hspan, hstop, locate?_eq, hclose, Option.bind_eq_bind, Option.bind_some]
  refine ⟨_, ?_, ?_, rfl⟩
  · split
    · rename_i hmarker
      obtain ⟨close, hbehind, -⟩ := Option.map_eq_some_iff.1 hmarker
      exact (List.getElem?_eq_some_iff.1 (hclose.trans hbehind)).1
    · rw [List.length_cons]
      omega
  unfold afterComment
  generalize ls.dropWhile (fun l => (commentPart? l).isSome) = behind at hafter ⊢
  split
  · rename_i hmarker
    rcases behind with _ | ⟨⟨t, span⟩, rest⟩
    · cases hmarker
    · obtain rfl : t = .closeComment := Option.some.inj hmarker
      exact drop_succ hafter
  · rename_i hmarker
    rw [hafter]
    split
    · exact absurd rfl hmarker
    · rfl

theorem entryOrJunk?_eq (hplaced : Placed source.toList tokens) (hnext : tokens.drop n = l :: ls) :
    ∃ m ≤ tokens.length, tokens.drop m = fromFence (.ofString source) ls ∧
      entryOrJunk? source.toList tokens n = some ⟨[entryOrJunk (.ofString source) l ls], m⟩ := by
  obtain ⟨cursor, hcursor, hentry, hok⟩ := fenced?_eq hplaced hnext rfl
  refine ⟨_, run_le_length hnext _, drop_fence hnext, ?_⟩
  simp only [entryOrJunk?, hentry, Option.bind_eq_bind, Option.bind_some, entryOrJunk]
  cases hread : fencedEntry (.ofString source) l ls with
  | ok e =>
    rw [hok e hread]
    rfl
  | error fault =>
    simp only [recover?_eq hplaced hnext rfl hcursor, Option.bind_some]
    rfl

theorem documented?_eq (hplaced : Placed source.toList tokens) (hnext : tokens.drop n = l :: ls) (c : Comment) :
    ∃ m ≤ tokens.length, tokens.drop m = fromFence (.ofString source) ls ∧
      documented? source.toList tokens c n = some ⟨documentedEntry (.ofString source) c l ls, m⟩ := by
  obtain ⟨cursor, hcursor, hentry, hok⟩ := fenced?_eq hplaced hnext rfl
  refine ⟨_, run_le_length hnext _, drop_fence hnext, ?_⟩
  simp only [documented?, hentry, Option.bind_eq_bind, Option.bind_some, documentedEntry]
  cases hread : fencedEntry (.ofString source) l ls with
  | ok e =>
    rw [hok e hread]
    rfl
  | error fault =>
    simp only [recover?_eq hplaced hnext rfl hcursor, Option.bind_some]
    rfl

theorem strayOrJunk?_eq (hplaced : Placed source.toList tokens) (hnext : tokens.drop n = l :: ls) :
    ∃ m ≤ tokens.length, ∃ entries, strayOrJunk? source.toList tokens n l = some ⟨entries, m⟩ ∧ (entries, tokens.drop m) =
      if isUnfinishedFence (.ofString source) l then
        ([strayJunk (.ofString source) l (ls.takeWhile (isUnfinishedFence (.ofString source)))],
          ls.dropWhile (isUnfinishedFence (.ofString source)))
      else
        ([fencedJunk (.ofString source) l ls (.unexpected l.span.start .entryOrComment (.token l.token))],
          fromFence (.ofString source) ls) := by
  have hjunk := junk?_stray hplaced hnext
  simp only [strayOrJunk?, isStray?_eq hplaced hnext, strayEnd?_eq hplaced (drop_succ hnext),
    recover?_eq hplaced hnext rfl (show n ≤ _ by omega), Option.bind_eq_bind, Option.bind_some]
  cases isUnfinishedFence (.ofString source) l with
  | true =>
    obtain ⟨j, hj, hstray⟩ := Option.map_eq_some_iff.1 hjunk
    refine ⟨_, run_le_length hnext _, _, by rw [if_pos rfl, hj]; rfl, ?_⟩
    rw [if_pos rfl, hstray, ← List.drop_drop, drop_succ hnext]
    conv_lhs => arg 2; arg 2; rw [← List.takeWhile_append_dropWhile (p := isUnfinishedFence (.ofString source)) (l := ls)]
    rw [List.drop_left]
  | false =>
    refine ⟨n + 1 + (beforeFence (.ofString source) ls).length, run_le_length hnext _, _, rfl, ?_⟩
    rw [drop_fence hnext]
    rfl

/-- A comment, and the entry under it if there is one. -/
theorem item?_comment (hplaced : Placed source.toList tokens) (hnext : tokens.drop n = l :: ls) {level : CommentLevel}
    {content : String} (hl : l.token = .comment level content) :
    ∃ m ≤ tokens.length, tokens.drop m = (item (.ofString source) l ls).2 ∧
      item? source.toList tokens n l = some ⟨(item (.ofString source) l ls).1, m⟩ := by
  have hcommentLine : (commentPart? l).isSome = true := by rw [commentPart?, hl]; rfl
  obtain ⟨m, hle, hm, hcomment⟩ : ∃ m ≤ _, _ ∧ comment? source.toList tokens n = _ := comment?_eq hnext hcommentLine
  have hhead : tokens[m]? = (afterComment ls).head? := by rw [← List.head?_drop, hm]
  simp only [item?, item, hl, hcomment, hhead, Option.bind_eq_bind, Option.bind_some]
  generalize afterComment ls = after at hm ⊢
  cases after with
  | nil => exact ⟨m, hle, hm, by simp⟩
  | cons e es =>
    simp only [List.head?_cons, Option.map_some, Option.getD_some]
    split
    · rename_i hdocuments
      obtain ⟨stop, hlimit, hstop, hentry⟩ := documented?_eq hplaced hm _
      exact ⟨stop, hlimit, hstop, (if_pos hdocuments).trans hentry⟩
    · rename_i hdocuments
      exact ⟨m, hle, hm, if_neg hdocuments⟩

/-- **What a body begins with** at an index: no check fails. -/
theorem item?_eq (hplaced : Placed source.toList tokens) (hnext : tokens.drop n = l :: ls) :
    ∃ m ≤ tokens.length, tokens.drop m = (item (.ofString source) l ls).2 ∧
      item? source.toList tokens n l = some ⟨(item (.ofString source) l ls).1, m⟩ := by
  have hstray := strayOrJunk?_eq hplaced hnext
  have hentry := entryOrJunk?_eq hplaced hnext
  obtain ⟨t, span⟩ := l
  cases t with
  | blankLines => exact ⟨n + 1, lt_length_of_drop hnext, drop_succ hnext, rfl⟩
  | closeComment => exact ⟨n + 1, lt_length_of_drop hnext, drop_succ hnext, rfl⟩
  | comment level content => exact item?_comment hplaced hnext rfl
  | identifier name => exact hentry
  | minus => exact hentry
  | _ =>
    obtain ⟨m, hle, entries, hread, hitem⟩ := hstray
    exact ⟨m, hle, congrArg Prod.snd hitem, hread.trans (congrArg (fun i => some (Items.mk i.1 m)) hitem)⟩

/-- **The entries of a token stream** that stands in its source: no check fails. -/
theorem bodyFrom?_eq (hplaced : Placed source.toList tokens) (hnext : tokens.drop n = ls) :
    bodyFrom? source.toList tokens n = some (body (.ofString source) ls) := by
  fun_induction body (.ofString source) ls generalizing n with
  | case1 =>
    rw [bodyFrom?, if_neg (not_lt_length_of_drop hnext)]
    rfl
  | case2 l ls i =>
    rename_i ih
    obtain ⟨m, -, hm, hitem⟩ := item?_eq hplaced hnext
    -- an item takes at least the token that it begins with
    have hahead : n < m := by
      have hleft := congrArg List.length hm
      have hhere := congrArg List.length hnext
      have hle := length_item_le (.ofString source) l ls
      rw [List.length_drop] at hleft hhere
      rw [List.length_cons] at hhere
      omega
    rw [bodyFrom?, if_pos (lt_length_of_drop hnext)]
    simp only [getElem?_of_drop hnext, hitem, ahead?_of_lt hahead, ih hm, Option.bind_eq_bind, Option.bind_some]
    rfl

end Body

end Fluent
