import Fluent.Proofs.Spelling
import Fluent.Token.Run

/-!
# Accounts

Items account for a stretch of a source if each one is spelled by the text at its place and only layout
stands between them.

* `Reads P c t is d`: the items `is`, the latest first, account for the text `t` from `c` to `d`, and
  each token satisfies `P` with the text before it.
* `Reads.append`: accounts of consecutive stretches make one.
* `Reads.unwind`: dedenting the open patterns of a machine keeps the account.
* `Reads.mem`, `Reads.pairwise`, `Reads.uncovered`: what an account says of a list of tokens.
-/

namespace Fluent

/-- The span lies over a byte, which is given by its offset: the start is the first byte that it lies over, and the stop
is behind the last one. -/
def Span.covers (s : Span) (k : Nat) : Prop := s.start ≤ k ∧ k < s.stop

/-- The items, the latest first, account for the text from `c` to a cursor: every one of them is spelled by its part,
and the rest is layout. `P` relates each token to the text before it. Whatever the machine and the blocks read is
followed by this relation, so that nothing of a text is lost or read twice. -/
inductive Reads (P : List Char → Token → Prop) (c : Cursor) :
    List Char → List PatternItem → Cursor → Prop
  | start : Reads P c [] [] c
  | layout {t is d x rest} : Reads P c t is d → d.rest = x :: rest → isLayout x = true →
      Reads P c (t ++ [x]) is ⟨d.offset + 1, rest⟩
  | run {t is d r e} : Reads P c t is d → (∀ value, P t (.pureText value)) → d.Over r.text e →
      r.start = d.offset → Reads P c (t ++ r.text) (.run r :: is) e
  | lexeme {t is d text e l} : Reads P c t is d → P t l.token → d.Over text e →
      l.span = ⟨d.offset, e.offset⟩ → l.token.SpelledBy text →
      Reads P c (t ++ text) (.lexeme l :: is) e

namespace Reads

variable {P Q : List Char → Token → Prop} {c d e : Cursor} {t u : List Char} {is js : List PatternItem}

theorem stretch (h : Reads P c t is d) : c.Over t d := by
  induction h with
  | start => exact .refl c
  | layout _ hrest hx ih => exact ih.trans (.ofLayout hrest hx)
  | run _ _ hover _ ih => exact ih.trans hover
  | lexeme _ _ hover _ _ ih => exact ih.trans hover

theorem layouts (h : Reads P c t is d) {gap : List Char} (hgap : ∀ x ∈ gap, isLayout x = true)
    (hover : d.Over gap e) : Reads P c (t ++ gap) is e := by
  induction gap generalizing t d with
  | nil =>
    obtain ⟨dOffset, dRest⟩ := d
    obtain ⟨eOffset, eRest⟩ := e
    -- over no text a cursor does not move
    obtain ⟨rfl, rfl⟩ : dRest = eRest ∧ eOffset = dOffset := by
      simpa [byteCount] using And.intro hover.1 hover.2
    simpa using h
  | cons x gap ih =>
    have hx := hgap x (by simp)
    have hoffset : e.offset = d.offset + 1 + byteCount gap := by
      rw [hover.offset, byteCount, utf8Size_of_isLayout hx]
      omega
    have hnext := ih (h.layout hover.rest hx) (fun y hy => hgap y (by simp [hy])) ⟨rfl, hoffset⟩
    simpa using hnext

theorem mono (h : Reads P c t is d) (hPQ : ∀ t k, P t k → Q t k) : Reads Q c t is d := by
  induction h with
  | start => exact .start
  | layout _ hrest hx ih => exact ih.layout hrest hx
  | run _ hP hover hstart ih => exact ih.run (fun value => hPQ _ _ (hP value)) hover hstart
  | lexeme _ hP hover hspan hspelled ih => exact ih.lexeme (hPQ _ _ hP) hover hspan hspelled

/-- One account after the other. -/
theorem append (h₁ : Reads P c t is d) (h₂ : Reads Q d u js e) (hQP : ∀ v k, Q v k → P (t ++ v) k) :
    Reads P c (t ++ u) (js ++ is) e := by
  induction h₂ with
  | start => simpa using h₁
  | layout _ hrest hx ih =>
    rw [← List.append_assoc]
    exact ih.layout hrest hx
  | run _ hQ hover hstart ih =>
    rw [← List.append_assoc]
    exact ih.run (fun value => hQP _ _ (hQ value)) hover hstart
  | lexeme _ hQ hover hspan hspelled ih =>
    rw [← List.append_assoc]
    exact ih.lexeme (hQP _ _ hQ) hover hspan hspelled

/-- Items may be settled as long as each of them is replaced by nothing or by one item with its text. -/
theorem filterMap {f : PatternItem → Option Lexeme} (h : Reads P c t (is ++ js) d)
    (hrun : ∀ r, f (.run r) = none ∧ r.text = [] ∨
      ∃ value, f (.run r) = some ⟨.pureText value, ⟨r.start, r.start + byteCount r.text⟩⟩ ∧
        (Token.pureText value).SpelledBy r.text)
    (hlexeme : ∀ l, f (.lexeme l) = some l) :
    Reads P c t ((is.filterMap f).map .lexeme ++ js) d := by
  -- the account of `is ++ js` ends at the front of `is`, or of `js` once nothing is left to settle
  generalize hall : is ++ js = all at h
  induction h generalizing is js with
  | start =>
    obtain ⟨rfl, rfl⟩ := List.append_eq_nil_iff.1 hall
    exact .start
  | layout _ hrest hx ih => exact (ih hall).layout hrest hx
  | @run t all d r e hreads hP hover hstart ih =>
    cases is with
    | nil =>
      obtain rfl : js = .run r :: all := hall
      exact hreads.run hP hover hstart
    | cons i is =>
      obtain ⟨rfl, rfl⟩ := List.cons.inj hall
      rcases hrun r with ⟨hnone, hnil⟩ | ⟨value, hsome, hspelled⟩
      · rw [List.filterMap_cons_none hnone]
        exact (ih rfl).layouts (by simp [hnil]) hover
      · rw [List.filterMap_cons_some hsome, List.map_cons, List.cons_append]
        refine (ih rfl).lexeme (hP _) hover ?_ hspelled
        rw [hover.offset, hstart]
  | @lexeme t all d text e l hreads hP hover hspan hspelled ih =>
    cases is with
    | nil =>
      obtain rfl : js = .lexeme l :: all := hall
      exact hreads.lexeme hP hover hspan hspelled
    | cons i is =>
      obtain ⟨rfl, rfl⟩ := List.cons.inj hall
      rw [List.filterMap_cons_some (hlexeme l), List.map_cons, List.cons_append]
      exact (ih rfl).lexeme hP hover hspan hspelled

/-- A run in a pattern of any indentation is a token with its text, or it is empty. -/
theorem settle_run (common : Nat) (r : TextRun) :
    (PatternItem.run r).settle? common = none ∧ r.text = [] ∨
      ∃ value, (PatternItem.run r).settle? common =
          some ⟨.pureText value, ⟨r.start, r.start + byteCount r.text⟩⟩ ∧
        (Token.pureText value).SpelledBy r.text := by
  simp only [PatternItem.settle?]
  split
  · rename_i hvalue
    exact .inl ⟨rfl, (List.append_eq_nil_iff.1 hvalue).2⟩
  · rename_i hvalue
    refine .inr ⟨_, rfl, fun hempty => hvalue ?_, _, _, String.toList_ofList⟩
    rw [← String.toList_ofList (l := r.value common), hempty]
    rfl

/-- Dedenting the innermost pattern keeps the account. -/
theorem dedent (h : Reads P c t (is ++ js) d) :
    Reads P c t ((Fluent.dedent is).map .lexeme ++ js) d :=
  h.filterMap (settle_run _) fun _ => rfl

/-- The blanks at the end of the last run are layout. -/
theorem trimEnd {r : TextRun} (h : Reads P c t (.run r :: is) d) :
    Reads P c t (.run r.trimEnd :: is) d := by
  generalize hall : PatternItem.run r :: is = all at h
  induction h with
  | start => simp at hall
  | layout _ hrest hx ih => exact (ih hall).layout hrest hx
  | @run t is' d r' e hreads hP hover hstart =>
    obtain ⟨hr, rfl⟩ := List.cons.inj hall
    obtain rfl := PatternItem.run.inj hr
    have hblanks : ∀ x ∈ (r.text.reverse.takeWhile Line.isBlankChar).reverse, isLayout x = true :=
      fun x hx => isLayout_of_isBlankChar (List.mem_takeWhile_imp (List.mem_reverse.1 hx))
    have htext : r.trimEnd.text ++ (r.text.reverse.takeWhile Line.isBlankChar).reverse = r.text := by
      rw [TextRun.trimEnd, ← List.reverse_append, List.takeWhile_append_dropWhile, List.reverse_reverse]
    generalize (r.text.reverse.takeWhile Line.isBlankChar).reverse = blanks at hblanks htext
    -- the run stops in front of its last blanks, and they are layout from there on
    have hkept : d.Over r.trimEnd.text ⟨d.offset + byteCount r.trimEnd.text, blanks ++ e.rest⟩ :=
      ⟨by rw [hover.rest, ← htext, List.append_assoc], rfl⟩
    have hlost : (⟨d.offset + byteCount r.trimEnd.text, blanks ++ e.rest⟩ : Cursor).Over blanks e :=
      ⟨rfl, by rw [hover.offset, ← htext, byteCount_append, Nat.add_assoc]⟩
    have hlast := (Reads.run (r := r.trimEnd) hreads hP hkept hstart).layouts hblanks hlost
    rwa [List.append_assoc, htext] at hlast
  | lexeme => simp at hall

/-- What the constructs around the innermost one have read before it. -/
def outerItems (fs : List Frame) : List PatternItem :=
  fs.flatMap fun
    | .pattern outer _ _ => outer
    | _ => []

theorem outerItems_cons (f : Frame) (fs : List Frame) : outerItems (f :: fs) = outerItems [f] ++ outerItems fs := by
  simp [outerItems]

/-- A construct that is no pattern has read nothing before another one. -/
theorem outerItems_of_frames {s : State} {f : Frame} {fs : List Frame} (hfs : s.frames = f :: fs)
    (hf : outerItems [f] = []) : outerItems fs = outerItems s.frames := by
  rw [hfs, outerItems_cons, hf, List.nil_append]

/-- The tokens of a state account for what its items account for. -/
theorem unwind {fs : List Frame} (h : Reads P c t (is ++ outerItems fs) d) :
    Reads P c t ((State.unwind fs is).map .lexeme) d := by
  induction fs generalizing is with
  | nil => simpa [State.unwind, outerItems] using h.dedent
  | cons f fs ih =>
    cases f with
    | pattern outer breaks indent =>
      -- what the pattern has read is dedented, and joins what stands around it
      apply ih
      rw [outerItems, List.flatMap_cons, ← outerItems] at h
      rw [List.append_assoc]
      exact h.dedent
    | placeable => exact ih h
    | arguments => exact ih h
    | variants => exact ih h
    | key => exact ih h

/-! ## What an account says -/

/-- Each token has its place between the ends, with the text that spells it. -/
theorem mem {ls : List Lexeme} (h : Reads P c t (ls.map .lexeme) d) {l : Lexeme} (hl : l ∈ ls) :
    ∃ before text e₁ e₂ after, c.Over before e₁ ∧ e₁.Over text e₂ ∧ e₂.Over after d ∧
      l.span = ⟨e₁.offset, e₂.offset⟩ ∧ l.token.SpelledBy text ∧ P before l.token := by
  generalize hall : ls.map PatternItem.lexeme = is at h
  induction h generalizing ls with
  | start => simp [List.map_eq_nil_iff.1 hall] at hl
  | layout _ hrest hx ih =>
    obtain ⟨before, text, e₁, e₂, after, h₁, h₂, h₃, hspan⟩ := ih hl hall
    exact ⟨before, text, e₁, e₂, _, h₁, h₂, h₃.trans (.ofLayout hrest hx), hspan⟩
  | run =>
    obtain ⟨_, _, -, hrun, -⟩ := List.map_eq_cons_iff.1 hall
    simp at hrun
  | @lexeme t is d text e l' hreads hP hover hspan hspelled ih =>
    obtain ⟨l'', ls, rfl, hlexeme, hmap⟩ := List.map_eq_cons_iff.1 hall
    obtain rfl := PatternItem.lexeme.inj hlexeme
    rcases List.mem_cons.1 hl with rfl | hl
    · exact ⟨t, text, d, e, [], hreads.stretch, hover, .refl e, hspan, hspelled, hP⟩
    · obtain ⟨before, text', e₁, e₂, after, h₁, h₂, h₃, hspan'⟩ := ih hl hmap
      exact ⟨before, text', e₁, e₂, _, h₁, h₂, h₃.trans hover, hspan'⟩

theorem span_mem {ls : List Lexeme} (h : Reads P c t (ls.map .lexeme) d) {l : Lexeme} (hl : l ∈ ls) :
    c.offset ≤ l.span.start ∧ l.span.start ≤ l.span.stop ∧ l.span.stop ≤ d.offset := by
  obtain ⟨_, _, e₁, e₂, _, h₁, h₂, h₃, hspan, -⟩ := h.mem hl
  rw [hspan]
  exact ⟨h₁.offset_le, h₂.offset_le, h₃.offset_le⟩

/-- A token that begins an entry or a comment extends over some text. -/
theorem start_lt_stop {ls : List Lexeme} (h : Reads P c t (ls.map .lexeme) d) {l : Lexeme} (hl : l ∈ ls)
    (hk : l.token.opensEntry = true ∨ ∃ level content, l.token = .comment level content) :
    l.span.start < l.span.stop := by
  obtain ⟨_, text, e₁, e₂, _, -, hover, -, hspan, hspelled, -⟩ := h.mem hl
  rw [hspan]
  exact hover.offset_lt (hspelled.ne_nil hk)

/-- No token begins before the one in front of it has ended. -/
theorem pairwise {ls : List Lexeme} (h : Reads P c t (ls.map .lexeme) d) :
    ls.Pairwise fun later earlier => earlier.span.stop ≤ later.span.start := by
  generalize hall : ls.map PatternItem.lexeme = is at h
  induction h generalizing ls with
  | start => simp [List.map_eq_nil_iff.1 hall]
  | layout _ _ _ ih => exact ih hall
  | run =>
    obtain ⟨_, _, -, hrun, -⟩ := List.map_eq_cons_iff.1 hall
    simp at hrun
  | @lexeme t is d text e l' hreads hP hover hspan hspelled ih =>
    obtain ⟨l'', ls, rfl, hlexeme, rfl⟩ := List.map_eq_cons_iff.1 hall
    obtain rfl := PatternItem.lexeme.inj hlexeme
    refine List.pairwise_cons.2 ⟨?_, ih rfl⟩
    intro l hl
    rw [hspan]
    exact (hreads.span_mem hl).2.2

/-- A byte that no token lies over belongs to layout. -/
theorem uncovered {ls : List Lexeme} (h : Reads P c t (ls.map .lexeme) d) {k : Nat} {x : Char}
    (hx : charAt? k t = some x) (hk : ∀ l ∈ ls, ¬ l.span.covers (c.offset + k)) :
    isLayout x = true := by
  generalize hall : ls.map PatternItem.lexeme = is at h
  induction h generalizing ls k with
  | start => simp [charAt?] at hx
  | @layout t is d y rest hreads _ hy ih =>
    by_cases hbefore : k < byteCount t
    · rw [charAt?_append_left hbefore] at hx
      exact ih hx hk hall
    · rw [charAt?_append_right (by omega)] at hx
      rwa [List.mem_singleton.1 (mem_of_charAt? hx)]
  | run =>
    obtain ⟨_, _, -, hrun, -⟩ := List.map_eq_cons_iff.1 hall
    simp at hrun
  | @lexeme t is d text e l' hreads hP hover hspan hspelled ih =>
    obtain ⟨l'', ls, rfl, hlexeme, hmap⟩ := List.map_eq_cons_iff.1 hall
    obtain rfl := PatternItem.lexeme.inj hlexeme
    by_cases hbefore : k < byteCount t
    · rw [charAt?_append_left hbefore] at hx
      exact ih hx (fun l hl => hk l (by simp [hl])) hmap
    · rw [charAt?_append_right (by omega)] at hx
      -- the byte is one of the last token
      have hwithin := lt_byteCount_of_charAt? hx
      have hstart := hreads.stretch.offset
      have hstop := hover.offset
      refine absurd ?_ (hk l'' (by simp))
      rw [hspan]
      exact ⟨by dsimp only; omega, by dsimp only; omega⟩

end Reads

end Fluent
