import Fluent.Proofs.Checked.Whole

/-!
# Reading any tokens goes on to their end

Not only the tokens of a source are read to their end, but any that stand in it: markers may be anywhere, tokens may
overlap, and what is in them need not be what the source has there. No check fails, an item takes at least one token and
leaves no more entries than tokens, and no entry is read beyond its fence.

* `Parser.Forward`: reading never goes back, and never beyond the limit.
* `forward_inline`, `forward_pattern?`, `forward_entry`, ...: one for each function of the grammar.
* `length_item_add_le`: an item has no more entries than tokens.
* `parseTokens?_goes_on`: **any tokens that stand in their source are read to their end**.
-/

namespace Fluent

namespace Checked

namespace Parser

variable {p : Parser} {α β : Type}

/-! ## Never back -/

/-- Reading never goes back, and never beyond the limit, whether something is read or a fault is found. -/
def Forward (p : Parser) (x : Reader α) : Prop :=
  ∀ ⦃n⦄, n ≤ p.limit → ∀ ⦃r m⦄, x n = some (r, m) → n ≤ m ∧ m ≤ p.limit

namespace Forward

/-- Readers that never go back can be put together, and so the lemmas below follow the `do` blocks of the readers. -/
theorem bind {x : Reader α} {g : α → Reader β} (hx : p.Forward x) (hg : ∀ a, p.Forward (g a)) :
    p.Forward (x >>= g) := by
  intro n hn r m h
  have hbind : (x >>= g) n = (x n).bind fun (a, k) => ExceptT.bindCont g a k := rfl
  rw [hbind, Option.bind_eq_some_iff] at h
  obtain ⟨⟨a, k⟩, hread, h⟩ := h
  obtain ⟨hk, hlimit⟩ := hx hn hread
  cases a with
  | ok a =>
    obtain ⟨hm, hlimit⟩ := hg a hlimit h
    exact ⟨Nat.le_trans hk hm, hlimit⟩
  | error fault =>
    obtain ⟨-, rfl⟩ := Prod.mk.inj (Option.some.inj h)
    exact ⟨hk, hlimit⟩

/-- What stays where it is. -/
theorem stay {x : Reader α} (h : ∀ n r m, x n = some (r, m) → m = n) : p.Forward x := by
  intro n hn r m hread
  obtain rfl := h n r m hread
  exact ⟨Nat.le_refl m, hn⟩

theorem pure (a : α) : p.Forward (pure a : Reader α) :=
  stay fun _ _ _ h => (Prod.mk.inj (Option.some.inj h)).2.symm

theorem throw (fault : Fault) : p.Forward (throw fault : Reader α) :=
  stay fun _ _ _ h => (Prod.mk.inj (Option.some.inj h)).2.symm

theorem checked (x : Option α) : p.Forward (checked x) := by
  refine stay fun n r m h => ?_
  cases x with
  | none => cases h
  | some a => exact (Prod.mk.inj (Option.some.inj h)).2.symm

theorem required (x : Except Fault α) : p.Forward (required x) :=
  stay fun _ _ _ h => (Prod.mk.inj (Option.some.inj h)).2.symm

end Forward

theorem forward_peek : p.Forward p.peek := .stay fun _ _ _ h => (Prod.mk.inj (Option.some.inj h)).2.symm

theorem forward_peekSecond : p.Forward p.peekSecond := .stay fun _ _ _ h => (Prod.mk.inj (Option.some.inj h)).2.symm

theorem forward_span : p.Forward p.span := .stay fun _ _ _ h => (Prod.mk.inj (Option.some.inj h)).2.symm

theorem forward_fault (e : Expected) : p.Forward (p.fault e : Reader α) :=
  .stay fun _ _ _ h => (Prod.mk.inj (Option.some.inj h)).2.symm

/-- Only this takes a token, and only in front of the limit. -/
theorem forward_advance : p.Forward p.advance := by
  intro n hn r m h
  have hm : (if n < p.limit then n + 1 else n) = m := (Prod.mk.inj (Option.some.inj h)).2
  split at hm <;> omega

theorem forward_get : p.Forward (get : Reader Nat) := .stay fun _ _ _ h => (Prod.mk.inj (Option.some.inj h)).2.symm

theorem forward_previousEnd : p.Forward p.previousEnd :=
  forward_get.bind fun _ => (Forward.checked _).bind fun _ => .pure _

theorem forward_locate (start stop : Nat) : p.Forward (p.locate start stop) := .checked _

theorem forward_eat (t : Token) : p.Forward (p.eat t) := by
  refine forward_peek.bind fun next => ?_
  split
  · exact forward_advance.bind fun _ => .pure _
  · exact .pure _

theorem forward_expect (t : Token) (e : Expected) : p.Forward (p.expect t e) := by
  refine forward_peek.bind fun next => ?_
  split
  · exact forward_advance
  · exact forward_fault e

theorem forward_identifier (e : Expected) : p.Forward (p.identifier e) := by
  refine forward_peek.bind fun next => ?_
  split
  · exact forward_advance.bind fun _ => (forward_locate _ _).bind fun _ => .pure _
  · exact forward_fault e

theorem forward_identifierAt (offset : Nat) (e : Expected) : p.Forward (p.identifierAt offset e) := by
  refine forward_peek.bind fun next => forward_span.bind fun span => ?_
  split
  · exact forward_fault e
  · exact forward_identifier e

theorem forward_number (e : Expected) : p.Forward (p.number e) := by
  refine forward_span.bind fun position => forward_peek.bind fun next => ?_
  split
  · split
    · exact forward_advance.bind fun _ => (forward_locate _ _).bind fun _ => .pure _
    · exact .throw _
  · exact forward_fault e

theorem forward_accessor (offset : Nat) : p.Forward (p.accessor offset) := by
  refine forward_peek.bind fun next => forward_span.bind fun span => ?_
  split
  · exact forward_advance.bind fun _ => (forward_identifierAt _ _).bind fun _ => .pure _
  · exact .pure _

theorem forward_checkVariants (variants : List Variant) : p.Forward (p.checkVariants variants) := by
  unfold checkVariants
  split
  · exact forward_fault _
  · split
    · exact forward_span.bind fun _ => .throw _
    · exact .pure _
    · exact .throw _

theorem forward_variantKey : p.Forward p.variantKey := by
  refine forward_peek.bind fun next => ?_
  split
  · exact (forward_identifier _).bind fun _ => .pure _
  · exact (forward_number _).bind fun _ => .pure _
  · exact forward_fault _

theorem forward_string (raw : String) : p.Forward (p.string raw) :=
  forward_advance.bind fun _ => (Forward.checked _).bind fun _ => (Forward.required _).bind fun _ =>
    (forward_locate _ _).bind fun _ => .pure _

theorem forward_closed (start : Nat) (e : Expression) : p.Forward (p.closed start e) :=
  (forward_expect _ _).bind fun _ => (forward_locate _ _).bind fun _ => .pure _

/-! The functions that call one another: one case for each, by the depth of the call. -/

mutual

/-- No function of the grammar goes back, whatever bound there is on the depth of calls: without depth left a check
fails, and nothing is read. -/
theorem forward_placeable : ∀ depth, p.Forward (p.placeable depth)
  | 0 => .checked _
  | depth + 1 => by
    refine (forward_expect _ _).bind fun opening => (forward_inline depth).bind fun e => (forward_eat _).bind fun arrow => ?_
    split
    · exact (Forward.required _).bind fun _ => (forward_variants depth).bind fun _ => (forward_checkVariants _).bind fun _ =>
        forward_previousEnd.bind fun _ => (forward_locate _ _).bind fun _ => forward_closed _ _
    · exact (Forward.required _).bind fun _ => forward_closed _ _

theorem forward_inline : ∀ depth, p.Forward (p.inline depth)
  | 0 => .checked _
  | depth + 1 => by
    refine forward_peek.bind fun next => ?_
    split
    · exact (forward_placeable depth).bind fun _ => .pure _
    · exact forward_string _
    · exact forward_span.bind fun _ => .throw _
    · exact (forward_number _).bind fun _ => .pure _
    · exact forward_advance.bind fun _ => (forward_identifierAt _ _).bind fun _ => (forward_locate _ _).bind fun _ => .pure _
    · exact forward_termReference depth
    · refine forward_peekSecond.bind fun second => ?_
      split
      · exact forward_functionReference depth
      · exact (forward_identifier _).bind fun _ => (forward_accessor _).bind fun _ => forward_previousEnd.bind fun _ =>
          (forward_locate _ _).bind fun _ => .pure _
    · exact forward_fault _

theorem forward_termReference : ∀ depth, p.Forward (p.termReference depth)
  | 0 => .checked _
  | depth + 1 => by
    refine (forward_expect _ _).bind fun sign => (forward_identifierAt _ _).bind fun id => (forward_accessor _).bind fun a =>
      forward_peek.bind fun next => ?_
    split
    · exact (forward_callArguments depth).bind fun _ => forward_previousEnd.bind fun _ => (forward_locate _ _).bind fun _ =>
        .pure _
    · exact forward_previousEnd.bind fun _ => (forward_locate _ _).bind fun _ => .pure _

theorem forward_functionReference : ∀ depth, p.Forward (p.functionReference depth)
  | 0 => .checked _
  | depth + 1 => by
    refine (forward_identifier _).bind fun id => ?_
    split
    · exact (forward_callArguments depth).bind fun _ => (forward_locate _ _).bind fun _ => .pure _
    · exact .throw _

theorem forward_callArguments : ∀ depth, p.Forward (p.callArguments depth)
  | 0 => .checked _
  | depth + 1 => (forward_expect _ _).bind fun _ => (forward_positionalArguments depth).bind fun _ =>
      (forward_namedArguments depth []).bind fun _ => (forward_locate _ _).bind fun _ => .pure _

theorem forward_positionalArguments : ∀ depth, p.Forward (p.positionalArguments depth)
  | 0 => .checked _
  | depth + 1 => by
    refine (forward_eat _).bind fun ended => ?_
    split
    · exact .pure _
    refine (forward_inline depth).bind fun e => forward_peek.bind fun next => ?_
    split
    · exact forward_advance.bind fun _ => (forward_positionalArguments depth).bind fun _ => .pure _
    · exact forward_advance.bind fun _ => .pure _
    · exact forward_fault _

theorem forward_namedArguments : ∀ depth seen, p.Forward (p.namedArguments depth seen)
  | 0, _ => .checked _
  | depth + 1, seen => by
    refine forward_peek.bind fun next => ?_
    split
    · exact forward_advance.bind fun _ => .pure _
    · refine forward_peekSecond.bind fun second => ?_
      split
      · refine (forward_identifier _).bind fun name => forward_advance.bind fun _ =>
          (forward_inline depth).bind fun value => ?_
        split
        · exact .throw _
        refine (forward_locate _ _).bind fun _ => forward_peek.bind fun next => ?_
        split
        · exact forward_advance.bind fun _ => (forward_namedArguments depth _).bind fun _ => .pure _
        · exact forward_advance.bind fun _ => .pure _
        · exact forward_fault _
      · exact forward_fault _
    · exact forward_fault _
    · exact forward_fault _

theorem forward_variants : ∀ depth, p.Forward (p.variants depth)
  | 0 => .checked _
  | depth + 1 => by
    refine forward_peek.bind fun next => ?_
    split
    · exact (forward_variant depth).bind fun _ => (forward_variants depth).bind fun _ => .pure _
    · exact .pure _

theorem forward_variant : ∀ depth, p.Forward (p.variant depth)
  | 0 => .checked _
  | depth + 1 => by
    refine forward_span.bind fun first => (forward_eat _).bind fun star => (forward_expect _ _).bind fun _ =>
      forward_variantKey.bind fun key => (forward_expect _ _).bind fun _ => forward_span.bind fun next =>
      (forward_pattern? depth).bind fun value? => ?_
    split
    · exact .throw _
    · exact forward_previousEnd.bind fun _ => (forward_locate _ _).bind fun _ => .pure _

theorem forward_pattern? : ∀ depth, p.Forward (p.pattern? depth)
  | 0 => .checked _
  | depth + 1 => by
    refine forward_peek.bind fun next => ?_
    split
    · exact forward_advance.bind fun _ => .pure _
    · refine forward_advance.bind fun opening => (forward_patternElements depth).bind fun elements => ?_
      split
      · exact .throw _
      · exact .pure _
    · exact forward_fault _

theorem forward_patternElements : ∀ depth, p.Forward (p.patternElements depth)
  | 0 => .checked _
  | depth + 1 => by
    refine forward_peek.bind fun next => ?_
    split
    · exact forward_advance.bind fun _ => (forward_locate _ _).bind fun _ => (forward_patternElements depth).bind fun _ =>
        .pure _
    · exact (forward_placeable depth).bind fun _ => (forward_patternElements depth).bind fun _ => .pure _
    · exact forward_advance.bind fun _ => .pure _
    · exact forward_fault _

end

theorem forward_oneAttribute : p.Forward p.oneAttribute := by
  refine (forward_expect _ _).bind fun dot => (forward_identifier _).bind fun id => (forward_expect _ _).bind fun _ =>
    forward_span.bind fun next => (forward_pattern? _).bind fun value? => ?_
  split
  · exact .throw _
  · exact forward_previousEnd.bind fun _ => (forward_locate _ _).bind fun _ => .pure _

theorem forward_attributes (depth : Nat) : p.Forward (p.attributes depth) := by
  induction depth with
  | zero => exact .checked _
  | succ depth ih =>
    refine forward_peek.bind fun next => ?_
    split
    · exact forward_oneAttribute.bind fun _ => ih.bind fun _ => .pure _
    · exact .pure _

/-- **An entry** is read forward, up to the limit at most: whether it comes to a result or to a fault, the index is no
further back than it was. -/
theorem forward_entry : p.Forward p.entry := by
  refine forward_span.bind fun first => (forward_eat _).bind fun isTerm => (forward_identifier _).bind fun id =>
    (forward_expect _ _).bind fun _ => forward_span.bind fun next => (forward_pattern? _).bind fun value? =>
    (forward_attributes _).bind fun attributes => forward_get.bind fun n => (Forward.checked _).bind fun fence => ?_
  split
  · refine forward_previousEnd.bind fun stop => (forward_locate _ _).bind fun location => ?_
    split
    · exact .pure _
    · exact .throw _
    · split
      · exact .throw _
      · exact .pure _
    · exact .pure _
  · exact forward_fault _

end Parser

end Checked

/-! ## Entries and tokens -/

theorem length_documentedEntry_le (s : Source) (c : Comment) (l : Lexeme) (ls : List Lexeme) :
    (documentedEntry s c l ls).length ≤ 2 := by
  unfold documentedEntry
  split <;> simp

/-- An item has no more entries than tokens: two where a comment and junk are left of an entry, which then had a token
for each. -/
theorem length_item_add_le (s : Source) (l : Lexeme) (ls : List Lexeme) :
    (item s l ls).1.length + (item s l ls).2.length ≤ ls.length + 1 := by
  have hfence := length_fromFence_le s ls
  unfold item
  split
  · simp
  · simp
  · have hafter := length_afterComment_le ls
    simp only
    split
    · simp
    · rename_i e es he
      have hbehind := length_fromFence_le s es
      rw [he, List.length_cons] at hafter
      split
      · have hentries := length_documentedEntry_le s
          (joinComment s l (ls.takeWhile fun l => (commentPart? l).isSome)) e es
        dsimp only
        omega
      · simp only [List.length_cons, List.length_nil]
        omega
  · simp only [List.length_cons, List.length_nil]
    omega
  · simp only [List.length_cons, List.length_nil]
    omega
  · have hstray := (List.dropWhile_suffix (isUnfinishedFence s) (l := ls)).length_le
    split <;> simp only [List.length_cons, List.length_nil] <;> omega

/-- **There are no more entries than tokens.** -/
theorem length_body_le (s : Source) (ls : List Lexeme) : (body s ls).length ≤ ls.length := by
  fun_induction body s ls with
  | case1 => exact Nat.le_refl _
  | case2 l ls i ih =>
    have hitem : i.1.length + i.2.length ≤ ls.length + 1 := length_item_add_le s l ls
    rw [List.length_append, List.length_cons]
    omega

/-! ## Any tokens -/

section Any

open Checked

variable {source : String} {tokens : List Lexeme} {l : Lexeme} {n : Nat}

theorem placed_of_spans (hspans : ∀ l ∈ tokens, l.span.start ≤ l.span.stop ∧
      isBoundary source.toList l.span.start = true ∧ isBoundary source.toList l.span.stop = true)
    (hordered : tokens.Pairwise fun l m => l.span.start ≤ m.span.start) : Placed source.toList tokens := by
  have hcursor {offset : Nat} (h : isBoundary source.toList offset = true) :
      ∃ c : Cursor, c.At source.toList ∧ c.offset = offset := by
    obtain ⟨rest, hrest⟩ := Option.isSome_iff_exists.1 h
    exact ⟨_, Cursor.at_of_fromOffset? hrest, rfl⟩
  exact ⟨fun l hl => hcursor (hspans l hl).2.1, fun l hl => hcursor (hspans l hl).2.2, fun l hl => (hspans l hl).1,
    hordered⟩

theorem drop_of_getElem? (hl : tokens[n]? = some l) : tokens.drop n = l :: tokens.drop (n + 1) := by
  obtain ⟨hn, rfl⟩ := List.getElem?_eq_some_iff.1 hl
  exact List.drop_eq_getElem_cons hn

/-- **Each turn of the loop** takes at least a token, stays among the tokens, and makes no more entries than it takes
tokens. -/
theorem item?_takes (h : Placed source.toList tokens) (hl : tokens[n]? = some l) :
    ∃ entries next, item? source.toList tokens n l = some ⟨entries, next⟩ ∧ n < next ∧ next ≤ tokens.length ∧
      entries.length ≤ next - n := by
  have hnext := drop_of_getElem? hl
  obtain ⟨m, hle, hm, hitem⟩ := item?_eq h hnext
  have hcount := length_item_add_le (.ofString source) l (tokens.drop (n + 1))
  have hrest := length_item_le (.ofString source) l (tokens.drop (n + 1))
  have hn := (List.getElem?_eq_some_iff.1 hl).1
  rw [← hm, List.length_drop, List.length_drop] at hcount hrest
  exact ⟨_, m, hitem, by omega, hle, by omega⟩

/-- **An entry** is read up to the next fence at most, or to the end of the tokens. -/
theorem fenced?_within (h : Placed source.toList tokens) (hl : tokens[n]? = some l) :
    ∃ limit cursor r, fenced? source.toList tokens n = some (r, cursor) ∧ n ≤ cursor ∧ cursor ≤ limit ∧ n < limit ∧
      limit ≤ tokens.length ∧ (wholeParser source.toList tokens).isFence? limit = some true ∧
      ∀ m, n < m → m < limit → (wholeParser source.toList tokens).isFence? m = some false := by
  have hnext := drop_of_getElem? hl
  obtain ⟨cursor, hcursor, hread, -⟩ := fenced?_eq h hnext rfl
  have hlimit : n + 1 + (beforeFence (.ofString source) (tokens.drop (n + 1))).length ≤ tokens.length :=
    run_le_length hnext _
  have hentry := hread
  rw [fenced?, fence?_eq h (drop_succ hnext)] at hentry
  have hforward := Parser.forward_entry (p := ⟨source.toList, tokens, _⟩) (by dsimp only; omega) hentry
  exact ⟨_, cursor, _, hread, hforward.1, hcursor, by omega, hlimit,
    isFence?_limit h (drop_fence hnext) _, fun m hn hm => isFence?_inside h hnext hn hm _⟩

/-- **Any tokens that stand in their source are read to their end**, in a source of any text and under any options:
whatever they are, where no span of theirs is out of order or cuts a character, and none starts in front of an earlier
one. No check fails, so each index and slice is in range. Each turn of the loop goes on, and not beyond the last token.
An entry is read up to its fence at most, which is the next token that begins something else. And there are no more
entries than tokens. -/
theorem parseTokens?_goes_on (hspans : ∀ l ∈ tokens, l.span.start ≤ l.span.stop ∧
      isBoundary source.toList l.span.start = true ∧ isBoundary source.toList l.span.stop = true)
    (hordered : tokens.Pairwise fun l m => l.span.start ≤ m.span.start) (o : ParseOptions) :
    parseTokens? source.toList o tokens = some (parseTokens o (.ofString source) tokens) ∧
      (∀ n l, tokens[n]? = some l → ∃ entries next, item? source.toList tokens n l = some ⟨entries, next⟩ ∧
        n < next ∧ next ≤ tokens.length ∧ entries.length ≤ next - n) ∧
      (∀ n l, tokens[n]? = some l → ∃ limit cursor r, fenced? source.toList tokens n = some (r, cursor) ∧
        n ≤ cursor ∧ cursor ≤ limit ∧ n < limit ∧ limit ≤ tokens.length ∧
        (wholeParser source.toList tokens).isFence? limit = some true ∧
        ∀ m, n < m → m < limit → (wholeParser source.toList tokens).isFence? m = some false) ∧
      (parseTokens { o with duplicates := .preserve } (.ofString source) tokens).body.length ≤ tokens.length := by
  have h := placed_of_spans hspans hordered
  exact ⟨parseTokens?_of_placed source h o, fun n l => item?_takes h, fun n l => fenced?_within h,
    length_body_le (.ofString source) tokens⟩

/-- A marker that spans a character and more, a name over the same character, a dot that spans the rest of the line,
and a marker inside the dot. -/
def overlapping : List Lexeme :=
  [⟨.endPositional, ⟨0, 3⟩⟩, ⟨.identifier "a", ⟨0, 2⟩⟩, ⟨.dot, ⟨2, 5⟩⟩, ⟨.patternSkip, ⟨3, 3⟩⟩]

theorem parseTokens?_goes_on_overlapping :
    parseTokens? "é =\n".toList {} overlapping = some (parseTokens {} (.ofString "é =\n") overlapping) ∧
      (∃ entries next, item? "é =\n".toList overlapping 1 ⟨.identifier "a", ⟨0, 2⟩⟩ = some ⟨entries, next⟩ ∧
        1 < next ∧ next ≤ 4 ∧ entries.length ≤ next - 1) ∧
      (parseTokens {} (.ofString "é =\n") overlapping).body.length ≤ 4 ∧
      (parseTokens {} (.ofString "é =\n") overlapping).body.map (·.location.span) = [⟨0, 0⟩, ⟨0, 5⟩] := by
  have hread := parseTokens?_goes_on (by decide : ∀ l ∈ overlapping, l.span.start ≤ l.span.stop ∧
      isBoundary "é =\n".toList l.span.start = true ∧ isBoundary "é =\n".toList l.span.stop = true) (by decide) {}
  exact ⟨hread.1, hread.2.1 1 _ rfl, hread.2.2.2, by cbv⟩

end Any

end Fluent
