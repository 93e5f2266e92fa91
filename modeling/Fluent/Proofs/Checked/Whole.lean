import Fluent.Diagnostics
import Fluent.Output.Treeviz
import Fluent.Proofs.Checked.Body
import Fluent.Proofs.Nested
import Fluent.Resource

/-!
# All that is made of a source, with checks

From the text of a source to its tokens, to a resource under a policy for duplicates, and to what is shown of that: the
outline of its nodes, its diagnostics and the drawn tree. The outline and the diagnostics access nothing by an index.

* `Checked.rejectDuplicates?`: repeated ids as junk, with slices of the source.
* `Checked.render?`: the drawn tree, where a node is compared with the last child of its parent.
* `Checked.results?`: everything.
* `Placed.location_of_body`: what is read from tokens that stand in their source is located in it.
* `parseTokens?_of_placed`: a resource is read from any such tokens.
* `no_check_fails`: the results are there, and they are those of the functions without checks.
-/

namespace Fluent

namespace Checked

/-! ## Resources -/

section Resources

variable (source : List Char)

/-- A rejected entry: its comment on its own, and its slice of the source as junk. -/
def rejected? (e : Entry) (comment : Option Comment) (name : String) (span : Span) : Option (List Entry) := do
  let text ← text? source e.location.span.start e.location.span.stop
  return (comment.map Entry.comment).toList ++ [.junk ⟨String.ofList text, .duplicateId span name, e.location⟩]

/-- An entry, or what takes its place if it is a duplicate. -/
def keep? (e : Entry) (comment : Option Comment) : Option (String × Span) → Option (List Entry)
  | none => some [e]
  | some (name, span) => rejected? source e comment name span

/-- Entries with repeated attributes, and entries whose id an earlier one has, as junk. -/
def rejectDuplicates? (seen : List String) : List Entry → Option (List Entry)
  | [] => some []
  | .message m :: es => do
    let key := m.id.name
    let kept ← keep? source (.message m) m.comment (duplicate? seen key m.id m.attributes)
    let rest ← rejectDuplicates? (key :: seen) es
    return kept ++ rest
  | .term t :: es => do
    let key := "-" ++ t.id.name
    let kept ← keep? source (.term t) t.comment (duplicate? seen key t.id t.attributes)
    let rest ← rejectDuplicates? (key :: seen) es
    return kept ++ rest
  | e :: es => (rejectDuplicates? seen es).map (e :: ·)

/-- The entries of a token stream under a policy. -/
def bodyUnder? (p : DuplicatePolicy) (tokens : List Lexeme) : Option (List Entry) := do
  let entries ← bodyFrom? source tokens 0
  match p with
  | .preserve => return entries
  | .reject => rejectDuplicates? source [] entries

/-- The resource of a token stream. -/
def parseTokens? (o : ParseOptions) (tokens : List Lexeme) : Option Resource := do
  let entries ← bodyUnder? source o.duplicates tokens
  let location ← locate? (.ofChars source) ⟨0, byteCount source⟩
  return ⟨entries, location⟩

end Resources

/-! ## Drawn trees -/

mutual

/-- The lines of a node below the root, which is the child at an index of so many. -/
def drawNode? (s : Treeviz.Style) (lead : String) (index count : Nat) : Outline → Option (List String)
  | ⟨kind, label, _, location, children⟩ => do
    let last ← minus? count 1
    let below ← drawNodes? s (lead ++ if index = last then "  " else "│ ") 0 children.length children
    return (s.margin location ++ lead ++ (if index = last then "└─" else "├─") ++ " " ++ kind.icon ++ " "
        ++ truncate 30 "..." label ++ "\n") :: below

/-- The lines of some children, the first of which is the one at an index of so many. -/
def drawNodes? (s : Treeviz.Style) (lead : String) (index count : Nat) : List Outline → Option (List String)
  | [] => some []
  | o :: os => do
    let first ← drawNode? s lead index count o
    let rest ← drawNodes? s lead (index + 1) count os
    return first ++ rest

end

/-- A resource as a drawn tree. -/
def render? (numbered : Bool) (r : Resource) : Option String := do
  let width := max 2 (toString (r.location.stop.line + 1)).length
  let s : Treeviz.Style := ⟨if numbered then some width else none⟩
  let o := r.outline
  let below ← drawNodes? s "" 0 o.children.length o.children
  return String.join ((s.margin o.location ++ o.kind.icon ++ " " ++ o.label ++ "\n") :: below)

/-! ## Results -/

/-- What is made of a source: its tokens, its tree, and what is shown of the tree. Each of them is made by index and
slice, and could fail there. -/
structure Results where
  tokens : List Lexeme
  resource : Resource
  outline : Outline
  diagnostics : List Diagnostic
  drawing : String

/-- All that is made of a source; the lines of the drawn tree may be numbered. -/
def results? (o : ParseOptions) (numbered : Bool) (source : List Char) : Option Results := do
  let tokens ← tokenize? source o.maxNesting
  let resource ← parseTokens? source o tokens
  let drawing ← render? numbered resource
  return ⟨tokens, resource, resource.outline, resource.diagnostics, drawing⟩

end Checked

/-! ## Duplicates -/

section Duplicates

variable {source : String}

theorem Location.Of.text? {l : Location} (h : l.Of (.ofString source)) :
    (Checked.text? source.toList l.span.start l.span.stop).map String.ofList =
      some ((Source.ofString source).slice l.span) := by
  obtain ⟨_, hstart⟩ := Option.isSome_iff_exists.1 h.boundary.1
  obtain ⟨_, hstop⟩ := Option.isSome_iff_exists.1 h.boundary.2
  exact (Cursor.at_of_fromOffset? hstart).slice? (Cursor.at_of_fromOffset? hstop) h.ordered

theorem keep?_eq {e : Entry} (h : e.location.Of (.ofString source)) (doc : Option Comment)
    (found : Option (String × Span)) :
    Checked.keep? source.toList e doc found = some (match found with
      | none => [e]
      | some (name, span) => rejected (.ofString source) e doc name span) := by
  cases found with
  | none => rfl
  | some twice =>
    obtain ⟨text, htext, hslice⟩ := Option.map_eq_some_iff.1 h.text?
    simp only [Checked.keep?, Checked.rejected?, htext, hslice, Option.bind_eq_bind, Option.bind_some]
    rfl

/-- **Rejecting duplicates**: no check fails where the entries with ids are located in the source. -/
theorem rejectDuplicates?_eq {seen : List String} {es : List Entry}
    (h : ∀ e ∈ es, e.id? ≠ none → e.location.Of (.ofString source)) :
    Checked.rejectDuplicates? source.toList seen es = some (rejectDuplicates (.ofString source) seen es) := by
  fun_induction rejectDuplicates (.ofString source) seen es with
  | case1 => rfl
  | case2 seen m es key ih | case3 seen t es key ih =>
    obtain ⟨hfirst, hrest⟩ := List.forall_mem_cons.1 h
    have hmore := ih hrest
    simp only [key] at hmore
    simp only [Checked.rejectDuplicates?, keep?_eq (hfirst (by simp [Entry.id?])), hmore, Option.bind_eq_bind,
      Option.bind_some]
    rfl
  | case4 seen e es hmessage hterm ih =>
    obtain ⟨-, hrest⟩ := List.forall_mem_cons.1 h
    cases e with
    | message m => exact absurd rfl (hmessage m)
    | term t => exact absurd rfl (hterm t)
    | comment c => simp only [Checked.rejectDuplicates?, ih hrest, Option.map_some]
    | junk j => simp only [Checked.rejectDuplicates?, ih hrest, Option.map_some]

end Duplicates

/-! ## Located entries -/

section Located

variable {source : String} {tokens ls : List Lexeme} {l : Lexeme}

/-- An entry is located from its first token, which is no marker, to the end of one of its tokens. -/
theorem Placed.location_of_fencedEntry (h : Placed source.toList (l :: ls)) {e : Entry}
    (he : fencedEntry (.ofString source) l ls = .ok e) : e.location.Of (.ofString source) := by
  have hderived := derived_entry he
  rw [lines_fenceAt] at hderived
  obtain ⟨-, -, l', ls', hl, hlocation⟩ := hderived.spells
  obtain ⟨rfl, rfl⟩ := List.cons.inj hl
  have hmarker : l.token.isMarker = false := by
    cases hderived with
    | message hid => rw [(List.cons.inj hid.1.lexemes).1]; rfl
    | term hminus => rw [(List.cons.inj hminus.lexemes).1]; rfl
  obtain ⟨m, hm, hstop⟩ : ∃ m ∈ l :: ls, readThrough 0 (l :: beforeFence (.ofString source) ls) = m.span.stop := by
    rw [readThrough_cons, hmarker]
    rcases readThrough_eq_or_mem l.span.stop (beforeFence (.ofString source) ls) with hfirst | ⟨m, hm, hlast⟩
    · exact ⟨l, List.mem_cons_self, hfirst⟩
    · exact ⟨m, List.mem_cons_of_mem _ ((List.takeWhile_sublist _).subset hm), hlast⟩
  obtain ⟨c, hc, hcstart⟩ := h.start l List.mem_cons_self
  obtain ⟨d, hd, hdstop⟩ := h.stop m hm
  have hlocation : e.location = (Source.ofString source).lines.locate ⟨c.offset, d.offset⟩ := by
    rw [hlocation, hstop, hcstart, hdstop]
  rw [hlocation]
  obtain ⟨_, hcbegin⟩ := id hc
  obtain ⟨_, hdbegin⟩ := id hd
  refine Location.of_locate ?_ hcbegin.isBoundary hdbegin.isBoundary
  have := h.start_le_stop hm
  show c.offset ≤ d.offset
  omega

theorem Placed.location_of_entryOrJunk (h : Placed source.toList (l :: ls))
    (hid : (entryOrJunk (.ofString source) l ls).id? ≠ none) :
    (entryOrJunk (.ofString source) l ls).location.Of (.ofString source) := by
  unfold entryOrJunk at hid ⊢
  split at hid
  · exact h.location_of_fencedEntry ‹_›
  · exact absurd rfl hid

theorem Placed.location_of_documentedEntry (h : Placed source.toList (l :: ls)) (c : Comment) {e : Entry}
    (he : e ∈ documentedEntry (.ofString source) c l ls) (hid : e.id? ≠ none) :
    e.location.Of (.ofString source) := by
  unfold documentedEntry at he
  split at he
  · rw [List.mem_singleton.1 he, Entry.location_document]
    exact h.location_of_fencedEntry ‹_›
  · rcases List.mem_pair.1 he with rfl | rfl <;> exact absurd rfl hid

/-- The entries with ids of an item are located in the source. -/
theorem Placed.location_of_item (h : Placed source.toList (l :: ls)) :
    ∀ e ∈ (item (.ofString source) l ls).1, e.id? ≠ none → e.location.Of (.ofString source) := by
  intro e he hid
  unfold item at he
  split at he
  · cases he
  · cases he
  · rename_i level content hl
    obtain ⟨m, -, hm, -⟩ : ∃ m ≤ _, (l :: ls).drop m = _ ∧ Checked.comment? source.toList _ 0 = _ :=
      comment?_eq rfl (by rw [commentPart?, hl]; rfl)
    have hafter := h.drop m
    rw [hm] at hafter
    simp only at he
    split at he
    · rw [List.mem_singleton.1 he] at hid
      exact absurd rfl hid
    · rename_i hbehind
      rw [hbehind] at hafter
      split at he
      · exact hafter.location_of_documentedEntry _ he hid
      · rw [List.mem_singleton.1 he] at hid
        exact absurd rfl hid
  · obtain rfl := List.mem_singleton.1 he
    exact h.location_of_entryOrJunk hid
  · obtain rfl := List.mem_singleton.1 he
    exact h.location_of_entryOrJunk hid
  · -- stray lines and what belongs nowhere are junk
    split at he <;> rw [List.mem_singleton.1 he] at hid <;> exact absurd rfl hid

/-- **The entries with ids** of tokens that stand in their source are located in it. -/
theorem Placed.location_of_body (h : Placed source.toList tokens) :
    ∀ e ∈ body (.ofString source) tokens, e.id? ≠ none → e.location.Of (.ofString source) := by
  fun_induction body (.ofString source) tokens with
  | case1 => simp
  | case2 l ls i ih =>
    obtain ⟨m, -, hm, -⟩ := item?_eq h (n := 0) rfl
    intro e he hid
    rcases List.mem_append.1 he with hitem | hrest
    · exact h.location_of_item e hitem hid
    · exact ih (hm ▸ h.drop m) e hrest hid

end Located

/-! ## Drawing -/

section Drawing

open Checked

mutual

/-- **A drawn node**: there is a last child among children. -/
theorem drawNode?_eq (s : Treeviz.Style) (lead : String) {index count : Nat} (h : index < count) : ∀ o : Outline,
    drawNode? s lead index count o = some (Treeviz.drawNode s lead (decide (index + 1 = count)) o)
  | ⟨kind, label, _, location, children⟩ => by
    have hlast : index = count - 1 ↔ index + 1 = count := by omega
    simp only [drawNode?, minus?_of_le (show 1 ≤ count by omega), hlast, drawNodes?_eq s _ (Nat.zero_add children.length),
      Treeviz.drawNode, decide_eq_true_eq, Option.bind_eq_bind, Option.bind_some]
    rfl

theorem drawNodes?_eq (s : Treeviz.Style) (lead : String) {index count : Nat} : ∀ {os : List Outline},
    index + os.length = count → drawNodes? s lead index count os = some (Treeviz.drawNodes s lead os)
  | [], _ => rfl
  | o :: os, h => by
    rw [List.length_cons] at h
    have hlast : decide (index + 1 = count) = os.isEmpty := by
      cases os with
      | nil => simpa using h
      | cons => simp at h ⊢; omega
    simp only [drawNodes?, drawNode?_eq s lead (show index < count by omega) o, hlast,
      drawNodes?_eq s lead (show index + 1 + os.length = count by omega), Treeviz.drawNodes, Option.bind_eq_bind,
      Option.bind_some]
    rfl

end

/-- **A drawn tree**: no check fails. -/
theorem render?_eq (numbered : Bool) (r : Resource) : render? numbered r = some (Treeviz.render numbered r) := by
  simp only [render?, drawNodes?_eq _ _ (Nat.zero_add _), Option.bind_eq_bind, Option.bind_some]
  rfl

end Drawing

/-! ## A source -/

section Source

open Checked

variable (source : String)

/-- **A resource** is read from any tokens that stand in their source: no check fails. -/
theorem parseTokens?_of_placed {tokens : List Lexeme} (h : Placed source.toList tokens) (o : ParseOptions) :
    parseTokens? source.toList o tokens = some (parseTokens o (.ofString source) tokens) := by
  have hbody : bodyUnder? source.toList o.duplicates tokens =
      some (bodyUnder o.duplicates (.ofString source) tokens) := by
    simp only [bodyUnder?, bodyFrom?_eq h List.drop_zero, Option.bind_eq_bind, Option.bind_some]
    cases o.duplicates with
    | preserve => rfl
    | reject => exact rejectDuplicates?_eq h.location_of_body
  simp only [parseTokens?, hbody, locate?_eq, Option.bind_eq_bind, Option.bind_some]
  rfl

theorem parseTokens?_eq (o : ParseOptions) :
    parseTokens? source.toList o (tokenize o.maxNesting source.toList) = some (parse o source) :=
  parseTokens?_of_placed source (placed_tokenize o.maxNesting source.toList) o

/-- **Reading a source never fails a check.** From any text, under any options, every index is in bounds, every slice is
in order and between characters, and no difference is below zero: the tokens, the resource, its outline, its diagnostics
and the drawn tree are those that are made without checks. -/
theorem no_check_fails (o : ParseOptions) (numbered : Bool) :
    results? o numbered source.toList =
      some ⟨tokenize o.maxNesting source.toList, parse o source, (parse o source).outline, (parse o source).diagnostics,
        Treeviz.render numbered (parse o source)⟩ := by
  simp only [results?, tokenize?_eq, parseTokens?_eq, render?_eq, Option.bind_eq_bind, Option.bind_some]
  rfl

end Source

end Fluent
