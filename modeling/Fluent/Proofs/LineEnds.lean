import Fluent.Proofs.Restyled

/-!
# Carriage returns before line feeds

A source may end its lines with a carriage return and a line feed, or with a line feed alone. What is kept of it
besides junk is the same, but for locations: the entries are read off their header lines one by one, and each is
read from the same tokens.

* `withReturns`: a source with a carriage return before every line feed.
* `unlocated_entryAt`: the entry that a header line opens, in another style of lines.
* `unlocated_keptFrom`: what a body keeps besides its junk, in another style of lines.
* `parse_withReturns`: the messages, terms and comments of a source with carriage returns.
-/

namespace Fluent

variable {y : LineStyle} {source : List Char} {c c' : Cursor} {limit : Nat}

/-! ## Entries in another style -/

/-- Tokens that say the same make the same entry, but for locations. -/
theorem unlocated_entryOf {M : Matching} {ls ls' : List Lexeme} (m m' : LineMap)
    (h : List.Forall₂ (Lexeme.Retold M) ls ls') :
    (entryOf m' ls').map Entry.unlocated = (entryOf m ls).map Entry.unlocated := by
  have hread : Alike Fault.Retold (SameUnder Entry.unlocated) (entry ⟨m, 0, .nothing⟩ ⟨ls, 0⟩)
      (entry ⟨m', 0, .nothing⟩ ⟨ls', 0⟩) := retold_entry rfl h
  unfold entryOf
  generalize entry ⟨m, 0, .nothing⟩ ⟨ls, 0⟩ = x at hread
  generalize entry ⟨m', 0, .nothing⟩ ⟨ls', 0⟩ = x' at hread
  cases hread with
  | ok he => exact congrArg some he
  | error => rfl

/-- **A header line opens the same entry in any style**, or none in both. -/
theorem unlocated_entryAt (limit : Nat) (hfits : y.Fits source) (h : c.SameLine y source c') (m m' : LineMap) :
    (entryAt limit m' c').map Entry.unlocated = (entryAt limit m c).map Entry.unlocated := by
  unfold entryAt
  rw [h.rest, LineStyle.entryHeader?_line]
  cases ha : Line.entryHeader? c.rest with
  | none => rfl
  | some b =>
    obtain ⟨isTerm, a⟩ := b
    rw [Option.map_some, Option.bind_some, Option.bind_some]
    rcases State.restyled_run_ofHeader limit hfits h ha with hrun | ⟨-, hunfinished, hunfinished'⟩
    · exact unlocated_entryOf m m' hrun.lexemes
    · rw [hunfinished.entryOf_eq_none, hunfinished'.entryOf_eq_none]

/-- The comment that begins at the same line start, and what stands behind its lines. -/
theorem unlocated_comment (hfits : y.Fits source) (h : c.SameLine y source c') {level : CommentLevel}
    (hlevel : Line.commentLevel? c.rest = some level) (s s' : Source) :
    (joinComment s' (commentLine level c') (commentLines level c'.nextLine).1).unlocated =
      (joinComment s (commentLine level c) (commentLines level c.nextLine).1).unlocated :=
  unlocated_joinComment s s' (h.comment hfits hlevel)

/-- **What is kept of a body** besides its junk is the same in any style. -/
theorem unlocated_keptFrom (limit : Nat) (hfits : y.Fits source) (s s' : Source) (h : c.SameLine y source c') :
    (keptFrom limit s' c').map Entry.unlocated = (keptFrom limit s c).map Entry.unlocated := by
  have hdocumented {c c' : Cursor} (h : c.SameLine y source c') (level : CommentLevel) :
      (if level = .comment then entryAt limit s'.lines c' else none).map Entry.unlocated =
        (if level = .comment then entryAt limit s.lines c else none).map Entry.unlocated := by
    split
    · exact unlocated_entryAt limit hfits h s.lines s'.lines
    · rfl
  fun_induction keptFrom limit s c generalizing c' with
  | case1 c hnil => rw [keptFrom_of_nil (h.eq_nil hnil)]
  | case2 c _ _ _ level hlevel lines comment e he =>
    rename_i ih
    have hafter := (h.nextLine.commentLines hfits level).2
    have hsame := hdocumented hafter level
    rw [show (if level = .comment then entryAt limit s.lines lines.2 else none) = some e from he] at hsame
    obtain ⟨e', he', heq⟩ := Option.map_eq_some_iff.1 hsame
    have hcomment := unlocated_comment hfits h hlevel s s'
    rw [keptFrom_of_commentLevel ((h.commentLevel? hfits).trans hlevel)]
    simp only [he']
    rw [List.map_cons, List.map_cons, Entry.document_unlocated, Entry.document_unlocated, heq, hcomment,
      ih hafter.nextLine]
  | case3 c _ _ _ level hlevel lines comment hnone =>
    rename_i ih
    have hafter := (h.nextLine.commentLines hfits level).2
    have hsame := hdocumented hafter level
    rw [show (if level = .comment then entryAt limit s.lines lines.2 else none) = none from hnone] at hsame
    have hcomment := unlocated_comment hfits h hlevel s s'
    rw [keptFrom_of_commentLevel ((h.commentLevel? hfits).trans hlevel)]
    simp only [Option.map_eq_none_iff.1 hsame]
    rw [List.map_cons, List.map_cons, ih hafter]
    exact congrArg (Entry.comment · :: _) hcomment
  | case4 c _ _ _ hlevel ih =>
    rw [keptFrom_of_line ((h.commentLevel? hfits).trans hlevel), List.map_append, List.map_append, ih h.nextLine,
      ← Option.toList_map, unlocated_entryAt limit hfits h s.lines s'.lines, Option.toList_map]

/-! ## Carriage returns -/

/-- A source with a carriage return before every line feed. -/
def withReturns (source : String) : String :=
  String.ofList (source.toList.flatMap fun c => if c = '\n' then ['\r', '\n'] else [c])

/-- Carriage returns before the line feeds, and no spaces more. -/
def LineStyle.returned : LineStyle := ⟨0, true⟩

theorem LineStyle.line_returned (cs : List Char) :
    returned.line cs = cs.flatMap fun c => if c = '\n' then ['\r', '\n'] else [c] := by
  have hlead (cs : List Char) : returned.lead cs = [] := by
    rcases returned.lead_eq cs with h | ⟨-, -, h⟩ <;> exact h
  rw [line, hlead, List.nil_append]
  induction cs with
  | nil => rfl
  | cons c cs ih =>
    rw [inner, hlead, List.nil_append, ih, List.flatMap_cons]
    split <;> rfl

/-- **Line endings make no difference** to the messages, the terms and the comments of a source, locations aside. -/
theorem parse_withReturns {source : String} (h : '\r' ∉ source.toList) (o : ParseOptions) :
    ((parse o (withReturns source)).body.filter (·.junk?.isNone)).map Entry.unlocated =
      ((parse o source).body.filter (·.junk?.isNone)).map Entry.unlocated := by
  have hchars : (withReturns source).toList = LineStyle.returned.line source.toList := by
    rw [withReturns, String.toList_ofList, LineStyle.line_returned]
  have hkept := unlocated_keptFrom o.maxNesting (fun _ => h) (.ofString source) (.ofString (withReturns source))
    (Cursor.sameLine_ofChars LineStyle.returned source.toList)
  rw [← hchars, ← filter_body, ← filter_body] at hkept
  exact unlocated_parse o hkept

/-- A comment, and a pattern of two lines with a string in it. -/
theorem parse_withReturns_documented :
    '\r' ∉ "# b\na = c\n  \x7b \"d\" \x7d\n".toList ∧
      ((parse ⟨.reject, 1⟩ (withReturns "# b\na = c\n  \x7b \"d\" \x7d\n")).body.filter
          (·.junk?.isNone)).map Entry.unlocated =
        ((parse ⟨.reject, 1⟩ "# b\na = c\n  \x7b \"d\" \x7d\n").body.filter
          (·.junk?.isNone)).map Entry.unlocated :=
  ⟨by decide, parse_withReturns (by decide) _⟩

end Fluent
