import Fluent.Proofs.Determined
import Fluent.Proofs.Nested
import Fluent.Proofs.Passed

/-!
# What a body keeps, line by line

Where the reading of an entry ends decides how the lines behind it are cut into blocks, but all of these lines are
quiet. So the messages, terms and comments of a body can be read off the lines: each header line gives the entry
that its reading makes, if it makes one, and each run of comment lines gives a comment.

* `entryAt limit m c`: the entry that the header line at `c` opens, if there is one.
* `keptFrom limit s c`: the messages, terms and comments from the line start `c` on.
* `Grouped.kept`, `filter_body`: a body without its junk.
-/

namespace Fluent

variable {limit : Nat} {s : Source} {c d : Cursor} {bs : List Block}

/-! ## Entries by their header lines -/

/-- The entry that some tokens make. -/
def entryOf (m : LineMap) (ls : List Lexeme) : Option Entry := (entry ⟨m, 0, .nothing⟩ ⟨ls, 0⟩).toOption

/-- The entry that a header line opens, if the grammar takes everything that is read from there on. -/
def entryAt (limit : Nat) (m : LineMap) (c : Cursor) : Option Entry :=
  (Line.entryHeader? c.rest).bind fun h => entryOf m ((State.ofHeader c h.1 h.2).run limit).2.lexemes

/-- What stands behind the tokens of an entry decides nothing. -/
theorem entryOf_eq_some {f : Fence} {ls : List Lexeme} {e : Entry} :
    entryOf f.lines ls = some e ↔ entry f ⟨ls, 0⟩ = .ok e := by
  have hok (x : Except Fault Entry) : x.toOption = some e ↔ x = .ok e := by
    cases x <;> simp [Except.toOption]
  rw [entryOf, hok]
  constructor
  · intro h
    have hderived := derived_entry h
    exact Entry.Derived.read (f := f) hderived
  · intro h
    have hderived := derived_entry h
    exact Entry.Derived.read (f := ⟨f.lines, 0, .nothing⟩) hderived

theorem blockEntry_eq_ok {l : Lexeme} {ls : List Lexeme} {e : Entry} :
    blockEntry s l ls bs = .ok e ↔ entryOf s.lines (l :: ls) = some e := by
  rw [blockEntry, ← entryOf_eq_some, lines_fenceAt]

/-- An entry has a first token. -/
theorem exists_cons_of_entryOf {m : LineMap} {ls : List Lexeme} {e : Entry} (h : entryOf m ls = some e) :
    ∃ l ls', ls = l :: ls' := by
  cases ls with
  | nil => cases h
  | cons l ls => exact ⟨l, ls, rfl⟩

/-- What is read as an entry is no junk. -/
theorem junk?_of_entryOf {m : LineMap} {ls : List Lexeme} {e : Entry} (h : entryOf m ls = some e) :
    e.junk? = none ∧ ∀ comment, (e.document comment).junk? = none := by
  cases derived_entry (entryOf_eq_some (f := ⟨m, 0, .nothing⟩).1 h) with
  | message => exact ⟨rfl, fun _ => rfl⟩
  | term => exact ⟨rfl, fun _ => rfl⟩

theorem Line.Quiet.entryAt_eq_none {m : LineMap} (h : Line.Quiet c.rest) : entryAt limit m c = none := by
  rw [entryAt, h.2, Option.bind_none]

theorem Line.commentLevel?_of_entryHeader {cs : List Char} {isTerm : Bool} {a : Assignment}
    (ha : entryHeader? cs = some (isTerm, a)) : commentLevel? cs = none := by
  obtain ⟨x, rest, rfl, hopens⟩ := opensHeader_of_header ha
  exact commentLevel?_of_header hopens

/-- A header line begins an entry block. -/
theorem blocksFrom_of_header {isTerm : Bool} {a : Line.Assignment}
    (ha : Line.entryHeader? c.rest = some (isTerm, a)) :
    blocksFrom limit c =
      .entry isTerm (String.ofList a.name) c.offset ((State.ofHeader c isTerm a).run limit).2.lexemes
        ((State.ofHeader c isTerm a).run limit).1 ::
      blocksFrom limit ((State.ofHeader c isTerm a).run limit).2.cursor.nextLine := by
  obtain ⟨x, rest, hrest, hopens⟩ := Line.opensHeader_of_header ha
  have hblank : Line.isBlank c.rest = false := by
    rw [hrest]
    exact (Line.header_spec hopens).1
  rw [blocksFrom_of_ne_nil (by simp [hrest]), block_of_header hblank (Line.commentLevel?_of_entryHeader ha) ha]

/-- The blocks from a header line on begin with an entry if the line opens one. -/
theorem beginsWithEntry_of_entryAt {e : Entry} (h : entryAt limit s.lines c = some e) :
    BeginsWithEntry s (blocksFrom limit c) := by
  obtain ⟨⟨isTerm, a⟩, ha, he⟩ := Option.bind_eq_some_iff.1 h
  obtain ⟨l, ls, hls⟩ := exists_cons_of_entryOf he
  rw [blocksFrom_of_header ha]
  simp only [hls] at he ⊢
  exact ⟨e, blockEntry_eq_ok.2 he⟩

/-! ## Line by line -/

theorem length_rest_commentLines_lt (level : CommentLevel) (hc : c.rest ≠ []) :
    (commentLines level c.nextLine).2.rest.length < c.rest.length :=
  Nat.lt_of_le_of_lt (length_rest_commentLines_le level c.nextLine) (c.length_rest_nextLine_lt hc)

/-- The messages, terms and comments from a line start on. A comment of the lowest level belongs to the entry that
the line behind it opens. -/
def keptFrom (limit : Nat) (s : Source) (c : Cursor) : List Entry :=
  match _h : c.rest with
  | [] => []
  | _ :: _ =>
    match Line.commentLevel? c.rest with
    | some level =>
      let lines := commentLines level c.nextLine
      let comment := joinComment s (commentLine level c) lines.1
      match if level = .comment then entryAt limit s.lines lines.2 else none with
      | some e => e.document comment :: keptFrom limit s lines.2.nextLine
      | none => .comment comment :: keptFrom limit s lines.2
    | none => (entryAt limit s.lines c).toList ++ keptFrom limit s c.nextLine
termination_by c.rest.length
decreasing_by
  · exact Nat.lt_of_le_of_lt (Cursor.length_rest_nextLine_le _) (length_rest_commentLines_lt _ (by simp [_h]))
  · exact length_rest_commentLines_lt _ (by simp [_h])
  · exact c.length_rest_nextLine_lt (by simp [_h])

theorem keptFrom_of_nil (h : c.rest = []) : keptFrom limit s c = [] := by
  rw [keptFrom]
  split
  · rfl
  · rename_i hcons
    simp [h] at hcons

theorem keptFrom_of_commentLevel {level : CommentLevel} (h : Line.commentLevel? c.rest = some level) :
    keptFrom limit s c =
      let lines := commentLines level c.nextLine
      let comment := joinComment s (commentLine level c) lines.1
      match if level = .comment then entryAt limit s.lines lines.2 else none with
      | some e => e.document comment :: keptFrom limit s lines.2.nextLine
      | none => .comment comment :: keptFrom limit s lines.2 := by
  rw [keptFrom]
  split
  · rename_i hnil
    rw [hnil] at h
    cases h
  · rw [h]

theorem keptFrom_of_line (h : Line.commentLevel? c.rest = none) :
    keptFrom limit s c = (entryAt limit s.lines c).toList ++ keptFrom limit s c.nextLine := by
  cases hrest : c.rest with
  | nil =>
    have hquiet : Line.Quiet c.rest := by
      rw [hrest]
      exact ⟨rfl, rfl⟩
    have hnext : c.nextLine.rest = [] := by simp [Cursor.nextLine, Cursor.lineEnd, Cursor.skip, Cursor.skipWhile, hrest]
    rw [keptFrom_of_nil hrest, keptFrom_of_nil hnext, hquiet.entryAt_eq_none]
    rfl
  | cons x rest =>
    rw [keptFrom]
    split
    · rename_i hnil
      simp [hrest] at hnil
    · rw [h]

/-- Quiet lines hold nothing. -/
theorem keptFrom_of_passes (h : c.Passes d) : keptFrom limit s c = keptFrom limit s d := by
  induction h with
  | refl => rfl
  | line hquiet _ ih =>
    rw [keptFrom_of_line hquiet.1, hquiet.entryAt_eq_none, ← ih, Option.toList_none, List.nil_append]

theorem Cursor.passes_skipBlankLines (c : Cursor) : c.Passes c.skipBlankLines := by
  fun_induction Cursor.skipBlankLines c with
  | case1 => exact .refl _
  | case2 c _ _ _ hblank ih => exact .line (Line.quiet_of_isBlank hblank) ih
  | case3 => exact .refl _

/-- Stray lines are quiet. -/
theorem passes_strays {spans : List Span} (h : blocksFrom limit c = spans.map .stray ++ bs) :
    ∃ d : Cursor, c.Passes d ∧ blocksFrom limit d = bs := by
  induction spans generalizing c with
  | nil => exact ⟨c, .refl c, h⟩
  | cons span spans ih =>
    obtain ⟨-, hblock, hrest⟩ := blocksFrom_eq_cons h
    obtain ⟨hnext, -⟩ := block_eq_stray hblock
    obtain ⟨-, hlevel, hheader⟩ := block_stray_iff.1 ⟨span, hblock⟩
    rw [hnext] at hrest
    obtain ⟨d, hpasses, hbs⟩ := ih hrest
    exact ⟨d, .line ⟨hlevel, hheader⟩ hpasses, hbs⟩

/-- What an entry block holds is what its header line opens, and its other lines are quiet. -/
theorem keptFrom_entry {isTerm : Bool} {name : String} {start : Nat} {l : Lexeme} {ls : List Lexeme} {ending : Ending}
    (h : blocksFrom limit c = .entry isTerm name start (l :: ls) ending :: bs) :
    ∃ d : Cursor, blocksFrom limit d = bs ∧ c.nextLine.Passes d ∧ Line.commentLevel? c.rest = none ∧
      ∀ m, entryAt limit m c = entryOf m (l :: ls) := by
  obtain ⟨-, hblock, hrest⟩ := blocksFrom_eq_cons h
  obtain ⟨hblank, hlevel, a, ha, -⟩ := header_of_block hblock
  rw [block_of_header hblank hlevel ha] at hblock hrest
  obtain ⟨-, -, -, hls, -⟩ := Block.entry.inj hblock
  refine ⟨_, hrest, State.passes_run_ofHeader ha limit, hlevel, ?_⟩
  intro m
  rw [entryAt, ha, Option.bind_some, hls]

/-- A blank block takes blank lines. -/
theorem passes_blank {span : Span} (h : (block limit c).1 = .blank span) : c.Passes (block limit c).2 := by
  have hblock := blockReads limit c
  rw [h] at hblock
  generalize (block limit c).2 = d at hblock ⊢
  cases hblock with
  | blank hblank => exact .line (Line.quiet_of_isBlank hblank) (Cursor.passes_skipBlankLines _)

/-- Comment lines make a comment of their level. -/
theorem level_commentLines (level : CommentLevel) (c : Cursor) :
    (joinComment s (commentLine level c) (commentLines level c.nextLine).1).level = level :=
  level_joinComment (token_commentLine_cons level c)

/-- **The entries of some blocks, but for the junk**, are those that their lines open. -/
theorem Grouped.kept {es : List Entry} (h : Grouped s bs es) (hbs : blocksFrom limit c = bs) :
    es.filter (·.junk?.isNone) = keptFrom limit s c := by
  induction h generalizing c with
  | nil =>
    rw [blocksFrom] at hbs
    split at hbs
    · rename_i hnil
      rw [keptFrom_of_nil hnil]
      rfl
    · cases hbs
  | @blank span bs es _ ih =>
    obtain ⟨-, hblock, hrest⟩ := blocksFrom_eq_cons hbs
    rw [keptFrom_of_passes (passes_blank hblock)]
    exact ih hrest
  | @stray span spans bs es _ _ ih =>
    have hstrays : blocksFrom limit c = (span :: spans).map .stray ++ bs := hbs
    obtain ⟨d, hpasses, hd⟩ := passes_strays hstrays
    rw [keptFrom_of_passes hpasses, ← ih hd]
    rfl
  | @comment l close ls bs es halone _ ih =>
    obtain ⟨-, hblock, hrest⟩ := blocksFrom_eq_cons hbs
    obtain ⟨level, hlevel, rfl, rfl, hnext⟩ := block_eq_comment hblock
    rw [hnext] at hrest
    rw [level_commentLines] at halone
    -- such a comment has no entry behind it, whichever reason keeps it alone
    have hnone :
        (if level = .comment then entryAt limit s.lines (commentLines level c.nextLine).2 else none) = none := by
      split
      · rename_i hlowest
        rw [Option.eq_none_iff_forall_not_mem]
        intro e he
        have hbegins := beginsWithEntry_of_entryAt he
        rw [hrest] at hbegins
        exact halone hlowest hbegins
      · rfl
    rw [keptFrom_of_commentLevel hlevel]
    simp only [hnone, ← ih hrest]
    rfl
  | @documented l close m ls ms isTerm name start ending bs es e hlowest he _ ih =>
    obtain ⟨-, hblock, hrest⟩ := blocksFrom_eq_cons hbs
    obtain ⟨level, hlevel, rfl, rfl, hnext⟩ := block_eq_comment hblock
    rw [hnext] at hrest
    rw [level_commentLines] at hlowest
    obtain ⟨d, hd, hpasses, -, hentry⟩ := keptFrom_entry hrest
    have hsome := blockEntry_eq_ok.1 he
    rw [keptFrom_of_commentLevel hlevel]
    simp only [if_pos hlowest, hentry, hsome, keptFrom_of_passes hpasses, ← ih hd]
    simp [(junk?_of_entryOf hsome).2]
  | @entry l ls isTerm name start ending bs es e he _ ih =>
    obtain ⟨d, hd, hpasses, hlevel, hentry⟩ := keptFrom_entry hbs
    have hsome := blockEntry_eq_ok.1 he
    rw [keptFrom_of_line hlevel, keptFrom_of_passes hpasses, hentry, hsome, ← ih hd]
    simp [(junk?_of_entryOf hsome).1]
  | @broken l ls isTerm name start ending bs es fault hfault _ ih =>
    -- a broken entry is junk, so its lines are passed over
    obtain ⟨d, hd, hpasses, hlevel, hentry⟩ := keptFrom_entry hbs
    have hnone : entryOf s.lines (l :: ls) = none := by
      rw [Option.eq_none_iff_forall_not_mem]
      intro e he
      rw [blockEntry_eq_ok.2 he] at hfault
      cases hfault
    rw [keptFrom_of_line hlevel, keptFrom_of_passes hpasses, hentry, hnone, ← ih hd]
    rfl

/-- **A body without its junk** can be read off line by line: each line starts a comment, or an entry, or is passed
over, whatever stands in front of it. -/
theorem filter_body (limit : Nat) (source : String) :
    (body (.ofString source) (tokenize limit source.toList)).filter (·.junk?.isNone) =
      keptFrom limit (.ofString source) (.ofChars source.toList) :=
  (grouped_body limit source).kept rfl

end Fluent
