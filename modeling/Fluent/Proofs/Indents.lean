import Fluent.Proofs.Restyled

/-!
# More spaces in front of indented lines

Only what the indentations of the lines of a pattern have in common is taken away from them, and nothing else looks at
how many spaces there are. So a source with more spaces in front of every indented line has the same blocks, and they
make the same body, but for locations, the positions of errors and the content of junk.

* `Block.Restyled`: the same block in another style of lines.
* `restyled_blocksFrom`: the blocks of a source with other indentations.
* `Grouped.restyled`: the same blocks make the same entries.
* `indentMore`: a source with more spaces in front of every indented line.
* `parse_indentMore`: its body is the same.
-/

namespace Fluent

variable {y : LineStyle} {source : List Char} {c c' : Cursor} {s s' : Source} {b b' : Block} {bs bs' : List Block}

/-! ## Blocks in another style -/

/-- The same block in another style: what it spans may differ, its tokens say the same. -/
inductive Block.Restyled (y : LineStyle) (source : List Char) : Block → Block → Prop
  | blank (span span' : Span) : Restyled y source (.blank span) (.blank span')
  | stray (span span' : Span) : Restyled y source (.stray span) (.stray span')
  | comment {ls ls' : List Lexeme} {close close' : Lexeme} : ls'.map (·.token) = ls.map (·.token) →
      close'.token = close.token → Restyled y source (.comment ls close) (.comment ls' close')
  | entry {isTerm : Bool} {name : String} {start start' : Nat} {ls ls' : List Lexeme} {ending ending' : Ending} :
      List.Forall₂ (Lexeme.Retold (y.matching source)) ls ls' →
      Restyled y source (.entry isTerm name start ls ending) (.entry isTerm name start' ls' ending')

theorem map_token_retold {M : Matching} {ls ls' : List Lexeme} (h : List.Forall₂ (Lexeme.Retold M) ls ls') :
    ls'.map (·.token) = ls.map (·.token) := by
  induction h with
  | nil => rfl
  | cons hl _ ih => rw [List.map_cons, List.map_cons, hl.token, ih]

theorem Block.Restyled.map_token (h : b.Restyled y source b') :
    b'.lexemes.map (·.token) = b.lexemes.map (·.token) := by
  cases h with
  | blank => rfl
  | stray => rfl
  | comment hlines hclose =>
    simp only [Block.lexemes, List.map_append, List.map_cons, List.map_nil, hlines, hclose]
  | entry hls => exact map_token_retold hls

theorem Block.Restyled.isStray (h : b.Restyled y source b') : b'.isStray = b.isStray := by
  cases h <;> rfl

/-- What stands behind an entry is told by its first token. -/
theorem found_fenceAt {ls ls' : List Lexeme} (h : ls'.map (·.token) = ls.map (·.token)) :
    (fenceAt s' ls').found = (fenceAt s ls).found := by
  cases ls with
  | nil =>
    obtain rfl : ls' = [] := by simpa using h
    rfl
  | cons l ls =>
    cases ls' with
    | nil => simp at h
    | cons l' ls' => exact congrArg Found.token (List.cons.inj h).1

theorem found_blocks (h : List.Forall₂ (Block.Restyled y source) bs bs') :
    (fenceAt s' (bs'.flatMap Block.lexemes)).found = (fenceAt s (bs.flatMap Block.lexemes)).found := by
  refine found_fenceAt ?_
  induction h with
  | nil => rfl
  | cons hb _ ih => rw [List.flatMap_cons, List.flatMap_cons, List.map_append, List.map_append, hb.map_token, ih]

/-- **The same tokens are read as the same entry** in front of the same blocks, or the same fault is found in them. -/
theorem retold_blockEntry (s s' : Source) {l l' : Lexeme} {ls ls' : List Lexeme}
    (hl : l.Retold (y.matching source) l') (hls : List.Forall₂ (Lexeme.Retold (y.matching source)) ls ls')
    (hbs : List.Forall₂ (Block.Restyled y source) bs bs') :
    Alike Fault.Retold (SameUnder Entry.unlocated) (blockEntry s l ls bs) (blockEntry s' l' ls' bs') :=
  retold_entry (found_blocks hbs) (.cons hl hls)

/-! ## The blocks of a source -/

section Blocks

variable (limit : Nat) (hy : y.returns = false)
include hy

/-- **A block in another style**, where no carriage returns come in. -/
theorem restyled_block (h : c.SameLine y source c') :
    (block limit c).1.Restyled y source (block limit c').1 ∧
      (block limit c).2.SameLine y source (block limit c').2 := by
  have hfits : y.Fits source := .of_returns hy
  have hblank : Line.isBlank c'.rest = Line.isBlank c.rest := by rw [h.rest, LineStyle.isBlank_line]
  have hheader : Line.entryHeader? c'.rest = (Line.entryHeader? c.rest).map fun b => (b.1, y.restyle b.2) := by
    rw [h.rest, LineStyle.entryHeader?_line]
  unfold block
  rw [hblank, h.commentLevel? hfits, hheader]
  split
  · exact ⟨.blank _ _, h.nextLine.skipBlankLines⟩
  · cases hcomment : Line.commentLevel? c.rest with
    | some level => exact ⟨.comment (h.comment hfits hcomment) rfl, (h.nextLine.commentLines hfits level).2⟩
    | none =>
      cases ha : Line.entryHeader? c.rest with
      | none => exact ⟨.stray _ _, h.nextLine⟩
      | some b =>
        obtain ⟨isTerm, a⟩ := b
        rcases State.restyled_run_ofHeader limit hfits h ha with hrun | ⟨hreturns, -⟩
        · exact ⟨.entry hrun.lexemes, hrun.cursor.nextLine⟩
        · rw [hy] at hreturns
          cases hreturns

/-- **The blocks of a source** are the same. -/
theorem restyled_blocksFrom (h : c.SameLine y source c') :
    List.Forall₂ (Block.Restyled y source) (blocksFrom limit c) (blocksFrom limit c') := by
  fun_induction blocksFrom limit c generalizing c' with
  | case1 c hnil =>
    rw [blocksFrom_of_nil (h.eq_nil hnil)]
    exact .nil
  | case2 c _ _ hc ih =>
    obtain ⟨hblock, hstop⟩ := restyled_block limit hy h
    rw [blocksFrom_of_ne_nil (h.ne_nil (by simp [hc]))]
    exact .cons hblock (ih hstop)

end Blocks

/-! ## Their entries -/

/-- Stray lines in a row stay so. -/
theorem forall₂_strays {spans : List Span} {all : List Block}
    (h : List.Forall₂ (Block.Restyled y source) (spans.map .stray ++ bs) all) :
    ∃ (spans' : List Span) (bs' : List Block), all = spans'.map .stray ++ bs' ∧
      List.Forall₂ (Block.Restyled y source) bs bs' := by
  induction spans generalizing all with
  | nil => exact ⟨[], all, rfl, h⟩
  | cons span spans ih =>
    cases h with
    | cons hb hbs =>
      cases hb with
      | stray _ span' =>
        obtain ⟨spans', bs', rfl, hbs'⟩ := ih hbs
        exact ⟨span' :: spans', bs', rfl, hbs'⟩

theorem isStray_head (h : List.Forall₂ (Block.Restyled y source) bs bs')
    (hbs : ∀ b ∈ bs.head?, b.isStray = false) : ∀ b ∈ bs'.head?, b.isStray = false := by
  cases h with
  | nil => exact hbs
  | @cons b b' _ _ hb _ =>
    intro d hd
    obtain rfl : b' = d := by simpa using hd
    rw [hb.isStray]
    exact hbs b rfl

theorem Block.Restyled.exists_comment {l close : Lexeme} {ls : List Lexeme} (s s' : Source)
    (h : (Block.comment (l :: ls) close).Restyled y source b') :
    ∃ l' ls' close', b' = .comment (l' :: ls') close' ∧
      (joinComment s' l' ls').unlocated = (joinComment s l ls).unlocated := by
  cases h with
  | comment htokens _ =>
    obtain ⟨l', ls', rfl, -, -⟩ := List.map_eq_cons_iff.1 htokens
    exact ⟨l', ls', _, rfl, unlocated_joinComment s s' htokens⟩

theorem Block.Restyled.exists_entry {isTerm : Bool} {name : String} {start : Nat} {m : Lexeme} {ms : List Lexeme}
    {ending : Ending} (s s' : Source) (h : (Block.entry isTerm name start (m :: ms) ending).Restyled y source b')
    (hbs : List.Forall₂ (Block.Restyled y source) bs bs') :
    ∃ start' m' ms' ending', b' = .entry isTerm name start' (m' :: ms') ending' ∧
      Alike Fault.Retold (SameUnder Entry.unlocated) (blockEntry s m ms bs) (blockEntry s' m' ms' bs') := by
  cases h with
  | entry hls =>
    cases hls with
    | cons hl hls => exact ⟨_, _, _, _, rfl, retold_blockEntry s s' hl hls hbs⟩

/-- A comment belongs to an entry in one style only if it does in the other. -/
theorem beginsWithEntry_restyled (h : List.Forall₂ (Block.Restyled y source) bs bs')
    (hbegins : BeginsWithEntry s' bs') : BeginsWithEntry s bs := by
  cases h with
  | nil => exact hbegins
  | cons hb hbs =>
    cases hb with
    | blank | stray | comment => exact hbegins
    | entry hls =>
      cases hls with
      | nil => exact hbegins
      | cons hl hls =>
        obtain ⟨e', he'⟩ := hbegins
        have hread := retold_blockEntry s s' hl hls hbs
        rw [he'] at hread
        obtain ⟨e, he, -⟩ := hread.of_ok_right
        exact ⟨e, he⟩

/-- Junk aside, there are no places but locations. -/
theorem placeless_of_blockEntry {l l' : Lexeme} {ls ls' : List Lexeme} {e e' : Entry}
    (he : blockEntry s l ls bs = .ok e) (he' : blockEntry s' l' ls' bs' = .ok e') (h : e'.unlocated = e.unlocated) :
    e'.placeless = e.placeless ∧ ∀ comment comment' : Comment, comment'.unlocated = comment.unlocated →
      (e'.document comment').placeless = (e.document comment).placeless := by
  obtain ⟨hjunk, hdocumented⟩ := junk?_of_entryOf (blockEntry_eq_ok.1 he)
  obtain ⟨hjunk', hdocumented'⟩ := junk?_of_entryOf (blockEntry_eq_ok.1 he')
  refine ⟨?_, ?_⟩
  · rw [Entry.placeless_of_junk hjunk, Entry.placeless_of_junk hjunk', h]
  · intro comment comment' hcomment
    rw [Entry.placeless_of_junk (hdocumented _), Entry.placeless_of_junk (hdocumented' _), Entry.document_unlocated,
      Entry.document_unlocated, h, hcomment]

/-- **The same blocks make the same entries**, but for places. -/
theorem Grouped.restyled (s' : Source) {es : List Entry} (h : Grouped s bs es)
    (hall : List.Forall₂ (Block.Restyled y source) bs bs') :
    ∃ es', Grouped s' bs' es' ∧ es'.map Entry.placeless = es.map Entry.placeless := by
  induction h generalizing bs' with
  | nil =>
    cases hall
    exact ⟨[], .nil, rfl⟩
  | blank _ ih =>
    obtain ⟨b', bs', hb, hbs, rfl⟩ := List.forall₂_cons_left_iff.1 hall
    cases hb
    obtain ⟨es', hgrouped, hes⟩ := ih hbs
    exact ⟨es', .blank hgrouped, hes⟩
  | stray hhead _ ih =>
    obtain ⟨b', rest', hb, hrest, rfl⟩ := List.forall₂_cons_left_iff.1 hall
    cases hb
    obtain ⟨spans', bs', rfl, hbs⟩ := forall₂_strays hrest
    obtain ⟨es', hgrouped, hes⟩ := ih hbs
    refine ⟨_, .stray (isStray_head hbs hhead) hgrouped, ?_⟩
    rw [List.map_cons, List.map_cons, hes]
    rfl
  | comment halone _ ih =>
    obtain ⟨b', bs', hb, hbs, rfl⟩ := List.forall₂_cons_left_iff.1 hall
    obtain ⟨l', ls', close', rfl, hcomment⟩ := hb.exists_comment s s'
    obtain ⟨es', hgrouped, hes⟩ := ih hbs
    have hlevel := congrArg Comment.level hcomment
    refine ⟨_, .comment ?_ hgrouped, ?_⟩
    · -- an entry behind the comment would stand behind it in both
      intro hlowest hbegins
      exact halone (hlevel.symm.trans hlowest) (beginsWithEntry_restyled hbs hbegins)
    · rw [List.map_cons, List.map_cons, hes]
      exact congrArg (Entry.comment · :: _) hcomment
  | documented hlowest he _ ih =>
    obtain ⟨b', rest', hb, hrest, rfl⟩ := List.forall₂_cons_left_iff.1 hall
    obtain ⟨l', ls', close', rfl, hcomment⟩ := hb.exists_comment s s'
    obtain ⟨b', bs', hb, hbs, rfl⟩ := List.forall₂_cons_left_iff.1 hrest
    obtain ⟨start', m', ms', ending', rfl, hread⟩ := hb.exists_entry s s' hbs
    obtain ⟨es', hgrouped, hes⟩ := ih hbs
    rw [he] at hread
    obtain ⟨e', he', hequal⟩ := hread.of_ok
    have hlevel := congrArg Comment.level hcomment
    refine ⟨_, .documented (hlevel.trans hlowest) he' hgrouped, ?_⟩
    rw [List.map_cons, List.map_cons, hes, (placeless_of_blockEntry he he' hequal).2 _ _ hcomment]
  | entry he _ ih =>
    obtain ⟨b', bs', hb, hbs, rfl⟩ := List.forall₂_cons_left_iff.1 hall
    obtain ⟨start', m', ms', ending', rfl, hread⟩ := hb.exists_entry s s' hbs
    obtain ⟨es', hgrouped, hes⟩ := ih hbs
    rw [he] at hread
    obtain ⟨e', he', hequal⟩ := hread.of_ok
    refine ⟨_, .entry he' hgrouped, ?_⟩
    rw [List.map_cons, List.map_cons, hes, (placeless_of_blockEntry he he' hequal).1]
  | broken hfault _ ih =>
    obtain ⟨b', bs', hb, hbs, rfl⟩ := List.forall₂_cons_left_iff.1 hall
    obtain ⟨start', m', ms', ending', rfl, hread⟩ := hb.exists_entry s s' hbs
    obtain ⟨es', hgrouped, hes⟩ := ih hbs
    rw [hfault] at hread
    obtain ⟨fault', hfault', hequal⟩ := hread.of_error
    refine ⟨_, .broken hfault' hgrouped, ?_⟩
    rw [List.map_cons, List.map_cons, hes]
    exact congrArg (fun z => Entry.junk ⟨"", z, default⟩ :: _) hequal

/-! ## More spaces -/

/-- A line with `k` spaces more in front if it begins with a space and has something else in it. -/
def indentLine (k : Nat) (line : List Char) : List Char :=
  if line.head? = some ' ' ∧ ¬ line.all Line.isBlankChar then List.replicate k ' ' ++ line else line

/-- A source with `k` spaces more in front of every line that begins with a space and is not blank. -/
def indentMore (k : Nat) (source : String) : String :=
  String.ofList (['\n'].intercalate ((source.toList.splitOn '\n').map (indentLine k)))

/-- So many spaces more, and no carriage returns. -/
def LineStyle.indented (k : Nat) : LineStyle := ⟨k, false⟩

theorem LineStyle.head_append_newline {xs : List Char} (h : '\n' ∉ xs) (cs : List Char) :
    Line.head (xs ++ '\n' :: cs) = xs ∧ Line.head xs = xs := by
  have hall : ∀ x ∈ xs, (x != '\n') = true := by
    rintro x hx
    have hne : x ≠ '\n' := fun heq => h (heq ▸ hx)
    simpa using hne
  refine ⟨?_, List.takeWhile_eq_self_iff.2 hall⟩
  rw [Line.head, List.takeWhile_append_of_pos hall, List.takeWhile_cons_of_neg (by simp), List.append_nil]

/-- The spaces in front of a line hang on this line alone. -/
theorem LineStyle.lead_append_newline {xs : List Char} (h : '\n' ∉ xs) (cs : List Char) :
    y.lead (xs ++ '\n' :: cs) = y.lead xs := by
  obtain ⟨hhead, hself⟩ := head_append_newline h cs
  have hspace : ((xs ++ '\n' :: cs).head? == some ' ') = (xs.head? == some ' ') := by
    cases xs <;> rfl
  rw [lead, lead, Line.isBlank, Line.isBlank, hhead, hself, hspace]

theorem LineStyle.lead_append_self (k : Nat) {xs : List Char} (h : '\n' ∉ xs) :
    (indented k).lead xs ++ xs = indentLine k xs := by
  have hiff : (!xs.all Line.isBlankChar && xs.head? == some ' ') = true ↔
      xs.head? = some ' ' ∧ ¬ xs.all Line.isBlankChar := by
    rw [Bool.and_eq_true, Bool.not_eq_true', beq_iff_eq, Bool.not_eq_true, and_comm]
  rw [lead, indentLine, Line.isBlank, (head_append_newline h []).2]
  simp only [hiff]
  split <;> rfl

/-- How a text is written follows from how its lines are written, one by one. -/
theorem LineStyle.line_append_newline (k : Nat) {xs : List Char} (h : '\n' ∉ xs) (cs : List Char) :
    (indented k).line (xs ++ '\n' :: cs) = indentLine k xs ++ '\n' :: (indented k).line cs := by
  rw [line, lead_append_newline h, inner_append h, inner_newline, ← List.append_assoc, lead_append_self k h]
  rfl

theorem LineStyle.line_indented (k : Nat) (cs : List Char) :
    (indented k).line cs = ['\n'].intercalate ((cs.splitOn '\n').map (indentLine k)) := by
  by_cases h : '\n' ∈ cs
  · obtain ⟨xs, rest, rfl, hxs⟩ := List.eq_append_cons_of_mem h
    have hrest : (rest.splitOn '\n').map (indentLine k) ≠ [] := by simp [List.splitOn_ne_nil]
    rw [line_append_newline k hxs, line_indented k rest, List.splitOn_append_cons_self_of_not_mem hxs, List.map_cons,
      List.intercalate_cons_of_ne_nil hrest, List.append_assoc, List.singleton_append]
  · have hinner : (indented k).inner cs = cs := by
      rw [← List.append_nil cs, inner_append h]
      rfl
    rw [line, hinner, lead_append_self k h, List.splitOn_eq_singleton h, List.map_singleton, List.intercalate_singleton]
termination_by cs.length

/-- **Only relative indentation matters**: with more spaces in front of every indented line, the body of a source is
the same but for locations, the positions of errors and the content of junk. -/
theorem parse_indentMore (k : Nat) (o : ParseOptions) (source : String) :
    (parse o (indentMore k source)).body.map Entry.placeless = (parse o source).body.map Entry.placeless := by
  have hchars : (indentMore k source).toList = (LineStyle.indented k).line source.toList := by
    rw [indentMore, String.toList_ofList, LineStyle.line_indented]
  have hblocks := restyled_blocksFrom o.maxNesting (y := .indented k) rfl (Cursor.sameLine_ofChars _ source.toList)
  rw [← hchars] at hblocks
  obtain ⟨es, hgrouped, hes⟩ := (grouped_body o.maxNesting source).restyled (.ofString (indentMore k source)) hblocks
  obtain rfl := hgrouped.unique (grouped_body o.maxNesting (indentMore k source))
  exact placeless_parse o hes

end Fluent
