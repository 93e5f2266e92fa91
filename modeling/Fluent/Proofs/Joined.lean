import Fluent.Proofs.Embedded

/-!
# Entries end where the next one begins

No entry reads beyond the line start of the next one. So a text with an entry at its front can be put behind
any other text that ends in a line feed, and the entries of both are what they were: only a comment of the
lowest level right above would go to the entry.

* `Grouped.unique`: blocks make their entries in one way.
* `Grouped.joined`: the entries of blocks with others behind them.
* `parse_append`: the body of two texts, one behind the other.
-/

namespace Fluent

/-! ## Blocks make their entries in one way -/

/-- Stray lines in a row are counted in one way. -/
theorem strays_unique {spans spans' : List Span} {bs bs' : List Block}
    (h : spans.map Block.stray ++ bs = spans'.map Block.stray ++ bs')
    (hbs : ∀ b ∈ bs.head?, b.isStray = false) (hbs' : ∀ b ∈ bs'.head?, b.isStray = false) :
    spans = spans' ∧ bs = bs' := by
  induction spans generalizing spans' with
  | nil =>
    cases spans' with
    | nil => exact ⟨rfl, h⟩
    | cons span spans' =>
      have := hbs (.stray span) (by rw [show bs = _ from h]; rfl)
      simp [Block.isStray] at this
  | cons span spans ih =>
    cases spans' with
    | nil =>
      have := hbs' (.stray span) (by rw [← show _ = bs' from h]; rfl)
      simp [Block.isStray] at this
    | cons span' spans' =>
      obtain ⟨hspan, hrest⟩ := List.cons.inj h
      obtain ⟨rfl, rfl⟩ := ih hrest
      cases hspan
      exact ⟨rfl, rfl⟩

/-- Blocks make their entries in one way. -/
theorem Grouped.unique {s : Source} {bs : List Block} {es es' : List Entry} (h : Grouped s bs es)
    (h' : Grouped s bs es') : es = es' := by
  induction h generalizing es' with
  | nil =>
    cases h'
    rfl
  | blank _ ih =>
    cases h' with
    | blank h' => exact ih h'
  | stray hhead _ ih =>
    -- the index is no pattern of variables, so the rules for it are told apart by hand
    generalize hall : Block.stray _ :: _ = all at h'
    cases h' with
    | stray hhead' h' =>
      obtain ⟨hspan, hrest⟩ := List.cons.inj hall
      cases hspan
      obtain ⟨rfl, rfl⟩ := strays_unique hrest hhead hhead'
      rw [ih h']
    | _ => cases hall
  | comment hnot _ ih =>
    cases h' with
    | comment _ h' => rw [ih h']
    | documented hlevel hok h' => exact (hnot hlevel ⟨_, hok⟩).elim
  | documented hlevel hok hgrouped ih =>
    cases h' with
    | comment hnot h' => exact (hnot hlevel ⟨_, hok⟩).elim
    | documented _ hok' h' =>
      rw [hok] at hok'
      cases hok'
      rw [ih h']
  | entry hok _ ih =>
    cases h' with
    | entry hok' h' =>
      rw [hok] at hok'
      cases hok'
      rw [ih h']
    | broken hfault h' =>
      rw [hok] at hfault
      cases hfault
  | broken hfault _ ih =>
    cases h' with
    | entry hok' h' =>
      rw [hfault] at hok'
      cases hok'
    | broken hfault' h' =>
      rw [hfault] at hfault'
      cases hfault'
      rw [ih h']

/-! ## Blocks with others behind them -/

/-- The last of some blocks is a comment of the lowest level. What comes behind such a text may take the comment for its
own, or go on with it. -/
def EndsOpen (s : Source) (bs : List Block) : Prop :=
  ∃ l ls close, bs.getLast? = some (.comment (l :: ls) close) ∧ (joinComment s l ls).level = .comment

theorem EndsOpen.cons {s : Source} {bs : List Block} (b : Block) (h : EndsOpen s bs) :
    EndsOpen s (b :: bs) := by
  obtain ⟨l, ls, close, hlast, hlevel⟩ := h
  refine ⟨l, ls, close, ?_, hlevel⟩
  rw [List.getLast?_cons, hlast]
  rfl

theorem EndsOpen.append {s : Source} {bs : List Block} (as : List Block) (h : EndsOpen s bs) :
    EndsOpen s (as ++ bs) := by
  induction as with
  | nil => exact h
  | cons a as ih => exact ih.cons a

/-- The entries of blocks that stand in another source, but for what faults found: at the end of the first source there
is more text in the second. -/
def Agree (d : Shift) (es es' : List Entry) : Prop :=
  es'.map Entry.withoutFound = (es.map (Entry.shift d)).map Entry.withoutFound

theorem Agree.cons {d : Shift} {e e' : Entry} {es es' : List Entry}
    (he : e'.withoutFound = (e.shift d).withoutFound) (h : Agree d es es') :
    Agree d (e :: es) (e' :: es') := by
  rw [Agree, List.map_cons, List.map_cons, List.map_cons, he, h]

section

variable {d : Shift} {source source' : String} {bs cs : List Block} {es gs : List Entry}

/-- The lexemes of some blocks lie in the source. -/
def BlocksWithin (source : String) (bs : List Block) : Prop :=
  AllWithin source (bs.flatMap Block.lexemes)

theorem BlocksWithin.of_append {as : List Block} (h : BlocksWithin source (as ++ bs)) :
    BlocksWithin source bs := by
  intro l hl
  apply h l
  rw [List.flatMap_append]
  exact List.mem_append_right _ hl

theorem BlocksWithin.tail {b : Block} (h : BlocksWithin source (b :: bs)) : BlocksWithin source bs :=
  of_append (show BlocksWithin source ([b] ++ bs) from h)

theorem BlocksWithin.head {b : Block} (h : BlocksWithin source (b :: bs)) :
    AllWithin source b.lexemes := by
  intro l hl
  apply h l
  rw [List.flatMap_cons]
  exact List.mem_append_left _ hl

/-- Where the blocks begin with an entry further on, they do so in their own source. -/
theorem BeginsWithEntry.of_embedded {b : Block} (h : Embedded d source source')
    (hwithin : BlocksWithin source (b :: bs))
    (hend : (fenceAt (.ofString source') (cs.flatMap Block.lexemes)).position =
      byteCount source.toList + d.bytes)
    (hbegins : BeginsWithEntry (.ofString source') ((b :: bs).map (Block.move d.bytes) ++ cs)) :
    BeginsWithEntry (.ofString source) (b :: bs) := by
  cases b with
  | blank | stray | comment => exact hbegins.elim
  | entry isTerm name start lexemes ending =>
    cases lexemes with
    | nil => exact hbegins.elim
    | cons m ms =>
      obtain ⟨e', he'⟩ := hbegins
      have halike := h.alike_blockEntry hwithin.head hwithin.tail hend
      cases hblock : blockEntry (.ofString source) m ms bs with
      | ok e => exact ⟨e, hblock⟩
      | error fault =>
        rw [hblock] at halike
        obtain ⟨fault', hfault', -⟩ := halike.of_error
        cases hfault'.symm.trans he'

/-- **The entries of blocks with others behind them.** The blocks stand in another source, and an entry
begins what is behind them, if anything is. -/
theorem Grouped.joined (h : Embedded d source source') (hbs : Grouped (.ofString source) bs es)
    (hcs : Grouped (.ofString source') cs gs) (hwithin : BlocksWithin source bs)
    (hend : (fenceAt (.ofString source') (cs.flatMap Block.lexemes)).position =
      byteCount source.toList + d.bytes)
    (hfirst : ∀ b ∈ cs.head?, b.isEntry = true) (hopen : EndsOpen (.ofString source) bs → cs = []) :
    ∃ es', Grouped (.ofString source') (bs.map (Block.move d.bytes) ++ cs) (es' ++ gs) ∧ Agree d es es' := by
  induction hbs with
  | nil => exact ⟨[], hcs, rfl⟩
  | @blank span bs es _ ih =>
    obtain ⟨es', hgrouped, hagree⟩ := ih hwithin.tail fun hbs => hopen (hbs.cons _)
    exact ⟨es', .blank hgrouped, hagree⟩
  | @stray span spans bs es hhead _ ih =>
    have hrest : BlocksWithin source bs := hwithin.tail.of_append
    obtain ⟨es', hgrouped, hagree⟩ := ih hrest fun hbs => hopen ((hbs.append _).cons _)
    -- the row of stray lines ends where it did, since an entry follows it at the join
    have hhead' : ∀ b ∈ (bs.map (Block.move d.bytes) ++ cs).head?, b.isStray = false := by
      intro b hb
      cases bs with
      | nil =>
        have hentry := hfirst b hb
        cases b with
        | stray => simp [Block.isEntry] at hentry
        | _ => rfl
      | cons a bs =>
        have hstray := hhead a rfl
        obtain rfl : a.move d.bytes = b := by simpa using hb
        cases a with
        | stray => simp [Block.isStray] at hstray
        | _ => rfl
    have hlexemes : AllWithin source (strayLexeme span :: spans.map strayLexeme) := by
      intro m hm
      apply hwithin m
      rw [flatMap_lexemes_stray, List.flatMap_append, flatMap_lexemes_strays, ← List.cons_append]
      exact List.mem_append_left _ hm
    have hmoved : (Block.stray span :: (spans.map Block.stray ++ bs)).map (Block.move d.bytes) ++ cs =
        .stray (span.move d.bytes) :: ((spans.map (Span.move d.bytes)).map .stray ++
          (bs.map (Block.move d.bytes) ++ cs)) := by
      simp [Block.move]
    rw [hmoved]
    refine ⟨_ :: es', .stray hhead' hgrouped, hagree.cons ?_⟩
    rw [← h.strayJunk hlexemes, List.map_map, List.map_map]
    rfl
  | @comment l close ls bs es hnot _ ih =>
    obtain ⟨es', hgrouped, hagree⟩ := ih hwithin.tail fun hbs => hopen (hbs.cons _)
    have hlines : AllWithin source (l :: ls) :=
      fun m hm => hwithin.head m (List.mem_append_left _ hm)
    have hcomment := h.joinComment hlines
    refine ⟨_ :: es', .comment ?_ hgrouped, hagree.cons (congrArg _ ?_)⟩
    · intro hlevel hbegins
      rw [hcomment] at hlevel
      -- at the join the comment would go to the entry behind it, and only there
      cases bs with
      | nil =>
        obtain rfl := hopen ⟨l, ls, close, rfl, hlevel⟩
        exact hbegins.elim
      | cons b bs => exact hnot hlevel (hbegins.of_embedded h hwithin.tail hend)
    · rw [hcomment]
      rfl
  | @documented l close m ls ms isTerm name start ending bs es e hlevel hok _ ih =>
    obtain ⟨es', hgrouped, hagree⟩ := ih hwithin.tail.tail fun hbs => hopen ((hbs.cons _).cons _)
    have hlines : AllWithin source (l :: ls) :=
      fun m hm => hwithin.head m (List.mem_append_left _ hm)
    have hcomment := h.joinComment hlines
    have halike := h.alike_blockEntry hwithin.tail.head hwithin.tail.tail hend
    rw [hok] at halike
    obtain ⟨e', hok', rfl⟩ := halike.of_ok
    have hlevel' : (joinComment (.ofString source') (l.move d.bytes) (ls.map (Lexeme.move d.bytes))).level =
        .comment := by
      rw [hcomment]
      exact hlevel
    refine ⟨_ :: es', .documented hlevel' hok' hgrouped, hagree.cons ?_⟩
    rw [hcomment, Entry.document_shift]
  | @entry m ms isTerm name start ending bs es e hok _ ih =>
    obtain ⟨es', hgrouped, hagree⟩ := ih hwithin.tail fun hbs => hopen (hbs.cons _)
    have halike := h.alike_blockEntry hwithin.head hwithin.tail hend
    rw [hok] at halike
    obtain ⟨e', hok', rfl⟩ := halike.of_ok
    exact ⟨_ :: es', .entry hok' hgrouped, hagree.cons rfl⟩
  | @broken m ms isTerm name start ending bs es fault hfault _ ih =>
    obtain ⟨es', hgrouped, hagree⟩ := ih hwithin.tail fun hbs => hopen (hbs.cons _)
    have halike := h.alike_blockEntry hwithin.head hwithin.tail hend
    rw [hfault] at halike
    obtain ⟨fault', hfault', hsame⟩ := halike.of_error
    refine ⟨_ :: es', .broken hfault' hgrouped, hagree.cons ?_⟩
    exact h.blockJunk (hwithin.head _ List.mem_cons_self) hwithin.tail hend hsame

end

/-! ## The last line of a text -/

/-- The last line of a text that ends in a line feed. -/
def lastLine (cs : List Char) : List Char := (cs.dropLast.reverse.takeWhile (· != '\n')).reverse

/-- The last line of a text is a comment line of the lowest level: one hash, and then a space or the end of
the line. -/
def EndsWithComment (cs : List Char) : Prop := Line.commentLevel? (lastLine cs ++ ['\n']) = some .comment

theorem lastLine_append {pre line : List Char} (hpre : AtLineStart pre) (hline : '\n' ∉ line) :
    lastLine (pre ++ (line ++ ['\n'])) = line := by
  have hfirst : pre.reverse.takeWhile (· != '\n') = [] := by
    rcases hpre with rfl | hlast
    · rfl
    · rw [← List.head?_reverse] at hlast
      obtain ⟨rest, hrest⟩ := List.head?_eq_some_iff.1 hlast
      rw [hrest]
      rfl
  have hall : ∀ x ∈ line.reverse, (x != '\n') = true := by
    intro x hx
    rw [List.mem_reverse] at hx
    simp only [bne_iff_ne]
    rintro rfl
    exact hline hx
  rw [lastLine, ← List.append_assoc, List.dropLast_concat, List.reverse_append,
    List.takeWhile_append_of_pos hall, hfirst, List.append_nil, List.reverse_reverse]

/-- Comment lines that reach the end of a text begin its last line. -/
theorem last_commentLines {source : List Char} {level : CommentLevel} {c : Cursor} (hc : c.StartsLine source)
    (hlevel : Line.commentLevel? c.rest = some level) (hend : (commentLines level c.nextLine).2.rest = []) :
    ∃ e : Cursor, e.StartsLine source ∧ Line.commentLevel? e.rest = some level ∧ e.nextLine.rest = [] := by
  generalize hnext : c.nextLine = d at hend
  fun_induction commentLines level d generalizing c with
  | case1 d hnil =>
    subst hnext
    exact ⟨c, hc, hlevel, hnil⟩
  | case2 d _ _ hcons hlevel' lines stop heq ih =>
    subst hnext
    obtain ⟨pre, hover, -⟩ := hc
    have hstart := (Cursor.startsLine_nextLine hover).resolve_left (by simp [hcons])
    rw [heq] at ih
    exact ih hstart hlevel' rfl hend
  | case3 d _ _ hcons => simp [hcons] at hend

theorem commentLevel?_lastLine {source : List Char} {level : CommentLevel} {c : Cursor}
    (hsource : source.getLast? = some '\n') (hc : c.StartsLine source)
    (hlevel : Line.commentLevel? c.rest = some level) (hend : c.nextLine.rest = []) :
    Line.commentLevel? (lastLine source ++ ['\n']) = some level := by
  obtain ⟨pre, hover, hpre⟩ := hc
  have hrest : source = pre ++ c.rest := hover.rest
  have hnil : c.rest ≠ [] := by
    intro hnil
    rw [hnil] at hlevel
    simp [Line.commentLevel?, CommentLevel.ofHashes?] at hlevel
  -- the line feed that ends the text is the one that ends this line
  have htail : Line.tail c.rest = ['\n'] := by
    rcases Line.tail_eq_nil_or c.rest with htail | ⟨rest, htail⟩
    · have hhead := Line.head_append_tail c.rest
      rw [htail, List.append_nil] at hhead
      rw [hrest, List.getLast?_append_of_ne_nil _ hnil, ← hhead] at hsource
      exact (Line.newline_notMem_head _ (List.mem_of_getLast? hsource)).elim
    · have hdrop : (Line.tail c.rest).drop 1 = [] := hend
      rw [htail] at hdrop ⊢
      rw [show rest = [] from hdrop]
  have hline := Line.head_append_tail c.rest
  rw [htail] at hline
  rw [← hline] at hlevel
  rw [hrest, ← hline, lastLine_append hpre (Line.newline_notMem_head _)]
  exact hlevel

/-- A block of comment lines at the end of a text has the level of the last line. -/
theorem level_getLast_blocksFrom {source : List Char} {limit : Nat} {c : Cursor} {lines : List Lexeme}
    {close : Lexeme} (hsource : source.getLast? = some '\n') (hc : c.rest = [] ∨ c.StartsLine source)
    (hlast : (blocksFrom limit c).getLast? = some (.comment lines close)) :
    ∃ level, (∀ m ∈ lines, ∃ content, m.token = .comment level content) ∧
      Line.commentLevel? (lastLine source ++ ['\n']) = some level := by
  fun_induction blocksFrom limit c with
  | case1 => simp at hlast
  | case2 c _ _ hcons ih =>
    have hstart := hc.resolve_left (by simp [hcons])
    have hnext := startsLine_block limit hstart
    -- the last block is this one, or it is the last of those behind it
    by_cases hend : (block limit c).2.rest = []
    · rw [blocksFrom_of_nil hend] at hlast
      have hfirst : (block limit c).1 = .comment lines close := Option.some.inj hlast
      have hblock := blockReads limit c
      rw [hfirst] at hblock
      generalize (block limit c).2 = d at hblock hend
      cases hblock with
      | @comment level _ hlevel =>
        obtain ⟨e, he, hlevel', hend'⟩ := last_commentLines hstart hlevel hend
        exact ⟨level, token_commentLine_cons level c, commentLevel?_lastLine hsource he hlevel' hend'⟩
    · refine ih hnext ?_
      have hsome : blocksFrom limit (block limit c).2 ≠ [] := by
        rw [blocksFrom_of_ne_nil hend]
        simp
      rwa [List.getLast?_cons_of_ne_nil hsome] at hlast

theorem level_joinComment {s : Source} {level : CommentLevel} {l : Lexeme} {ls : List Lexeme}
    (hls : ∀ m ∈ l :: ls, ∃ content, m.token = .comment level content) :
    (joinComment s l ls).level = level := by
  have hparts : ∀ q ∈ (l :: ls).filterMap commentPart?, q.1 = level := by
    intro q hq
    obtain ⟨m, hm, hpart⟩ := List.mem_filterMap.1 hq
    obtain ⟨content, hcontent⟩ := hls m hm
    simp only [commentPart?, hcontent, Option.some.injEq] at hpart
    rw [← hpart]
  have hsome : (l :: ls).filterMap commentPart? ≠ [] := by
    obtain ⟨content, hcontent⟩ := hls l List.mem_cons_self
    simp [commentPart?, hcontent]
  rw [joinComment]
  simp only
  rw [List.getLast?_eq_some_getLast hsome, Option.map_some, Option.getD_some]
  exact hparts _ (List.getLast_mem hsome)

/-- A text whose last line is no comment line of the lowest level does not end in such a comment. -/
theorem not_endsOpen {source : String} (limit : Nat) (hsource : AtLineStart source.toList)
    (hcomment : ¬ EndsWithComment source.toList) :
    ¬ EndsOpen (.ofString source) (blocks limit source.toList) := by
  rintro ⟨l, ls, close, hlast, hlevel⟩
  rcases hsource with hnil | hsource
  · rw [hnil, blocks, blocksFrom] at hlast
    cases hlast
  · obtain ⟨level, hlines, hline⟩ :=
      level_getLast_blocksFrom hsource (.inr ⟨[], .refl _, .inl rfl⟩) hlast
    rw [level_joinComment hlines] at hlevel
    rw [hlevel] at hline
    exact hcomment hline

/-! ## A header at the front of a text -/

/-- A text begins with the header of an entry, `-?identifier *=`. Such a line opens an entry whatever stands in front of
it. -/
def BeginsWithHeader (cs : List Char) : Prop :=
  ∃ (dash : Bool) (x : Char) (xs : List Char) (spaces : Nat) (rest : List Char),
    cs = (if dash then ['-'] else []) ++ (x :: xs ++ (List.replicate spaces ' ' ++ '=' :: rest)) ∧
      isIdentifierStart x = true ∧ ∀ y ∈ xs, isIdentifierChar y = true

theorem Line.assignment?_of_header {x : Char} {xs : List Char} (spaces : Nat) (rest : List Char)
    (hx : isIdentifierStart x = true) (hxs : ∀ y ∈ xs, isIdentifierChar y = true) :
    assignment? (x :: xs ++ (List.replicate spaces ' ' ++ '=' :: rest)) = some ⟨x :: xs, spaces, rest⟩ := by
  have hspaces : ∀ y ∈ List.replicate spaces ' ', (y == ' ') = true := by
    intro y hy
    rw [List.eq_of_mem_replicate hy]
    rfl
  have hindent : indent (List.replicate spaces ' ' ++ '=' :: rest) = spaces := by
    rw [indent, List.takeWhile_append_of_pos hspaces, List.takeWhile_cons_of_neg (by decide), List.append_nil,
      List.length_replicate]
  have hdrop : (List.replicate spaces ' ' ++ '=' :: rest).dropWhile (· == ' ') = '=' :: rest := by
    rw [List.dropWhile_append_of_pos hspaces, List.dropWhile_cons_of_neg (by decide)]
  have hafter : ∃ y ys, List.replicate spaces ' ' ++ '=' :: rest = y :: ys ∧ isIdentifierChar y = false := by
    cases spaces with
    | zero => exact ⟨'=', rest, rfl, rfl⟩
    | succ n => exact ⟨' ', _, rfl, rfl⟩
  generalize List.replicate spaces ' ' ++ '=' :: rest = after at hindent hdrop hafter
  obtain ⟨y, ys, rfl, hy⟩ := hafter
  have hname : xs = (xs ++ y :: ys).takeWhile isIdentifierChar := by
    rw [List.takeWhile_append_of_pos hxs, List.takeWhile_cons_of_neg (by simp [hy]), List.append_nil]
  have hrest : (xs ++ y :: ys).dropWhile isIdentifierChar = y :: ys := by
    rw [List.dropWhile_append_of_pos hxs, List.dropWhile_cons_of_neg (by simp [hy])]
  simp only [assignment?, List.cons_append, identifier?, hx, if_true, Option.bind_eq_bind, Option.bind_some,
    hrest, hdrop, hindent, ← hname]

theorem BeginsWithHeader.entryHeader? {cs : List Char} (h : BeginsWithHeader cs) :
    (∃ x v, cs = x :: v ∧ opensHeader x = true) ∧ ∃ b, Line.entryHeader? cs = some b := by
  obtain ⟨dash, x, xs, spaces, rest, rfl, hx, hxs⟩ := h
  have hassign := Line.assignment?_of_header spaces rest hx hxs
  cases dash with
  | true =>
    refine ⟨⟨'-', _, rfl, rfl⟩, ⟨(true, ⟨x :: xs, spaces, rest⟩), ?_⟩⟩
    exact congrArg (Option.map (true, ·)) hassign
  | false =>
    refine ⟨⟨x, _, rfl, by simp [opensHeader, hx]⟩, ⟨(false, ⟨x :: xs, spaces, rest⟩), ?_⟩⟩
    have hminus : x ≠ '-' := by
      rintro rfl
      revert hx
      decide
    simp only [Bool.false_eq_true, if_false, List.nil_append, List.cons_append] at hassign ⊢
    rw [Line.entryHeader?.eq_2 _ (by simpa using hminus), hassign]
    rfl

/-- The first block of a text that begins with a header is an entry. -/
theorem isEntry_head_blocks {cs : List Char} (limit : Nat) (h : BeginsWithHeader cs) :
    ∃ b bs, blocks limit cs = b :: bs ∧ b.isEntry = true := by
  obtain ⟨⟨x, v, rfl, hx⟩, ⟨isTerm, a⟩, ha⟩ := h.entryHeader?
  obtain ⟨hblank, -, -⟩ := Line.header_spec (v := v) hx
  obtain ⟨-, hhash, -⟩ := opensHeader_spec hx
  have hlevel : Line.commentLevel? (x :: v) = none := by
    simp [Line.commentLevel?, hhash, CommentLevel.ofHashes?]
  refine ⟨_, _, blocksFrom_of_ne_nil (c := .ofChars (x :: v)) (List.cons_ne_nil x v), ?_⟩
  simp only [block, Cursor.ofChars, hblank, hlevel, ha]
  rfl

/-! ## Two texts -/

theorem blocksWithin (limit : Nat) (source : String) : BlocksWithin source (blocks limit source.toList) := by
  intro l hl
  obtain ⟨d, -, h⟩ := reads_tokenize limit source.toList
  obtain ⟨-, hle, hstop⟩ := h.span_mem (List.mem_reverse.2 hl)
  have hsize : d.offset = byteCount source.toList := by simpa [Cursor.ofChars] using h.stretch.offset
  rw [hsize] at hstop
  exact ⟨Nat.le_trans hle hstop, hstop⟩

/-- **An entry ends where the next one begins.** Behind a text that ends in a line feed, unless that is a
comment line of the lowest level, a text that begins with a header is read as on its own, and the text in
front of it too: the body of both is the body of the one, and then that of the other further on. -/
theorem parse_append (limit : Nat) {s₁ s₂ : String} (hlines : AtLineStart s₁.toList)
    (hcomment : ¬ EndsWithComment s₁.toList) (hheader : BeginsWithHeader s₂.toList) :
    (parse ⟨.preserve, limit⟩ (s₁ ++ s₂)).body.map Entry.withoutFound =
      ((parse ⟨.preserve, limit⟩ s₁).body ++
        (parse ⟨.preserve, limit⟩ s₂).body.map (Entry.shift (.behind s₁.toList))).map Entry.withoutFound := by
  have hchars : (s₁ ++ s₂).toList = s₁.toList ++ s₂.toList := String.toList_append
  have hfront : Embedded .zero s₁ (s₁ ++ s₂) := ⟨[], s₂.toList, hchars, .inl rfl, rfl⟩
  have hback : Embedded (.behind s₁.toList) s₂ (s₁ ++ s₂) :=
    ⟨s₁.toList, [], by rw [hchars, List.append_nil], hlines, rfl⟩
  obtain ⟨hopens, -⟩ := hheader.entryHeader?
  obtain ⟨b, bs, hblocks, hentry⟩ := isEntry_head_blocks limit hheader
  have hsize : (fenceAt (.ofString (s₁ ++ s₂)) []).position = byteCount s₂.toList + byteCount s₁.toList := by
    show byteCount (s₁ ++ s₂).toList = _
    rw [hchars, byteCount_append, Nat.add_comm]
  -- first what stands behind, and then what stands in front of it
  obtain ⟨es₂, hgrouped₂, hagree₂⟩ := (grouped_body limit s₂).joined hback .nil (blocksWithin limit s₂) hsize
    (by simp) fun _ => rfl
  rw [List.append_nil, List.append_nil] at hgrouped₂
  have hfence : (fenceAt (.ofString (s₁ ++ s₂))
      (((blocks limit s₂.toList).map (Block.move (byteCount s₁.toList))).flatMap Block.lexemes)).position =
      byteCount s₁.toList + 0 := by
    obtain ⟨e, hlaid⟩ := laid_blocks limit s₂
    rcases hlaid.head with ⟨hnil, -⟩ | ⟨l, ls, hl, hstart, -⟩
    · rw [hnil] at hblocks
      cases hblocks
    · rw [flatMap_lexemes_move, hl]
      show l.span.start + byteCount s₁.toList = _
      rw [hstart, Nat.add_comm]
      rfl
  have hfirst : ∀ a ∈ ((blocks limit s₂.toList).map (Block.move (byteCount s₁.toList))).head?,
      a.isEntry = true := by
    intro a ha
    rw [hblocks] at ha
    obtain rfl : b.move (byteCount s₁.toList) = a := by simpa using ha
    cases b with
    | entry => rfl
    | _ => simp [Block.isEntry] at hentry
  obtain ⟨es₁, hgrouped₁, hagree₁⟩ := (grouped_body limit s₁).joined hfront hgrouped₂ (blocksWithin limit s₁)
    hfence hfirst fun hopen => (not_endsOpen limit hlines hcomment hopen).elim
  have hbody : body (.ofString (s₁ ++ s₂)) (tokenize limit (s₁ ++ s₂).toList) = es₁ ++ es₂ := by
    refine (grouped_body limit (s₁ ++ s₂)).unique ?_
    rw [hchars, blocks_append hlines hopens]
    rwa [show Shift.zero.bytes = 0 from rfl, Block.move_zero, List.map_id] at hgrouped₁
  have hzero : Entry.shift .zero = id := funext Entry.shift_zero
  rw [Agree, hzero, List.map_id] at hagree₁
  calc (parse ⟨.preserve, limit⟩ (s₁ ++ s₂)).body.map Entry.withoutFound
      = (es₁ ++ es₂).map Entry.withoutFound := congrArg (List.map Entry.withoutFound) hbody
    _ = es₁.map Entry.withoutFound ++ es₂.map Entry.withoutFound := List.map_append
    _ = _ := by
      rw [hagree₁, hagree₂, List.map_append]
      rfl

/-- An entry that is cut short inside a placeable does not reach into the next one. -/
theorem parse_append_open_placeable :
    AtLineStart "x = \x7b\n".toList ∧ ¬ EndsWithComment "x = \x7b\n".toList ∧
      BeginsWithHeader "a = b".toList ∧
      (parse ⟨.preserve, 100⟩ ("x = \x7b\n" ++ "a = b")).body.map Entry.withoutFound =
        ((parse ⟨.preserve, 100⟩ "x = \x7b\n").body ++
          (parse ⟨.preserve, 100⟩ "a = b").body.map (Entry.shift (.behind "x = \x7b\n".toList))).map
            Entry.withoutFound := by
  have hlines : AtLineStart "x = \x7b\n".toList := .inr (by decide)
  have hcomment : ¬ EndsWithComment "x = \x7b\n".toList := by
    unfold EndsWithComment
    decide
  have hheader : BeginsWithHeader "a = b".toList :=
    ⟨false, 'a', [], 1, [' ', 'b'], by decide, by decide, by simp⟩
  exact ⟨hlines, hcomment, hheader, parse_append 100 hlines hcomment hheader⟩

end Fluent
