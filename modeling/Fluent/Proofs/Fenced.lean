import Fluent.Proofs.Offsets
import Fluent.Proofs.Origins
import Fluent.Proofs.Appended

/-!
# What an entry is handed

A source is cut into tokens block by block, each block from one line start to a later one. The grammar of a body knows
nothing of blocks: it hands an entry the tokens up to the next fence. Since the fences are the first tokens of blocks
and the comment lines behind them, what it hands to entries are the tokens of the entry blocks, one after the other.

* `blockStarts`: where the blocks from a line start on begin.
* `isFence_iff_utf8`: a fence by the bytes of a source.
* `Block.openers`: the fences of a block; `filter_isFence_block` says that it has no other ones.
* `handed`: what a body hands to entries; `item_of_entryRead?` ties it to the items of the body.
* `Laid.handed_eq`: on laid blocks these are the tokens of the entry blocks.
* `fences_are_blocks`: **the fences of a source are where its blocks begin**.
* `exists_block_of_mem_body`: so each message and each term is read from the tokens of one block.
-/

namespace Fluent

/-! ## Where blocks begin -/

/-- Where the blocks from a line start on begin. -/
def blockStarts (limit : Nat) (c : Cursor) : List Cursor :=
  match _h : c.rest with
  | [] => []
  | _ :: _ => c :: blockStarts limit (block limit c).2
termination_by c.rest.length
decreasing_by exact length_rest_block_lt limit c (by simp [_h])

variable {limit : Nat} {c : Cursor}

theorem blocksFrom_eq_map (limit : Nat) (c : Cursor) :
    blocksFrom limit c = (blockStarts limit c).map fun d => (block limit d).1 := by
  fun_induction blockStarts limit c with
  | case1 c hnil => exact blocksFrom_of_nil hnil
  | case2 c _ _ hcons ih => rw [blocksFrom_of_ne_nil (by simp [hcons]), ih, List.map_cons]

/-- Blocks begin where lines start, in front of some text. -/
theorem startsLine_of_mem_blockStarts {source : List Char} (limit : Nat) (hc : c.AtBreak source) :
    ∀ d ∈ blockStarts limit c, d.StartsLine source ∧ d.rest ≠ [] := by
  fun_induction blockStarts limit c with
  | case1 => simp
  | case2 c _ _ hcons ih =>
    have hne : c.rest ≠ [] := by simp [hcons]
    have hstart := hc.startsLine_of_ne_nil hne
    intro d hd
    rcases List.mem_cons.1 hd with rfl | hd
    · exact ⟨hstart, hne⟩
    · exact ih (atBreak_block limit hstart) d hd

/-- A block ends behind where it begins. -/
theorem offset_lt_block (limit : Nat) (hc : c.rest ≠ []) : c.offset < (block limit c).2.offset := by
  obtain ⟨t, hover⟩ := over_block limit c
  apply hover.offset_lt
  rintro rfl
  have hshorter := length_rest_block_lt limit c hc
  rw [hover.rest] at hshorter
  exact Nat.lt_irrefl _ hshorter

/-! ## Fences -/

/-- A line starts at the front of a source and behind each line feed. -/
theorem LineMap.isLineStart_iff_utf8 (source : List Char) (offset : Nat) :
    (ofChars source).isLineStart offset = true ↔ offset = 0 ∨ (utf8 source)[offset - 1]? = some lineFeed := by
  obtain ⟨start, hline, hposition⟩ := position_utf8 source offset
  have hle := hline.le
  rw [isLineStart, hposition, beq_iff_eq]
  constructor
  · intro hcolumn
    obtain rfl : start = offset := by
      simp only at hcolumn
      omega
    rcases Nat.eq_zero_or_pos start with hzero | hpos
    · exact .inl hzero
    · exact .inr (hline.behind hpos)
  · rintro (rfl | hfeed)
    · exact Nat.zero_sub start
    · -- otherwise the line feed would stand in the line
      rcases Nat.lt_or_eq_of_le hle with hlt | rfl
      · exact absurd hfeed (hline.last (offset - 1) (by omega) (by omega))
      · exact Nat.sub_self start

/-- **A fence** can begin an item, and stands at the front of the source or behind a line feed. -/
theorem isFence_iff_utf8 (source : String) (l : Lexeme) :
    isFence (.ofString source) l = true ↔ l.token.startsItem = true ∧
      (l.span.start = 0 ∨ source.toByteArray.data.toList[l.span.start - 1]? = some lineFeed) := by
  rw [isFence, Bool.and_eq_true, ← utf8_toList]
  exact and_congr_right fun _ => LineMap.isLineStart_iff_utf8 source.toList l.span.start

/-- The first token of a block, and the comment lines behind it. -/
def Block.openers : Block → List Lexeme
  | comment lines _ => lines
  | b => b.lexemes.take 1

/-- Each comment line begins where a line starts. -/
theorem start_commentLines {source : List Char} {level : CommentLevel} (hc : c.rest = [] ∨ c.StartsLine source) :
    ∀ m ∈ (commentLines level c).1, ∃ d : Cursor, d.StartsLine source ∧ m.span.start = d.offset := by
  fun_induction commentLines level c with
  | case1 => simp
  | case2 c _ _ hcons _ lines stop heq ih =>
    have hstart := hc.resolve_left (by simp [hcons])
    obtain ⟨pre, hover, -⟩ := id hstart
    rw [heq] at ih
    intro m hm
    rcases List.mem_cons.1 hm with rfl | hm
    · exact ⟨c, hstart, rfl⟩
    · exact ih (Cursor.startsLine_nextLine hover) m hm
  | case3 => simp

/-- **The fences of a block** are its first token and the comment lines behind it. No other token of a block begins an
item at a line start. -/
theorem filter_isFence_block {source : String} (hc : c.StartsLine source.toList) (hrest : c.rest ≠ []) :
    (block limit c).1.lexemes.filter (isFence (.ofString source)) = (block limit c).1.openers := by
  have hfits := fits_block limit hc hrest
  have hfence : ∀ {l : Lexeme} {d : Cursor}, d.StartsLine source.toList → l.span.start = d.offset →
      l.token.startsItem = true → isFence (.ofString source) l = true := by
    rintro l d ⟨pre, hover, hpre⟩ hstart hitem
    exact (isFence_iff hover hstart).2 ⟨hitem, hpre⟩
  obtain ⟨l, ls, hl, hstart, hitem⟩ := hfits.first
  have hfirst := hfence hc hstart hitem
  cases hb : (block limit c).1 with
  | blank span =>
    rw [hb] at hl
    obtain ⟨rfl, rfl⟩ := List.cons.inj hl
    exact List.filter_cons_of_pos hfirst
  | stray span =>
    rw [hb] at hl
    obtain ⟨rfl, rfl⟩ := List.cons.inj hl
    exact List.filter_cons_of_pos hfirst
  | comment lines close =>
    rw [hb] at hfits
    obtain ⟨hclose, m, ms, level, rfl, -, hlevel⟩ := hfits
    obtain ⟨level', -, rfl, rfl, -⟩ := block_eq_comment hb
    obtain ⟨pre, hover, -⟩ := id hc
    have hlines : ∀ m ∈ commentLine level' c :: (commentLines level' c.nextLine).1,
        isFence (.ofString source) m = true := by
      intro m hm
      have hcomment : m.token.startsItem = true := by
        obtain ⟨content, hcontent⟩ := hlevel m hm
        rw [hcontent]
        rfl
      rcases List.mem_cons.1 hm with rfl | hm
      · exact hfence hc rfl hcomment
      · obtain ⟨d, hd, hstart⟩ := start_commentLines (Cursor.startsLine_nextLine hover) m hm
        exact hfence hd hstart hcomment
    have hnot : ¬ isFence (.ofString source) close = true := by simp [isFence, hclose, Token.startsItem]
    rw [Block.lexemes, List.filter_append, List.filter_eq_self.2 hlines, List.filter_cons_of_neg hnot, List.filter_nil,
      List.append_nil, Block.openers]
  | entry isTerm name start lexemes ending =>
    rw [hb] at hfits hl
    obtain ⟨-, m, ms, rfl, -, -, hms⟩ := hfits
    obtain ⟨rfl, rfl⟩ := List.cons.inj hl
    have hnone : ms.filter (isFence (.ofString source)) = [] := List.filter_eq_nil_iff.2 fun n hn => by simp [hms n hn]
    rw [Block.lexemes, List.filter_cons_of_pos hfirst, hnone]
    rfl

/-! ## What entries are handed -/

/-- The entry that an item reads, if it does: its first token and all tokens behind. -/
def entryRead? (s : Source) (l : Lexeme) (ls : List Lexeme) : Option (Lexeme × List Lexeme) :=
  match l.token with
  | .identifier _ | .minus => some (l, ls)
  | .comment .. =>
    match afterComment ls with
    | [] => none
    | e :: es =>
      if (joinComment s l (ls.takeWhile fun l => (commentPart? l).isSome)).level = .comment ∧ e.token.opensEntry then
        some (e, es)
      else none
  | _ => none

/-- **What an item reads.** It is made of the entry that `entryRead?` finds, which may have a comment, and goes on at the
fence behind it; where that finds none, it is a comment, junk or nothing at all. -/
theorem item_of_entryRead? (s : Source) (l : Lexeme) (ls : List Lexeme) :
    match entryRead? s l ls with
    | some (e, es) => ((item s l ls).1 = [entryOrJunk s e es] ∨ ∃ c, (item s l ls).1 = documentedEntry s c e es) ∧
        (item s l ls).2 = fromFence s es
    | none => ∀ e ∈ (item s l ls).1, (∃ c, e = .comment c) ∨ ∃ j, e = .junk j := by
  unfold entryRead? item
  cases l.token with
  | identifier | minus => exact ⟨.inl rfl, rfl⟩
  | comment level content =>
    cases afterComment ls with
    | nil => simp
    | cons e es =>
      by_cases hdoc : (joinComment s l (ls.takeWhile fun l => (commentPart? l).isSome)).level = .comment ∧
          e.token.opensEntry = true
      · simp only [if_pos hdoc]
        exact ⟨.inr ⟨_, rfl⟩, trivial⟩
      · simp [if_neg hdoc]
  | blankLines | closeComment => simp
  | _ =>
    simp only
    split <;> simp [strayJunk, fencedJunk]

/-- What a body hands to its entries: each time the tokens from the first of the entry up to the next fence. -/
def handed (s : Source) : List Lexeme → List (List Lexeme)
  | [] => []
  | l :: ls =>
    ((entryRead? s l ls).map fun read => read.1 :: beforeFence s read.2).toList ++ handed s (item s l ls).2
termination_by ls => ls.length
decreasing_by
  have := length_item_le s l ls
  simp only [List.length_cons]
  omega

/-- **Every message and every term of a body is read from tokens that the body hands over**, a comment apart. The
induction is on the items of the body; `item_of_entryRead?` tells which of them read an entry at all. -/
theorem exists_handed_of_mem_body {s : Source} {ls : List Lexeme} {e : Entry} (he : e ∈ body s ls) (hid : e.id? ≠ none) :
    ∃ l ms e', l :: beforeFence s ms ∈ handed s ls ∧ fencedEntry s l ms = .ok e' ∧
      (e = e' ∨ ∃ c, e = e'.document c) := by
  induction ls using body.induct s with
  | case1 => simp [body] at he
  | case2 l ls i ih =>
    rw [handed]
    rw [body] at he
    rcases List.mem_append.1 he with hitem | hmore
    · have hread := item_of_entryRead? s l ls
      cases hentry : entryRead? s l ls with
      | none =>
        rw [hentry] at hread
        obtain ⟨c, rfl⟩ | ⟨j, rfl⟩ := hread e hitem
        · exact absurd rfl hid
        · exact absurd rfl hid
      | some read =>
        rw [hentry] at hread
        have hmem : read.1 :: beforeFence s read.2 ∈
            ((some read).map fun read => read.1 :: beforeFence s read.2).toList ++ handed s (item s l ls).2 :=
          List.mem_cons_self
        rcases hread.1 with hone | ⟨c, hone⟩
        · rw [hone, entryOrJunk, List.mem_singleton] at hitem
          cases hok : fencedEntry s read.1 read.2 with
          | ok e' => exact ⟨_, _, e', hmem, hok, .inl (by rw [hitem, hok])⟩
          | error fault =>
            rw [hok] at hitem
            exact absurd (by rw [hitem]; rfl) hid
        · rw [hone, documentedEntry] at hitem
          cases hok : fencedEntry s read.1 read.2 with
          | ok e' =>
            rw [hok, List.mem_singleton] at hitem
            exact ⟨_, _, e', hmem, hok, .inr ⟨c, hitem⟩⟩
          | error fault =>
            rw [hok] at hitem
            simp only [List.mem_cons, List.not_mem_nil, or_false] at hitem
            rcases hitem with rfl | rfl
            · exact absurd rfl hid
            · exact absurd rfl hid
    · obtain ⟨m, ms, e', hmem, hok, hsame⟩ := ih hmore
      exact ⟨m, ms, e', List.mem_append_right _ hmem, hok, hsame⟩

/-- The tokens of an entry block. -/
def Block.entryLexemes? : Block → Option (List Lexeme)
  | entry _ _ _ lexemes _ => some lexemes
  | _ => none

variable {s : Source} {l : Lexeme} {ls : List Lexeme}

theorem handed_of_opensEntry (h : l.token.opensEntry = true) :
    handed s (l :: ls) = (l :: beforeFence s ls) :: handed s (fromFence s ls) := by
  have hread : entryRead? s l ls = some (l, ls) ∧ (item s l ls).2 = fromFence s ls := by
    unfold entryRead? item
    cases hl : l.token with
    | identifier | minus => exact ⟨rfl, rfl⟩
    | _ => simp [hl, Token.opensEntry] at h
  rw [handed, hread.1, hread.2]
  rfl

theorem handed_of_marker (h : l.token = .blankLines ∨ l.token = .closeComment) : handed s (l :: ls) = handed s ls := by
  have hread : entryRead? s l ls = none ∧ (item s l ls).2 = ls := by
    unfold entryRead? item
    rcases h with h | h <;> rw [h] <;> exact ⟨rfl, rfl⟩
  rw [handed, hread.1, hread.2]
  rfl

/-- A comment makes no difference to what the entry below it is handed. -/
theorem handed_of_comment {level : CommentLevel} {content : String} (h : l.token = .comment level content) :
    handed s (l :: ls) = handed s (afterComment ls) := by
  rw [handed]
  unfold entryRead? item
  rw [h]
  cases afterComment ls with
  | nil => rfl
  | cons e es =>
    by_cases hdoc : (joinComment s l (ls.takeWhile fun l => (commentPart? l).isSome)).level = .comment ∧
        e.token.opensEntry = true
    · simp only [if_pos hdoc]
      rw [handed_of_opensEntry hdoc.2]
      rfl
    · simp only [if_neg hdoc]
      rfl

/-- Stray lines are handed to no entry. -/
theorem handed_of_stray (h : isUnfinishedFence s l = true) : handed s (l :: ls) = handed s ls := by
  have hread : ∀ {l : Lexeme} {ls : List Lexeme}, isUnfinishedFence s l = true →
      handed s (l :: ls) = handed s (ls.dropWhile (isUnfinishedFence s)) := by
    intro l ls h
    have htoken : l.token = .unfinishedLine := by
      rw [isUnfinishedFence, Bool.and_eq_true, beq_iff_eq] at h
      exact h.1
    rw [handed]
    unfold entryRead? item
    simp [htoken, h]
  rw [hread h]
  -- the lines that the first one takes along would be passed over by themselves
  induction ls with
  | nil => rfl
  | cons m ms ih =>
    by_cases hm : isUnfinishedFence s m = true
    · rw [List.dropWhile_cons_of_pos hm, ← hread hm]
    · rw [List.dropWhile_cons_of_neg hm]

/-- **On laid blocks, entries are handed the tokens of the entry blocks.** -/
theorem Laid.handed_eq {source : String} {e : Cursor} {bs : List Block} (h : Laid source c bs e) :
    handed (.ofString source) (bs.flatMap Block.lexemes) = bs.filterMap Block.entryLexemes? := by
  induction h with
  | nil => rw [List.flatMap_nil, handed, List.filterMap_nil]
  | @cons c t b d bs e hc hfits hreads hlaid ih =>
    rw [List.flatMap_cons]
    cases b with
    | blank span =>
      rw [Block.lexemes, List.singleton_append, handed_of_marker (.inl rfl), ih, List.filterMap_cons_none rfl]
    | stray span =>
      have hstray := isUnfinishedFence_stray hc hfits.1
      rw [strayLexeme] at hstray
      rw [Block.lexemes, List.singleton_append, handed_of_stray hstray, ih, List.filterMap_cons_none rfl]
    | comment lines close =>
      obtain ⟨hclose, l, ls, level, rfl, -, hlevel⟩ := hfits
      obtain ⟨content, hcontent⟩ := hlevel l List.mem_cons_self
      have hafter : afterComment (ls ++ close :: bs.flatMap Block.lexemes) = bs.flatMap Block.lexemes :=
        (commentLines_append _ (fun m hm => hlevel m (List.mem_cons_of_mem _ hm)) hclose).2
      rw [Block.lexemes, List.append_assoc, List.singleton_append, List.cons_append, handed_of_comment hcontent, hafter,
        ih, List.filterMap_cons_none rfl]
    | entry isTerm name start lexemes ending =>
      obtain ⟨-, m, ms, rfl, hopens, -, hms⟩ := hfits
      rw [Block.lexemes, List.cons_append, handed_of_opensEntry hopens, beforeFence_append hms, hlaid.beforeFence_eq,
        List.append_nil, fromFence_append hms, hlaid.fromFence_eq, ih]
      rfl

/-! ## Blocks and fences -/

/-- What the tokens of a source hand to entries: those of each entry block, block by block, and nothing for the blocks
that are no entries. -/
theorem handed_tokenize (limit : Nat) (source : String) :
    handed (.ofString source) (tokenize limit source.toList) =
      (blockStarts limit (.ofChars source.toList)).filterMap fun c => (block limit c).1.entryLexemes? := by
  obtain ⟨e, hlaid⟩ := laid_blocks limit source
  rw [tokenize, hlaid.handed_eq, blocks, blocksFrom_eq_map, List.filterMap_map]
  rfl

/-- **The fences of a source are where its blocks begin.** Each block begins at a line start, and ends at a later one or
with the source. The fences among the tokens are the first tokens of the blocks and the further lines of comments. So
each entry is handed exactly the tokens of its block. -/
theorem fences_are_blocks (limit : Nat) (source : String) :
    (∀ c ∈ blockStarts limit (.ofChars source.toList), c.StartsLine source.toList ∧
      c.offset < (block limit c).2.offset ∧ (block limit c).2.AtBreak source.toList) ∧
    tokenize limit source.toList =
      (blockStarts limit (.ofChars source.toList)).flatMap (fun c => (block limit c).1.lexemes) ∧
    (∀ l, isFence (.ofString source) l = true ↔ l.token.startsItem = true ∧
      (l.span.start = 0 ∨ source.toByteArray.data.toList[l.span.start - 1]? = some lineFeed)) ∧
    (tokenize limit source.toList).filter (isFence (.ofString source)) =
      (blockStarts limit (.ofChars source.toList)).flatMap (fun c => (block limit c).1.openers) ∧
    handed (.ofString source) (tokenize limit source.toList) =
      (blockStarts limit (.ofChars source.toList)).filterMap fun c => (block limit c).1.entryLexemes? := by
  have hstarts := startsLine_of_mem_blockStarts limit (Cursor.atBreak_ofChars source.toList)
  have htokens : tokenize limit source.toList =
      (blockStarts limit (.ofChars source.toList)).flatMap fun c => (block limit c).1.lexemes := by
    rw [tokenize, blocks, blocksFrom_eq_map, List.flatMap_map]
  refine ⟨?_, htokens, isFence_iff_utf8 source, ?_, handed_tokenize limit source⟩
  · intro c hc
    obtain ⟨hstart, hne⟩ := hstarts c hc
    exact ⟨hstart, offset_lt_block limit hne, atBreak_block limit hstart⟩
  · rw [htokens, List.filter_flatMap]
    refine List.flatMap_congr fun c hc => ?_
    obtain ⟨hstart, hne⟩ := hstarts c hc
    exact filter_isFence_block hstart hne

/-- **Every message and every term is read from the tokens of one block**, and from nothing else: its comment is given to
it afterwards. -/
theorem exists_block_of_mem_body {limit : Nat} {source : String} {e : Entry}
    (he : e ∈ body (.ofString source) (tokenize limit source.toList)) (hid : e.id? ≠ none) :
    ∃ c ∈ blockStarts limit (.ofChars source.toList), ∃ lexemes f e', (block limit c).1.entryLexemes? = some lexemes ∧
      entry f ⟨lexemes, 0⟩ = .ok e' ∧ (e = e' ∨ ∃ k, e = e'.document k) := by
  obtain ⟨l, ms, e', hmem, hok, hsame⟩ := exists_handed_of_mem_body he hid
  rw [handed_tokenize] at hmem
  obtain ⟨c, hc, hlexemes⟩ := List.mem_filterMap.1 hmem
  exact ⟨c, hc, _, _, e', hlexemes, hok, hsame⟩

end Fluent
