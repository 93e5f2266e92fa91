import Fluent.Proofs.Blocks
import Fluent.Proofs.Checked.Running

/-!
# Tokens, with checks

* `Checked.tokenize?`: the tokens of a source, block after block, by offsets that are checked at every access.
* `block?_eq`: one block; `tokenize?_eq`: a source. No check fails, and the tokens are those of `tokenize`.
-/

namespace Fluent

namespace Checked

variable (source : List Char) (limit : Nat)

/-- Behind the line that an offset is on. -/
def nextLine? (offset : Nat) : Option Nat :=
  (lineEnd? source offset).map fun stop => min (stop + 1) (byteCount source)

/-- The first line from an offset on that is not blank. -/
def skipBlankLines? (offset : Nat) : Option Nat :=
  if offset < byteCount source then do
    let stop ← lineEnd? source offset
    if ← isBlank? source offset stop then
      let ⟨next, _⟩ ← ahead? offset (← nextLine? source offset)
      skipBlankLines? next
    else return offset
  else return offset
termination_by byteCount source - offset

/-- Tokens behind others, and where they end. -/
structure Tokens where
  lexemes : List Lexeme
  stop : Nat

/-- The line at an offset belongs nowhere. -/
def strayLine? (tokens : List Lexeme) (offset : Nat) : Option Tokens := do
  let stop ← nextLine? source offset
  return ⟨tokens ++ [⟨.unfinishedLine, ⟨offset, stop⟩⟩], stop⟩

/-- The content of a comment line, behind one space. -/
def commentText? (sigilEnd stop : Nat) : Option (List Char) :=
  if sigilEnd < stop then text? source (sigilEnd + 1) stop else some []

def commentLine? (level : CommentLevel) (offset : Nat) : Option Lexeme := do
  let stop ← lineEnd? source offset
  let sigilEnd := offset + level.hashes
  let contentEnd ← textStop? source sigilEnd stop
  let content ← commentText? source sigilEnd contentEnd
  return ⟨.comment level (String.ofList content), ⟨offset, contentEnd⟩⟩

/-- Comment lines of one level, the first of which is known to be one. -/
def commentLines? (level : CommentLevel) (tokens : List Lexeme) (offset : Nat) : Option Tokens := do
  let line ← commentLine? source level offset
  let ⟨next, _⟩ ← ahead? offset (← nextLine? source offset)
  if next < byteCount source then
    let another ← commentLevel? source next
    if another = some level then commentLines? level (tokens ++ [line]) next else return ⟨tokens ++ [line], next⟩
  else return ⟨tokens ++ [line], next⟩
termination_by byteCount source - offset

/-- The entry at an offset, behind other tokens. -/
def entryTokens? (isTerm : Bool) (a : Line.Assignment) (tokens : List Lexeme) (offset : Nat) : Option Tokens := do
  let s : State := ⟨offset, tokens, []⟩
  let s ← (if isTerm then s.emit .minus 1 else s).emitAssignment? a
  let s ← s.beginValue? source
  let (pos, tokens) ← run? source limit s
  let s ← State.finishLine? source ⟨pos, tokens, []⟩
  let c ← cursor? source s.pos
  return ⟨s.tokens, if c.rest.head? = some '\n' then s.pos + 1 else s.pos⟩

/-- The block at an offset, behind other tokens. -/
def block? (tokens : List Lexeme) (offset : Nat) : Option Tokens := do
  let stop ← lineEnd? source offset
  let first ← char? source offset
  if ← isBlank? source offset stop then
    let next ← skipBlankLines? source offset
    return ⟨tokens ++ [⟨.blankLines, ⟨offset, next⟩⟩], next⟩
  else if first = '#' then
    match ← commentLevel? source offset with
    | some level =>
      let block ← commentLines? source level tokens offset
      return { block with lexemes := block.lexemes ++ [⟨.closeComment, .at block.stop⟩] }
    | none => strayLine? source tokens offset
  else if first = '-' ∨ isIdentifierStart first = true then
    let line ← text? source offset stop
    match Line.entryHeader? line with
    | some (isTerm, a) => entryTokens? source limit isTerm a tokens offset
    | none => strayLine? source tokens offset
  else strayLine? source tokens offset

/-- The blocks from an offset on, behind other tokens. -/
def blocksFrom? (tokens : List Lexeme) (offset : Nat) : Option (List Lexeme) :=
  if offset < byteCount source then do
    let block ← block? source limit tokens offset
    let ⟨next, _⟩ ← ahead? offset block.stop
    blocksFrom? block.lexemes next
  else return tokens
termination_by byteCount source - offset

/-- The tokens of a source. -/
def tokenize? : Option (List Lexeme) := blocksFrom? source limit [] 0

end Checked

namespace Cursor

namespace At

variable {source : List Char} {c : Cursor}

theorem nextLine? (h : c.At source) : Checked.nextLine? source c.offset = some c.nextLine.offset := by
  have hend := h.lineEnd.offset_add
  rw [Checked.nextLine?, h.lineEnd?, Option.map_some, Option.some.injEq]
  show min (c.lineEnd.offset + 1) (byteCount source) = c.lineEnd.offset + byteCount (c.lineEnd.rest.take 1)
  rcases Line.tail_eq_nil_or c.rest with htail | ⟨rest, htail⟩
  · have hrest : c.lineEnd.rest = [] := htail
    rw [hrest, byteCount] at hend
    rw [hrest]
    simp [byteCount]
    omega
  · have hrest : c.lineEnd.rest = '\n' :: rest := htail
    have hone : ('\n' : Char).utf8Size = 1 := rfl
    rw [hrest, byteCount, hone] at hend
    rw [hrest]
    simp [byteCount, hone]
    omega

theorem skipBlankLines? (h : c.At source) : Checked.skipBlankLines? source c.offset = some c.skipBlankLines.offset := by
  fun_induction Cursor.skipBlankLines c with
  | case1 c hnil =>
    rw [Checked.skipBlankLines?, if_neg fun hlt => h.offset_lt_iff.1 hlt hnil]
    rfl
  | case2 c _ _ hcons hblank ih =>
    have hahead := offset_lt_nextLine (c := c) (by simp [hcons])
    rw [Checked.skipBlankLines?, if_pos (h.offset_lt_iff.2 (by simp [hcons]))]
    simp only [h.lineEnd?, h.isBlank?, hblank, h.nextLine?, Checked.ahead?_of_lt hahead, Option.bind_eq_bind,
      Option.bind_some, if_true]
    exact ih h.nextLine
  | case3 c _ _ hcons hblank =>
    rw [Checked.skipBlankLines?, if_pos (h.offset_lt_iff.2 (by simp [hcons]))]
    simp only [h.lineEnd?, h.isBlank?, hblank, Option.bind_eq_bind, Option.bind_some, Bool.false_eq_true, if_false]
    rfl

theorem strayLine? (h : c.At source) (tokens : List Lexeme) :
    Checked.strayLine? source tokens c.offset =
      some ⟨tokens ++ [⟨.unfinishedLine, ⟨c.offset, c.nextLine.offset⟩⟩], c.nextLine.offset⟩ := by
  rw [Checked.strayLine?, h.nextLine?]
  rfl

variable {level : CommentLevel}

/-- Behind the hashes of a comment line, its text is empty or goes on with a space. -/
theorem commentText? (h : c.At source) {text rest : List Char} (hrest : c.rest = text ++ rest)
    (htext : text = [] ∨ ∃ content, text = ' ' :: content) :
    Checked.commentText? source c.offset (c.offset + byteCount text) = some (text.drop 1) := by
  unfold Checked.commentText?
  rcases htext with rfl | ⟨content, rfl⟩
  · rw [if_neg (by simp [byteCount])]
    rfl
  · have hone : (' ' : Char).utf8Size = 1 := rfl
    have hspace : c.Over [' '] ⟨c.offset + 1, content ++ rest⟩ := ⟨hrest, rfl⟩
    have hcontent : (⟨c.offset + 1, content ++ rest⟩ : Cursor).Over content
        ⟨c.offset + byteCount (' ' :: content), rest⟩ := ⟨rfl, by simp [byteCount, hone, Nat.add_assoc]⟩
    rw [if_pos (by simp [byteCount, hone])]
    exact (h.move hspace).text? hcontent

theorem commentLine? (h : c.At source) (hlevel : Line.commentLevel? c.rest = some level) :
    Checked.commentLine? source level c.offset = some (Fluent.commentLine level c) := by
  obtain ⟨text, hhead, htext⟩ := Line.commentLevel?_eq_some hlevel
  obtain ⟨gap, -, hdrop⟩ := Line.dropReturn_spec text
  have hhashes := level.byteCount_sigil
  have hrest : c.rest = level.sigil.toList ++ (text ++ c.lineEnd.rest) := by
    rw [← List.append_assoc, ← hhead]
    exact (over_lineEnd c).rest
  have hsigil : c.Over level.sigil.toList ⟨c.offset + level.hashes, text ++ c.lineEnd.rest⟩ := ⟨hrest, by rw [hhashes]⟩
  have hover : (⟨c.offset + level.hashes, text ++ c.lineEnd.rest⟩ : Cursor).Over text c.lineEnd :=
    ⟨rfl, by rw [(over_lineEnd c).offset, hhead, byteCount_append, hhashes, Nat.add_assoc]⟩
  have hstop := (h.move hsigil).textStop? hover
  have hsplit : text ++ c.lineEnd.rest = Line.dropReturn text ++ (gap ++ c.lineEnd.rest) := by
    rw [← List.append_assoc, hdrop]
  have hcontent := (h.move hsigil).commentText? hsplit htext
  simp only [Checked.commentLine?, h.lineEnd?, hstop, hcontent, Option.bind_eq_bind, Option.bind_some,
    commentLine_of_head hhead, byteCount_append, hhashes, ← Nat.add_assoc]
  rfl

/-- The comment lines of one level from a cursor on, behind others. -/
theorem commentLines? (h : c.At source) (hlevel : Line.commentLevel? c.rest = some level) (tokens : List Lexeme) :
    Checked.commentLines? source level tokens c.offset =
      some ⟨tokens ++ Fluent.commentLine level c :: (Fluent.commentLines level c.nextLine).1,
        (Fluent.commentLines level c.nextLine).2.offset⟩ := by
  generalize hn : c.nextLine = n
  have hnext : n.At source := hn ▸ h.nextLine
  have hahead : c.offset < n.offset := by
    rw [← hn]
    refine offset_lt_nextLine ?_
    intro hnil
    rw [hnil] at hlevel
    cases hlevel
  fun_induction Fluent.commentLines level n generalizing c tokens with
  | case1 n hnil =>
    rw [Checked.commentLines?]
    simp only [h.commentLine? hlevel, h.nextLine?, hn, Checked.ahead?_of_lt hahead, Option.bind_eq_bind, Option.bind_some,
      if_neg fun hlt => hnext.offset_lt_iff.1 hlt hnil]
    rfl
  | case2 n _ _ hcons hanother lines stop heq ih =>
    have hbehind := offset_lt_nextLine (c := n) (by simp [hcons])
    rw [Checked.commentLines?]
    simp only [h.commentLine? hlevel, h.nextLine?, hn, Checked.ahead?_of_lt hahead, Option.bind_eq_bind, Option.bind_some,
      if_pos (hnext.offset_lt_iff.2 (by simp [hcons])), hnext.commentLevel?, if_pos hanother,
      ih hnext hanother (tokens ++ [Fluent.commentLine level c]) rfl hnext.nextLine hbehind, heq, List.append_assoc,
      List.singleton_append]
  | case3 n _ _ hcons hanother =>
    rw [Checked.commentLines?]
    simp only [h.commentLine? hlevel, h.nextLine?, hn, Checked.ahead?_of_lt hahead, Option.bind_eq_bind, Option.bind_some,
      if_pos (hnext.offset_lt_iff.2 (by simp [hcons])), hnext.commentLevel?, if_neg hanother]
    rfl

end At

end Cursor

/-- Where less is left, a cursor is further on. -/
theorem Cursor.Over.offset_lt_of_length {c d : Cursor} {text : List Char} (h : c.Over text d)
    (hlength : d.rest.length < c.rest.length) : c.offset < d.offset := by
  refine h.offset_lt ?_
  rintro rfl
  rw [h.rest] at hlength
  exact Nat.lt_irrefl _ hlength

section Blocks

variable {source : List Char} {limit : Nat} {c : Cursor}

/-- Nothing but blanks stands on a blank line. -/
theorem Cursor.skipWhile_isBlankChar (hblank : Line.isBlank c.rest = true) : c.skipWhile Line.isBlankChar = c.lineEnd := by
  have hhead : c.rest.takeWhile Line.isBlankChar = Line.head c.rest := by
    conv_lhs => rw [← Line.head_append_tail c.rest, List.takeWhile_append_of_pos (Line.isBlank_iff.1 hblank)]
    rcases Line.tail_eq_nil_or c.rest with htail | ⟨rest, htail⟩ <;> rw [htail]
    · exact List.append_nil _
    · rw [List.takeWhile_cons_of_neg (by decide), List.append_nil]
  have htail : c.rest.dropWhile Line.isBlankChar = Line.tail c.rest := by
    have hsplit := List.takeWhile_append_dropWhile (p := Line.isBlankChar) (l := c.rest)
    rw [hhead] at hsplit
    exact List.append_cancel_left (hsplit.trans (Line.head_append_tail c.rest).symm)
  rw [Cursor.skipWhile, hhead, htail]
  rfl

/-- The header of an entry. -/
theorem ofHeader_flat (hc : c.At source) {isTerm : Bool} {a : Line.Assignment}
    (ha : Line.entryHeader? c.rest = some (isTerm, a)) (tokens : List Lexeme) :
    ((if isTerm then Checked.State.emit ⟨c.offset, tokens, []⟩ .minus 1 else ⟨c.offset, tokens, []⟩).emitAssignment? a).bind
        (·.beginValue? source) =
      some ((State.ofHeader c isTerm a).flat tokens) := by
  have hstart : (⟨c.offset, tokens, []⟩ : Checked.State) = (⟨c, [], []⟩ : State).flat tokens := by
    simp [State.flat, State.held, Reads.outerItems, State.flatFrames]
  have hassigned (s : State) (hs : s.cursor.At source) : (s.emitAssignment a).cursor.At source :=
    ((hs.skip a.name.length).skip a.spaces).skip 1
  rw [hstart, State.ofHeader]
  obtain ⟨rfl, rest, hrest, hassign⟩ | ⟨rfl, hassign⟩ := Line.entryHeader?_eq_some ha
  · have hminus : (State.emit ⟨c, [], []⟩ .minus 1).flat tokens = _ := State.flat_emit_one hrest rfl
    have hname : Line.assignment? (State.emit ⟨c, [], []⟩ .minus 1).cursor.rest = some a := by
      show Line.assignment? (c.rest.drop 1) = some a
      rwa [hrest]
    rw [if_pos rfl, if_pos rfl, ← hminus, State.emitAssignment?_flat hname]
    exact State.beginValue?_flat (hassigned _ (hc.skip 1))
  · rw [if_neg Bool.false_ne_true, if_neg Bool.false_ne_true, State.emitAssignment?_flat hassign]
    exact State.beginValue?_flat (hassigned _ hc)

/-- An entry in front of which other tokens stand. -/
theorem entryTokens?_eq (hc : c.At source) {isTerm : Bool} {a : Line.Assignment}
    (ha : Line.entryHeader? c.rest = some (isTerm, a)) (tokens : List Lexeme) :
    Checked.entryTokens? source limit isTerm a tokens c.offset =
      some ⟨tokens ++ ((State.ofHeader c isTerm a).run limit).2.lexemes,
        ((State.ofHeader c isTerm a).run limit).2.cursor.nextLine.offset⟩ := by
  obtain ⟨t, hsound⟩ := State.sound_ofHeader ha
  have hrun : Checked.run? source limit _ = _ :=
    State.run?_flat tokens hc hsound (State.grounded_ofHeader c isTerm a)
  obtain ⟨⟨t', hend⟩, hblank⟩ := State.sound_run hsound limit
  generalize ((State.ofHeader c isTerm a).run limit).2 = s at hrun hend hblank ⊢
  have hstop := (hc.move hend.reads.stretch).lineEnd
  have hfinish : Checked.State.finishLine? source ⟨s.cursor.lineEnd.offset, tokens ++ s.lexemes, []⟩ =
      some ⟨s.cursor.lineEnd.offset, tokens ++ s.lexemes, []⟩ := by
    have hsame : s.cursor.lineEnd.lineEnd = s.cursor.lineEnd := Cursor.skipWhile_skipWhile _ _
    have htail : Line.isBlank s.cursor.lineEnd.rest = true := Line.isBlank_tail s.cursor.rest
    have hnothing := hstop.isBlank?
    rw [hsame, htail] at hnothing
    simp only [Checked.State.finishLine?, hstop.lineEnd?, hsame, hnothing, Option.bind_eq_bind, Option.bind_some]
    rfl
  rw [Cursor.skipWhile_isBlankChar hblank] at hrun
  have hheader := ofHeader_flat hc ha tokens
  rw [Option.bind_eq_some_iff] at hheader
  obtain ⟨s₁, hassign, hvalue⟩ := hheader
  simp only [Checked.entryTokens?, hassign, hvalue, hrun, hfinish, hstop.cursor?, Option.bind_eq_bind,
    Option.bind_some, Option.pure_def, Option.some.injEq, Checked.Tokens.mk.injEq, true_and]
  show _ = s.cursor.lineEnd.offset + byteCount (s.cursor.lineEnd.rest.take 1)
  rcases Line.tail_eq_nil_or s.cursor.rest with htail | ⟨rest, htail⟩
  · have hrest : s.cursor.lineEnd.rest = [] := htail
    simp [hrest, byteCount]
  · have hrest : s.cursor.lineEnd.rest = '\n' :: rest := htail
    have hone : ('\n' : Char).utf8Size = 1 := rfl
    simp [hrest, byteCount, hone]

/-- **A block** in front of which other tokens stand. -/
theorem block?_eq (hc : c.At source) (hne : c.rest ≠ []) (tokens : List Lexeme) :
    Checked.block? source limit tokens c.offset =
      some ⟨tokens ++ (block limit c).1.lexemes, (block limit c).2.offset⟩ := by
  obtain ⟨x, xs, hrest⟩ := List.exists_cons_of_ne_nil hne
  have hstray := hc.strayLine? tokens
  have hfirst : Checked.char? source c.offset = some x := by rw [hc.char?, hrest]; rfl
  simp only [Checked.block?, hc.lineEnd?, hfirst, hc.isBlank?, hc.skipBlankLines?, hc.commentLevel?,
    hc.text? (Cursor.over_lineEnd c), Line.entryHeader?_head, hstray, Option.bind_eq_bind, Option.bind_some, block]
  split
  · rename_i hblank
    have hskip : c.skipBlankLines = c.nextLine.skipBlankLines := by
      rw [Cursor.skipBlankLines]
      split
      · rename_i hnil
        exact absurd hnil hne
      · rw [if_pos hblank]
    rw [hskip]
    rfl
  · split
    · rename_i hhash
      cases hl : Line.commentLevel? c.rest with
      | none =>
        -- a number sign that opens no comment opens no entry either: the line is stray
        have hnone : Line.entryHeader? c.rest = none := by rw [hrest, hhash]; rfl
        rw [hnone]
        rfl
      | some level =>
        simp only [hc.commentLines? hl, Option.bind_some]
        simp [Block.lexemes]
    · rename_i hhash
      have hnone : Line.commentLevel? c.rest = none := by
        rw [hrest]
        simp [Line.commentLevel?, hhash, CommentLevel.ofHashes?]
      rw [hnone]
      split
      · cases ha : Line.entryHeader? c.rest with
        | none => rfl
        | some header =>
          obtain ⟨isTerm, a⟩ := header
          exact entryTokens?_eq hc ha tokens
      · rename_i hletter
        have hheader : Line.entryHeader? c.rest = none := by
          obtain ⟨hdash, hstart⟩ := not_or.1 hletter
          rw [hrest]
          simp [Line.entryHeader?, Line.assignment?, identifier?, hdash, hstart]
        rw [hheader]
        rfl

/-- The blocks from a cursor on, in front of which other tokens stand. -/
theorem blocksFrom?_eq (hc : c.At source) (tokens : List Lexeme) :
    Checked.blocksFrom? source limit tokens c.offset =
      some (tokens ++ (blocksFrom limit c).flatMap Block.lexemes) := by
  fun_induction blocksFrom limit c generalizing tokens with
  | case1 c hnil =>
    rw [Checked.blocksFrom?, if_neg fun hlt => hc.offset_lt_iff.1 hlt hnil]
    simp
  | case2 c _ _ hcons ih =>
    have hne : c.rest ≠ [] := by simp [hcons]
    obtain ⟨_, hreads⟩ := reads_block limit c
    have hahead := hreads.stretch.offset_lt_of_length (length_rest_block_lt limit c hne)
    rw [Checked.blocksFrom?, if_pos (hc.offset_lt_iff.2 hne)]
    simp only [block?_eq hc hne, Checked.ahead?_of_lt hahead, Option.bind_eq_bind, Option.bind_some,
      ih (hc.move hreads.stretch), List.flatMap_cons, List.append_assoc]

/-- **The tokens of a source**: no check fails. -/
theorem tokenize?_eq (limit : Nat) (source : List Char) :
    Checked.tokenize? source limit = some (tokenize limit source) :=
  blocksFrom?_eq (Cursor.at_ofChars source) []

end Blocks

end Fluent
