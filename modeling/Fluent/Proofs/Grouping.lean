import Fluent.Proofs.Fences

/-!
# A body is read block by block

The grammar of a body sees tokens and fences. On the tokens of laid blocks it finds the blocks again: an
entry is read from the tokens of one block, and a comment of the lowest level goes to the entry block right
after it.

* `Grouped s bs es`: the entries `es` that the blocks `bs` make.
* `Laid.grouped`: the body of the tokens of laid blocks.
* `grouped_body`: the body of a source, repeated ids and all.
-/

namespace Fluent

/-- The token of a stray line. -/
def strayLexeme (span : Span) : Lexeme := ⟨.unfinishedLine, span⟩

def Block.isStray : Block → Bool
  | stray _ => true
  | _ => false

def Block.isEntry : Block → Bool
  | entry .. => true
  | _ => false

/-- What an entry block is read as in front of other blocks. -/
def blockEntry (s : Source) (l : Lexeme) (ls : List Lexeme) (bs : List Block) : Except Fault Entry :=
  Fluent.entry (fenceAt s (bs.flatMap Block.lexemes)) ⟨l :: ls, 0⟩

/-- The junk in the place of an entry block. -/
def blockJunk (s : Source) (l : Lexeme) (bs : List Block) (fault : Fault) : Entry :=
  .junk (junkFrom s l.span.start (fenceAt s (bs.flatMap Block.lexemes)).position fault)

/-- The first of some blocks is an entry without a fault, so that a comment of the lowest level right in front of it
belongs to it. -/
def BeginsWithEntry (s : Source) : List Block → Prop
  | .entry _ _ _ (l :: ls) _ :: bs => ∃ e, blockEntry s l ls bs = .ok e
  | _ => False

theorem BeginsWithEntry.isEntry_head {s : Source} {bs : List Block} (h : BeginsWithEntry s bs) :
    ∃ b ∈ bs.head?, b.isEntry = true := by
  unfold BeginsWithEntry at h
  split at h
  · exact ⟨_, rfl, rfl⟩
  · exact h.elim

/-- The entries that blocks make, from the first block on. The rules say what the loop over the tokens comes to: stray
lines in a row are one piece of junk, an entry with a fault is one of its own, and a comment of the lowest level goes
with the entry behind it. -/
inductive Grouped (s : Source) : List Block → List Entry → Prop
  | nil : Grouped s [] []
  | blank {span : Span} {bs : List Block} {es : List Entry} :
      Grouped s bs es → Grouped s (.blank span :: bs) es
  /-- Stray lines in a row, as many as there are. -/
  | stray {span : Span} {spans : List Span} {bs : List Block} {es : List Entry} :
      (∀ b ∈ bs.head?, b.isStray = false) → Grouped s bs es →
      Grouped s (.stray span :: (spans.map .stray ++ bs))
        (strayJunk s (strayLexeme span) (spans.map strayLexeme) :: es)
  /-- A comment that belongs to no entry. -/
  | comment {l close : Lexeme} {ls : List Lexeme} {bs : List Block} {es : List Entry} :
      ((joinComment s l ls).level = .comment → ¬ BeginsWithEntry s bs) → Grouped s bs es →
      Grouped s (.comment (l :: ls) close :: bs) (.comment (joinComment s l ls) :: es)
  /-- A comment and the entry after it. -/
  | documented {l close m : Lexeme} {ls ms : List Lexeme} {isTerm : Bool} {name : String} {start : Nat}
      {ending : Ending} {bs : List Block} {es : List Entry} {e : Entry} :
      (joinComment s l ls).level = .comment → blockEntry s m ms bs = .ok e → Grouped s bs es →
      Grouped s (.comment (l :: ls) close :: .entry isTerm name start (m :: ms) ending :: bs)
        (e.document (joinComment s l ls) :: es)
  | entry {m : Lexeme} {ms : List Lexeme} {isTerm : Bool} {name : String} {start : Nat} {ending : Ending}
      {bs : List Block} {es : List Entry} {e : Entry} : blockEntry s m ms bs = .ok e → Grouped s bs es →
      Grouped s (.entry isTerm name start (m :: ms) ending :: bs) (e :: es)
  | broken {m : Lexeme} {ms : List Lexeme} {isTerm : Bool} {name : String} {start : Nat} {ending : Ending}
      {bs : List Block} {es : List Entry} {fault : Fault} : blockEntry s m ms bs = .error fault →
      Grouped s bs es →
      Grouped s (.entry isTerm name start (m :: ms) ending :: bs) (blockJunk s m bs fault :: es)

theorem fromFence_append {s : Source} {ms ls : List Lexeme} (hms : ∀ m ∈ ms, isFence s m = false) :
    fromFence s (ms ++ ls) = fromFence s ls :=
  List.dropWhile_append_of_pos fun m hm => by simp [hms m hm]

theorem beforeFence_append {s : Source} {ms ls : List Lexeme} (hms : ∀ m ∈ ms, isFence s m = false) :
    beforeFence s (ms ++ ls) = ms ++ beforeFence s ls :=
  List.takeWhile_append_of_pos fun m hm => by simp [hms m hm]

theorem flatMap_lexemes_stray (span : Span) (bs : List Block) :
    (Block.stray span :: bs).flatMap Block.lexemes = strayLexeme span :: bs.flatMap Block.lexemes := rfl

theorem flatMap_lexemes_strays (spans : List Span) :
    (spans.map Block.stray).flatMap Block.lexemes = spans.map strayLexeme := by
  rw [List.flatMap_map]
  exact List.flatMap_pure_eq_map strayLexeme spans

/-- A stray line at a line start is a fence. -/
theorem isUnfinishedFence_stray {source : String} {c : Cursor} {span : Span}
    (hc : c.StartsLine source.toList) (hspan : span.start = c.offset) :
    isUnfinishedFence (.ofString source) (strayLexeme span) = true := by
  obtain ⟨pre, hover, hpre⟩ := hc
  rw [isUnfinishedFence, (isFence_iff (l := strayLexeme span) hover hspan).2 ⟨rfl, hpre⟩]
  rfl

namespace Laid

variable {source : String} {c e : Cursor} {bs : List Block}

/-- The first token of laid blocks opens an entry only if the first block is one. -/
theorem opensEntry_head (h : Laid source c bs e) {l : Lexeme} {ls : List Lexeme}
    (hl : bs.flatMap Block.lexemes = l :: ls) (hopens : l.token.opensEntry = true) :
    ∃ b ∈ bs.head?, b.isEntry = true := by
  cases h with
  | nil => simp at hl
  | @cons _ t b d bs _ hc hfits hreads hlaid =>
    refine ⟨b, rfl, ?_⟩
    rw [List.flatMap_cons] at hl
    cases b with
    | blank span | stray span =>
      obtain ⟨rfl, -⟩ := List.cons.inj hl
      simp [Token.opensEntry] at hopens
    | comment lines close =>
      obtain ⟨-, m, ms, level, rfl, -, hlevel⟩ := hfits
      obtain ⟨content, hcontent⟩ := hlevel m List.mem_cons_self
      obtain ⟨rfl, -⟩ := List.cons.inj hl
      simp [hcontent, Token.opensEntry] at hopens
    | entry => rfl

/-- The stray lines at the front of laid blocks. -/
theorem strays (h : Laid source c bs e) :
    ∃ (spans : List Span) (bs' : List Block) (d : Cursor), bs = spans.map .stray ++ bs' ∧ Laid source d bs' e ∧
      (∀ b ∈ bs'.head?, b.isStray = false) ∧
      (bs.flatMap Block.lexemes).takeWhile (isUnfinishedFence (.ofString source)) = spans.map strayLexeme ∧
      (bs.flatMap Block.lexemes).dropWhile (isUnfinishedFence (.ofString source)) =
        bs'.flatMap Block.lexemes := by
  induction h with
  | nil hnil => exact ⟨[], [], _, rfl, .nil hnil, by simp, rfl, rfl⟩
  | @cons c t b d bs e hc hfits hreads hlaid ih =>
    have hall : Laid source c (b :: bs) e := .cons hc hfits hreads hlaid
    cases b with
    | stray span =>
      obtain ⟨spans, bs', d', rfl, hlaid', hhead, htake, hdrop⟩ := ih
      have hfence := isUnfinishedFence_stray hc hfits.1
      refine ⟨span :: spans, bs', d', rfl, hlaid', hhead, ?_, ?_⟩
      · rw [flatMap_lexemes_stray, List.takeWhile_cons_of_pos hfence, htake]
        rfl
      · rw [flatMap_lexemes_stray, List.dropWhile_cons_of_pos hfence, hdrop]
    | blank span => exact ⟨[], _, c, rfl, hall, by simp [Block.isStray], rfl, rfl⟩
    | comment lines close =>
      obtain ⟨-, l, ls, level, rfl, -, hlevel⟩ := hfits
      obtain ⟨content, hcontent⟩ := hlevel l List.mem_cons_self
      have hnot : isUnfinishedFence (.ofString source) l = false := by simp [isUnfinishedFence, hcontent]
      refine ⟨[], _, c, rfl, hall, by simp [Block.isStray], ?_, ?_⟩
      · exact List.takeWhile_cons_of_neg (by simp [hnot])
      · exact List.dropWhile_cons_of_neg (by simp [hnot])
    | entry isTerm name start lexemes ending =>
      obtain ⟨-, l, ls, rfl, hopens, -, -⟩ := hfits
      have hnot : isUnfinishedFence (.ofString source) l = false := by
        rw [isUnfinishedFence, Bool.and_eq_false_iff]
        left
        cases hl : l.token <;> rw [hl] at hopens <;> first | rfl | simp [Token.opensEntry] at hopens
      refine ⟨[], _, c, rfl, hall, by simp [Block.isStray], ?_, ?_⟩
      · exact List.takeWhile_cons_of_neg (by simp [hnot])
      · exact List.dropWhile_cons_of_neg (by simp [hnot])

/-- Between its first token and the next block an entry reads the tokens of its block. -/
theorem fencedEntry_eq (h : Laid source c bs e) {m : Lexeme} {ms : List Lexeme}
    (hms : ∀ l ∈ ms, isFence (.ofString source) l = false) :
    fencedEntry (.ofString source) m (ms ++ bs.flatMap Block.lexemes) =
      blockEntry (.ofString source) m ms bs := by
  rw [fencedEntry, fromFence_append hms, h.fromFence_eq, beforeFence_append hms, h.beforeFence_eq,
    List.append_nil, blockEntry]

theorem fencedJunk_eq (h : Laid source c bs e) {m : Lexeme} {ms : List Lexeme} {fault : Fault}
    (hms : ∀ l ∈ ms, isFence (.ofString source) l = false) :
    fencedJunk (.ofString source) m (ms ++ bs.flatMap Block.lexemes) fault =
      blockJunk (.ofString source) m bs fault := by
  rw [fencedJunk, fromFence_append hms, h.fromFence_eq, blockJunk]

/-- An item that begins with the first token of an entry block takes the tokens of the block. -/
theorem item_entry (h : Laid source c bs e) {m : Lexeme} {ms : List Lexeme}
    (hopens : m.token.opensEntry = true) (hms : ∀ l ∈ ms, isFence (.ofString source) l = false) :
    item (.ofString source) m (ms ++ bs.flatMap Block.lexemes) =
      ([entryOrJunk (.ofString source) m (ms ++ bs.flatMap Block.lexemes)], bs.flatMap Block.lexemes) := by
  have hrest : fromFence (.ofString source) (ms ++ bs.flatMap Block.lexemes) = bs.flatMap Block.lexemes := by
    rw [fromFence_append hms, h.fromFence_eq]
  obtain ⟨k, span⟩ := m
  cases k <;> first | (simp [Token.opensEntry] at hopens; done) | simp [item, hrest]

/-- An entry block in front of laid blocks makes an entry or junk. -/
theorem grouped_entry (h : Laid source c bs e) {m : Lexeme} {ms : List Lexeme} {isTerm : Bool} {name : String}
    {start : Nat} {ending : Ending} {es : List Entry}
    (hms : ∀ l ∈ ms, isFence (.ofString source) l = false) (hgrouped : Grouped (.ofString source) bs es) :
    Grouped (.ofString source) (.entry isTerm name start (m :: ms) ending :: bs)
      (entryOrJunk (.ofString source) m (ms ++ bs.flatMap Block.lexemes) :: es) := by
  rw [entryOrJunk, h.fencedEntry_eq hms]
  split
  · rename_i hok
    exact .entry hok hgrouped
  · rename_i hfault
    rw [h.fencedJunk_eq hms]
    exact .broken hfault hgrouped

end Laid

/-- The lines of a comment end at its marker. -/
theorem commentLines_append {level : CommentLevel} {close : Lexeme} {ls : List Lexeme} (rest : List Lexeme)
    (hls : ∀ m ∈ ls, ∃ content, m.token = .comment level content) (hclose : close.token = .closeComment) :
    (ls ++ close :: rest).takeWhile (fun l => (commentPart? l).isSome) = ls ∧
      afterComment (ls ++ close :: rest) = rest := by
  have hlines : ∀ m ∈ ls, (commentPart? m).isSome = true := by
    intro m hm
    obtain ⟨content, hcontent⟩ := hls m hm
    simp [commentPart?, hcontent]
  have hnot : (commentPart? close).isSome = false := by simp [commentPart?, hclose]
  refine ⟨?_, ?_⟩
  · rw [List.takeWhile_append_of_pos hlines, List.takeWhile_cons_of_neg (by simp [hnot]), List.append_nil]
  · obtain ⟨k, span⟩ := close
    obtain rfl : k = .closeComment := hclose
    rw [afterComment, List.dropWhile_append_of_pos hlines, List.dropWhile_cons_of_neg (by simp [hnot])]

/-- An item that begins with a comment line takes the lines of the comment, and the marker after them. -/
theorem item_comment {s : Source} {level : CommentLevel} {l close : Lexeme} {ls : List Lexeme}
    (rest : List Lexeme)
    (hls : ∀ m ∈ l :: ls, ∃ content, m.token = .comment level content) (hclose : close.token = .closeComment) :
    item s l (ls ++ close :: rest) =
      match rest with
      | [] => ([.comment (joinComment s l ls)], [])
      | e :: es =>
        if (joinComment s l ls).level = .comment ∧ e.token.opensEntry then
          (documentedEntry s (joinComment s l ls) e es, fromFence s es)
        else ([.comment (joinComment s l ls)], e :: es) := by
  obtain ⟨htake, hafter⟩ := commentLines_append rest (fun m hm => hls m (List.mem_cons_of_mem _ hm)) hclose
  obtain ⟨content, hcontent⟩ := hls l List.mem_cons_self
  obtain ⟨k, span⟩ := l
  obtain rfl : k = .comment level content := hcontent
  cases rest <;> simp only [item, htake, hafter]

namespace Laid

variable {source : String} {c e : Cursor} {bs : List Block}

/-- A comment of the lowest level in front of an entry block belongs to the entry, or stands before the junk
in its place. -/
theorem grouped_documented (h : Laid source c bs e) {l close m : Lexeme} {ls ms : List Lexeme} {isTerm : Bool}
    {name : String} {start : Nat} {ending : Ending} {es : List Entry}
    (hlowest : (joinComment (.ofString source) l ls).level = .comment)
    (hms : ∀ n ∈ ms, isFence (.ofString source) n = false) (hgrouped : Grouped (.ofString source) bs es) :
    Grouped (.ofString source) (.comment (l :: ls) close :: .entry isTerm name start (m :: ms) ending :: bs)
      (documentedEntry (.ofString source) (joinComment (.ofString source) l ls) m
        (ms ++ bs.flatMap Block.lexemes) ++ es) := by
  rw [documentedEntry, h.fencedEntry_eq hms]
  split
  · rename_i hok
    exact .documented hlowest hok hgrouped
  · rename_i hfault
    rw [h.fencedJunk_eq hms]
    refine .comment ?_ (.broken hfault hgrouped)
    rintro - ⟨e, he⟩
    rw [hfault] at he
    cases he

/-- A comment of another level, or in front of no entry block, is an item of its own. -/
theorem item_comment_alone (h : Laid source c bs e) {level : CommentLevel} {l close : Lexeme} {ls : List Lexeme}
    (hls : ∀ m ∈ l :: ls, ∃ content, m.token = .comment level content) (hclose : close.token = .closeComment)
    (hdoc : ¬ ((joinComment (.ofString source) l ls).level = .comment ∧ ∃ b ∈ bs.head?, b.isEntry = true)) :
    item (.ofString source) l (ls ++ close :: bs.flatMap Block.lexemes) =
      ([.comment (joinComment (.ofString source) l ls)], bs.flatMap Block.lexemes) := by
  rw [item_comment (bs.flatMap Block.lexemes) hls hclose]
  split
  · rename_i hnil
    rw [hnil]
  · rename_i m ms hcons
    rw [hcons]
    -- the token after the comment opens an entry, and so the block after it is one
    apply if_neg
    rintro ⟨hlowest, hopens⟩
    exact hdoc ⟨hlowest, h.opensEntry_head hcons hopens⟩

/-- An item that begins with a stray line takes all stray lines in a row. -/
theorem item_stray {span : Span} (hc : c.StartsLine source.toList) (hspan : span.start = c.offset)
    {ls : List Lexeme} :
    item (.ofString source) (strayLexeme span) ls =
      ([strayJunk (.ofString source) (strayLexeme span)
          (ls.takeWhile (isUnfinishedFence (.ofString source)))],
        ls.dropWhile (isUnfinishedFence (.ofString source))) := by
  show (if isUnfinishedFence (.ofString source) (strayLexeme span) then _ else _) = _
  rw [if_pos (isUnfinishedFence_stray hc hspan)]

end Laid

/-- **The body of the tokens of laid blocks** is what the blocks make. -/
theorem Laid.grouped {source : String} {c e : Cursor} {bs : List Block} (h : Laid source c bs e) :
    Grouped (.ofString source) bs (body (.ofString source) (bs.flatMap Block.lexemes)) := by
  -- an item may take more than one block, so the induction is on their number
  induction hlength : bs.length using Nat.strong_induction_on generalizing c bs with
  | _ n ih =>
    subst hlength
    cases h with
    | nil => rw [List.flatMap_nil, body]; exact .nil
    | @cons _ t b d bs _ hc hfits hreads hlaid =>
      have hnext := ih bs.length (by simp) hlaid rfl
      rw [List.flatMap_cons]
      cases b with
      | blank span =>
        rw [Block.lexemes, List.cons_append, body]
        exact .blank hnext
      | stray span =>
        obtain ⟨spans, bs', d', rfl, hlaid', hhead, htake, hdrop⟩ := hlaid.strays
        have hrest := ih bs'.length (by simp) hlaid' rfl
        rw [Block.lexemes, List.cons_append, List.nil_append, body]
        rw [show (⟨.unfinishedLine, span⟩ : Lexeme) = strayLexeme span from rfl, Laid.item_stray hc hfits.1,
          htake, hdrop]
        exact .stray hhead hrest
      | comment lines close =>
        obtain ⟨hclose, l, ls, level, rfl, -, hlevel⟩ := hfits
        rw [Block.lexemes, List.append_assoc, List.cons_append, List.cons_append, List.nil_append, body]
        by_cases hdoc : (joinComment (.ofString source) l ls).level = .comment ∧
            ∃ b ∈ bs.head?, b.isEntry = true
        · obtain ⟨hlowest, b, hb, hentry⟩ := hdoc
          cases hlaid with
          | nil => simp at hb
          | @cons _ t' b' d' bs _ hc' hfits' hreads' hlaid' =>
            obtain rfl : b' = b := by simpa using hb
            cases b' with
            | blank | stray | comment => simp [Block.isEntry] at hentry
            | entry isTerm name start lexemes ending =>
              obtain ⟨-, m, ms, rfl, hopens, -, hms⟩ := hfits'
              have hitem := item_comment (s := .ofString source)
                (m :: (ms ++ bs.flatMap Block.lexemes)) hlevel hclose
              simp only at hitem
              rw [if_pos ⟨hlowest, hopens⟩, fromFence_append hms, hlaid'.fromFence_eq] at hitem
              rw [List.flatMap_cons, Block.lexemes, List.cons_append, hitem]
              exact hlaid'.grouped_documented hlowest hms (ih bs.length (by simp) hlaid' rfl)
        · rw [hlaid.item_comment_alone hlevel hclose hdoc]
          refine .comment ?_ hnext
          intro hlowest hbegins
          exact hdoc ⟨hlowest, hbegins.isEntry_head⟩
      | entry isTerm name start lexemes ending =>
        obtain ⟨-, m, ms, rfl, hopens, -, hms⟩ := hfits
        rw [Block.lexemes, List.cons_append, body, hlaid.item_entry hopens hms]
        exact hlaid.grouped_entry hms hnext

/-- **The body of a source** is what its blocks make. From here on a body is followed by these rules, and not by the
tokens that the loop has left. -/
theorem grouped_body (limit : Nat) (source : String) :
    Grouped (.ofString source) (blocks limit source.toList)
      (body (.ofString source) (tokenize limit source.toList)) := by
  obtain ⟨e, h⟩ := laid_blocks limit source
  exact h.grouped

end Fluent
