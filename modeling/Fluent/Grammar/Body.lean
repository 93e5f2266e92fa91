import Fluent.Grammar.Entry
import Fluent.Log

/-!
# The body of a resource

Reading a body never fails. A token that can begin an entry, a comment or a stray line, and stands at
a line start, is a *fence*: no entry is read beyond it. Where the grammar finds a fault, everything
from the start of the entry to the fence becomes junk, and reading goes on there.

* `body`: the entries of a token stream.
* `rejectDuplicates`: the same with repeated ids as junk.
-/

namespace Fluent

/-- A token that no entry before it reads. -/
def isFence (s : Source) (l : Lexeme) : Bool := l.token.startsItem && s.lines.isLineStart l.span.start

/-- The tokens up to the next fence. -/
def beforeFence (s : Source) (ls : List Lexeme) : List Lexeme := ls.takeWhile (!isFence s ·)

/-- The tokens from the next fence on. -/
def fromFence (s : Source) (ls : List Lexeme) : List Lexeme := ls.dropWhile (!isFence s ·)

/-- What the grammar knows of the tokens after an entry. -/
def fenceAt (s : Source) : List Lexeme → Fence
  | [] => ⟨s.lines, s.size, .endOfInput⟩
  | l :: _ => ⟨s.lines, l.span.start, .token l.token⟩

/-- The source from one offset to another as junk. -/
def junkFrom (s : Source) (start stop : Nat) (fault : Fault) : Junk :=
  ⟨s.slice ⟨start, stop⟩, fault, s.lines.locate ⟨start, stop⟩⟩

/-- The entry that begins with a token and ends at the next fence, or the fault found in it. -/
def fencedEntry (s : Source) (l : Lexeme) (ls : List Lexeme) : Except Fault Entry :=
  entry (fenceAt s (fromFence s ls)) ⟨l :: beforeFence s ls, 0⟩

/-- The junk from a token to the next fence. -/
def fencedJunk (s : Source) (l : Lexeme) (ls : List Lexeme) (fault : Fault) : Entry :=
  .junk (junkFrom s l.span.start (fenceAt s (fromFence s ls)).position fault)

/-- A line of a comment as its level and content. -/
def commentPart? (l : Lexeme) : Option (CommentLevel × String) :=
  match l.token with
  | .comment level content => some (level, content)
  | _ => none

/-- The comment that consecutive comment lines make. -/
def joinComment (s : Source) (l : Lexeme) (ls : List Lexeme) : Comment :=
  let parts := (l :: ls).filterMap commentPart?
  ⟨(parts.getLast?.map (·.1)).getD .comment, "\n".intercalate (parts.map (·.2)),
    s.lines.locate ⟨l.span.start, ((l :: ls).getLast?.getD l).span.stop⟩⟩

/-- An entry with a comment of its own. -/
def Entry.document (c : Comment) : Entry → Entry
  | message m => message { m with comment := some c }
  | term t => term { t with comment := some c }
  | e => e

def isUnfinishedFence (s : Source) (l : Lexeme) : Bool := l.token == .unfinishedLine && isFence s l

/-- Consecutive stray lines as one piece of junk. -/
def strayJunk (s : Source) (l : Lexeme) (ls : List Lexeme) : Entry :=
  let stop := ((l :: ls).getLast?.getD l).span.stop
  .junk (junkFrom s l.span.start stop (.unfinishedLine ⟨l.span.start, stop⟩))

/-- The tokens after a comment and the marker that ends it. -/
def afterComment (ls : List Lexeme) : List Lexeme :=
  match ls.dropWhile fun l => (commentPart? l).isSome with
  | ⟨.closeComment, _⟩ :: rest => rest
  | rest => rest

theorem length_afterComment_le (ls : List Lexeme) : (afterComment ls).length ≤ ls.length := by
  have := (List.dropWhile_suffix (fun l => (commentPart? l).isSome) (l := ls)).length_le
  unfold afterComment
  split <;> simp_all
  omega

theorem length_fromFence_le (s : Source) (ls : List Lexeme) : (fromFence s ls).length ≤ ls.length :=
  (List.dropWhile_suffix _).length_le

/-- An entry that begins with `l`, or the junk in its place. -/
def entryOrJunk (s : Source) (l : Lexeme) (ls : List Lexeme) : Entry :=
  match fencedEntry s l ls with
  | .ok e => e
  | .error fault => fencedJunk s l ls fault

/-- An entry under its comment; junk in its place leaves the comment on its own. -/
def documentedEntry (s : Source) (c : Comment) (l : Lexeme) (ls : List Lexeme) : List Entry :=
  match fencedEntry s l ls with
  | .ok e => [e.document c]
  | .error fault => [.comment c, fencedJunk s l ls fault]

/-- What a body begins with at a token, and the tokens after that. A comment of the lowest level right
above an entry belongs to it. -/
def item (s : Source) (l : Lexeme) (ls : List Lexeme) : List Entry × List Lexeme :=
  match l.token with
  | .blankLines | .closeComment => ([], ls)
  | .comment .. =>
    let comment := joinComment s l (ls.takeWhile fun l => (commentPart? l).isSome)
    match afterComment ls with
    | [] => ([.comment comment], [])
    | e :: es =>
      if comment.level = .comment ∧ e.token.opensEntry then
        (documentedEntry s comment e es, fromFence s es)
      else ([.comment comment], e :: es)
  | .identifier _ | .minus => ([entryOrJunk s l ls], fromFence s ls)
  | _ =>
    if isUnfinishedFence s l then
      ([strayJunk s l (ls.takeWhile (isUnfinishedFence s))], ls.dropWhile (isUnfinishedFence s))
    else
      ([fencedJunk s l ls (.unexpected l.span.start .entryOrComment (.token l.token))], fromFence s ls)

/-- An item takes at least the token that it begins with. -/
theorem length_item_le (s : Source) (l : Lexeme) (ls : List Lexeme) :
    (item s l ls).2.length ≤ ls.length := by
  have hfence := length_fromFence_le s ls
  unfold item
  split
  · exact Nat.le_refl _
  · exact Nat.le_refl _
  · have hafter := length_afterComment_le ls
    simp only
    split
    · exact Nat.zero_le _
    · rename_i e es he
      have hes := length_fromFence_le s es
      rw [he, List.length_cons] at hafter
      split
      · exact Nat.le_trans hes (Nat.le_of_lt hafter)
      · exact hafter
  · exact hfence
  · exact hfence
  · split
    · exact (List.dropWhile_suffix _).length_le
    · exact hfence

/-- The entries of a token stream. -/
def body (s : Source) : List Lexeme → List Entry
  | [] => []
  | l :: ls =>
    let i := item s l ls
    i.1 ++ body s i.2
termination_by ls => ls.length
decreasing_by
  have := length_item_le s l ls
  simp only [List.length_cons]
  omega

/-- The first of some attributes whose name an earlier one has. -/
def repeatedAttribute? (seen : List String) : List Attribute → Option Identifier
  | [] => none
  | a :: as =>
    if seen.contains a.id.name then some a.id else repeatedAttribute? (a.id.name :: seen) as

/-- The name that makes an entry a duplicate, given the ids before it: that of a repeated attribute
first, then its own. -/
def duplicate? (seen : List String) (key : String) (id : Identifier) (attributes : List Attribute) :
    Option (String × Span) :=
  match repeatedAttribute? [] attributes with
  | some a => some (a.name, a.location.span)
  | none => if seen.contains key then some (key, id.location.span) else none

/-- A rejected entry: its comment on its own, and junk in its place. -/
def rejected (s : Source) (e : Entry) (comment : Option Comment) (name : String) (span : Span) :
    List Entry :=
  (comment.map Entry.comment).toList
    ++ [.junk ⟨s.slice e.location.span, .duplicateId span name, e.location⟩]

/-- Entries with repeated attributes, and entries whose id an earlier one has, as junk. Every id
counts as seen, that of a rejected entry too. -/
def rejectDuplicates (s : Source) (seen : List String) : List Entry → List Entry
  | [] => []
  | .message m :: es =>
    let key := m.id.name
    (match duplicate? seen key m.id m.attributes with
      | none => [.message m]
      | some (name, span) => rejected s (.message m) m.comment name span)
      ++ rejectDuplicates s (key :: seen) es
  | .term t :: es =>
    let key := "-" ++ t.id.name
    (match duplicate? seen key t.id t.attributes with
      | none => [.term t]
      | some (name, span) => rejected s (.term t) t.comment name span)
      ++ rejectDuplicates s (key :: seen) es
  | e :: es => e :: rejectDuplicates s seen es

end Fluent
