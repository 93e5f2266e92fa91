import Fluent.Grammar.Body
import Fluent.Token.Block

/-!
# Reading a resource

* `parse`: the resource that a source holds; text that is no entry becomes junk.
* `parseRecords`: what reading it leaves in the log.
-/

namespace Fluent

/-- What becomes of an entry whose id is taken. -/
inductive DuplicatePolicy where
  | preserve
  | reject
  deriving DecidableEq, Repr

structure ParseOptions where
  duplicates : DuplicatePolicy := .preserve
  /-- How deep placeables and argument lists may nest. -/
  maxNesting : Nat := defaultNesting
  deriving DecidableEq, Repr

/-- The entries of a token stream under a policy. -/
def bodyUnder (p : DuplicatePolicy) (s : Source) (ls : List Lexeme) : List Entry :=
  match p with
  | .preserve => body s ls
  | .reject => rejectDuplicates s [] (body s ls)

/-- The resource of a token stream. -/
def parseTokens (o : ParseOptions) (s : Source) (ls : List Lexeme) : Resource :=
  ⟨bodyUnder o.duplicates s ls, s.location⟩

/-- The resource that a source holds. -/
def parse (o : ParseOptions) (source : String) : Resource :=
  let s := Source.ofString source
  parseTokens o s (tokenize o.maxNesting s.chars)

/-- What the reading of an entry leaves in the log. Stray lines were noted among the tokens. -/
def Entry.record? : Entry → Option LogRecord
  | message m => some ⟨.trace, .entries, "message " ++ m.id.name⟩
  | term t => some ⟨.trace, .entries, "term -" ++ t.id.name⟩
  | comment _ => none
  | junk j =>
    match j.fault with
    | .unfinishedLine _ => none
    | fault =>
      some ⟨.debug, .entries,
        s!"junk at {j.location.span.start}..{j.location.span.stop}: " ++ fault.message⟩

/-- What the rejection of an entry leaves in the log. -/
def Entry.rejectionRecord? : Entry → Option LogRecord
  | junk ⟨_, .duplicateId _ id, _⟩ => some ⟨.debug, .entries, "rejecting duplicate id `" ++ id ++ "`"⟩
  | _ => none

/-- What reading a resource leaves in the log. -/
def parseRecords (o : ParseOptions) (source : String) : List LogRecord :=
  let s := Source.ofString source
  let ls := tokenize o.maxNesting s.chars
  let kept := bodyUnder o.duplicates s ls
  tokenRecords o.maxNesting s.chars
    ++ (body s ls).filterMap Entry.record?
    ++ kept.filterMap Entry.rejectionRecord?
    ++ [⟨.debug, .entries, s!"parsed {kept.length} entries"⟩]

end Fluent
