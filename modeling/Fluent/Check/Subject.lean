import Fluent.Check.Mismatch

/-!
# Checks

Checks of a parsed resource, for tests of sources. A `Subject` is a node under check with the path that
leads to it. A check either compares something about its subject, or descends to a part of it, which
is a subject in turn; where the part is not there, the descent fails.
-/

namespace Fluent.Check

/-- What a check comes to. -/
abbrev Verdict (α : Type) := Except Failure α

/-- A node under check and its path. -/
structure Subject (α : Type) where
  node : α
  path : String
  deriving Repr

namespace Subject

variable {α β : Type}

def fail (s : Subject α) (m : Mismatch) : Verdict β := .error ⟨s.path, m⟩

/-- Passes if the condition holds. -/
def require (s : Subject α) (holds : Bool) (m : Mismatch) : Verdict Unit :=
  if holds then .ok () else s.fail m

/-- A part of a subject, behind a colon in the path. -/
def part (s : Subject α) (name : String) (node : β) : Subject β := ⟨node, s.path ++ ":" ++ name⟩

/-- The part at an index, if there is one. -/
def item (s : Subject α) (name : String) (items : List β) (index : Nat) (missing : Mismatch) :
    Verdict (Subject β) :=
  match items[index]? with
  | some node => .ok (s.part s!"{name}[{index}]" node)
  | none => s.fail missing

/-- Matches a text that belongs to the subject. -/
def matchText (s : Subject α) (wanted : TextMatch) (actual : String) : Verdict Unit :=
  s.require (wanted.accepts actual) (.text wanted actual)

/-- Compares a text that belongs to the subject. -/
def equalText (s : Subject α) (actual expected : String) : Verdict Unit :=
  s.matchText (.exact expected) actual

end Subject

end Fluent.Check
