import Fluent.Check.Subject

/-!
# Checks of resources and their entries
-/

namespace Fluent.Check

namespace Resource

/-- A resource under check. -/
def subject (r : Resource) : Subject Resource := ⟨r, "resource"⟩

def entryCount (s : Subject Resource) (n : Nat) : Verdict Unit :=
  s.require (s.node.body.length == n) (.entryCount n s.node.body)

def junkCount (s : Subject Resource) (n : Nat) : Verdict Unit :=
  s.require (s.node.junk.length == n) (.junkCount n s.node.body)

/-- The entry at an index. Entries start a path of their own. -/
def entry (s : Subject Resource) (index : Nat) : Verdict (Subject Entry) :=
  match s.node.body[index]? with
  | some e => .ok ⟨e, s!"entry[{index}]"⟩
  | none => s.fail (.noEntry index s.node.body)

end Resource

namespace Entry

def message (s : Subject Entry) : Verdict (Subject Message) :=
  match s.node with
  | .message m => .ok ⟨m, s.path⟩
  | e => s.fail (.entryKind "Message" e)

def term (s : Subject Entry) : Verdict (Subject Term) :=
  match s.node with
  | .term t => .ok ⟨t, s.path⟩
  | e => s.fail (.entryKind "Term" e)

def comment (s : Subject Entry) : Verdict (Subject Comment) :=
  match s.node with
  | .comment c => .ok ⟨c, s.path⟩
  | e => s.fail (.entryKind "a comment" e)

def junk (s : Subject Entry) : Verdict (Subject Junk) :=
  match s.node with
  | .junk j => .ok ⟨j, s.path⟩
  | e => s.fail (.entryKind "Junk" e)

end Entry

namespace Subject

variable {α : Type}

def attributeCount (s : Subject α) (attributes : List Attribute) (n : Nat) : Verdict Unit :=
  s.require (attributes.length == n) (.attributeCount n attributes)

def attributeAt (s : Subject α) (attributes : List Attribute) (index : Nat) :
    Verdict (Subject Attribute) :=
  s.item "attributes" attributes index (.noAttribute index attributes)

/-- Compares the comment that belongs to an entry. -/
def docComment (s : Subject α) (comment : Option Comment) (expected : String) : Verdict Unit :=
  match comment with
  | some c => s.equalText c.content expected
  | none => s.fail (.noComment expected)

end Subject

namespace Message

def id (s : Subject Message) (expected : String) : Verdict Unit := s.equalText s.node.id.name expected

/-- The pattern of a message that has one. -/
def value? (s : Subject Message) : Verdict Pattern :=
  match s.node.value with
  | some p => .ok p
  | none => s.fail .noValue

def valueText (s : Subject Message) (expected : String) : Verdict Unit := do
  s.equalText (← value? s).display expected

def value (s : Subject Message) : Verdict (Subject Pattern) := return s.part "value" (← value? s)

def noValue (s : Subject Message) : Verdict Unit :=
  match s.node.value with
  | some p => s.fail (.hasValue p)
  | none => .ok ()

def attributeCount (s : Subject Message) (n : Nat) : Verdict Unit :=
  s.attributeCount s.node.attributes n

def attributeAt (s : Subject Message) (index : Nat) : Verdict (Subject Attribute) :=
  s.attributeAt s.node.attributes index

def comment (s : Subject Message) (expected : String) : Verdict Unit :=
  s.docComment s.node.comment expected

def noComment (s : Subject Message) : Verdict Unit :=
  match s.node.comment with
  | some c => s.fail (.hasComment c)
  | none => .ok ()

end Message

namespace Term

/-- The id without its dash. -/
def id (s : Subject Term) (expected : String) : Verdict Unit := s.equalText s.node.id.name expected

def valueText (s : Subject Term) (expected : String) : Verdict Unit :=
  s.equalText s.node.value.display expected

def value (s : Subject Term) : Subject Pattern := s.part "value" s.node.value

def attributeCount (s : Subject Term) (n : Nat) : Verdict Unit :=
  s.attributeCount s.node.attributes n

def attributeAt (s : Subject Term) (index : Nat) : Verdict (Subject Attribute) :=
  s.attributeAt s.node.attributes index

def comment (s : Subject Term) (expected : String) : Verdict Unit :=
  s.docComment s.node.comment expected

end Term

namespace Attribute

def id (s : Subject Attribute) (expected : String) : Verdict Unit :=
  s.equalText s.node.id.name expected

def valueText (s : Subject Attribute) (expected : String) : Verdict Unit :=
  s.equalText s.node.value.display expected

def value (s : Subject Attribute) : Subject Pattern := s.part "value" s.node.value

end Attribute

namespace Comment

def level (s : Subject Comment) (expected : CommentLevel) : Verdict Unit :=
  s.require (s.node.level == expected) (.level expected s.node.level)

def content (s : Subject Comment) (expected : String) : Verdict Unit :=
  s.equalText s.node.content expected

end Comment

namespace Junk

def content (s : Subject Junk) (expected : String) : Verdict Unit :=
  s.equalText s.node.content expected

def contentStartsWith (s : Subject Junk) (expected : String) : Verdict Unit :=
  s.matchText (.startsWith expected) s.node.content

def faultCode (s : Subject Junk) (expected : String) : Verdict Unit :=
  s.require (s.node.fault.code == expected) (.faultCode expected s.node.fault)

def faultContains (s : Subject Junk) (expected : String) : Verdict Unit :=
  s.matchText (.contains expected) s.node.fault.message

end Junk

end Fluent.Check
