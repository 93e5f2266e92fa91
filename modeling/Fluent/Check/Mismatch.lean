import Fluent.Tree.Node

/-!
# Why a check fails

A check of a tree fails at a path, for a reason. `Failure.text` is what the author of the check reads;
where two values were compared it ends with both of them, what was found on the left.
-/

namespace Fluent.Check

open Text (quote)

/-- What is expected of a text. -/
inductive TextMatch where
  | exact (expected : String)
  | startsWith (expected : String)
  | contains (expected : String)
  deriving DecidableEq, Repr

/-- Some part of a text is `sub`. -/
def hasInfix (sub : List Char) : List Char → Bool
  | [] => sub.isEmpty
  | c :: cs => sub.isPrefixOf (c :: cs) || hasInfix sub cs

namespace TextMatch

def accepts : TextMatch → String → Bool
  | exact expected, actual => actual == expected
  | startsWith expected, actual => expected.toList.isPrefixOf actual.toList
  | contains expected, actual => hasInfix expected.toList actual.toList

end TextMatch

/-- The reason why a check fails. -/
inductive Mismatch where
  | text (wanted : TextMatch) (actual : String)
  | entryCount (expected : Nat) (found : List Entry)
  | junkCount (expected : Nat) (found : List Entry)
  | noEntry (index : Nat) (found : List Entry)
  | entryKind (wanted : String) (found : Entry)
  | noValue
  | hasValue (found : Pattern)
  | noComment (expected : String)
  | hasComment (found : Comment)
  | attributeCount (expected : Nat) (found : List Attribute)
  | noAttribute (index : Nat) (found : List Attribute)
  | level (expected found : CommentLevel)
  | faultCode (expected : String) (found : Fault)
  | elementCount (expected : Nat) (found : List PatternElement)
  | noElement (index : Nat) (found : List PatternElement)
  | notText (index : Nat) (found : Placeable)
  | notPlaceable (found : TextChunk)
  | expressionKind (wanted : String) (found : Expression)
  | accessor (expected found : Option String)
  | noArguments
  | positionalCount (expected : Nat) (found : CallArguments)
  | namedCount (expected : Nat) (found : CallArguments)
  | noPositional (index : Nat) (found : CallArguments)
  | noNamed (name : String) (found : CallArguments)
  | variantCount (expected : Nat) (found : List Variant)
  | noDefault
  | noVariant (index : Nat) (found : List Variant)
  | isDefault (expected found : Bool)
  deriving Repr

/-- A list of texts, each in quotes. -/
def quoteAll (ss : List String) : String := "[" ++ ", ".intercalate (ss.map quote) ++ "]"

/-- A text that may be missing. -/
def quoteOption : Option String → String
  | none => "None"
  | some s => "Some(" ++ quote s ++ ")"

/-- An entry in one line: its kind, and its label in quotes. -/
def describeEntry (e : Entry) : String := e.node.kind.name ++ " " ++ quote e.node.label

def describeEntries (es : List Entry) : String := "[" ++ ", ".intercalate (es.map describeEntry) ++ "]"

def describeElement : PatternElement → String
  | .text _ => "text"
  | .placeable _ => "placeable"

def levelWord : CommentLevel → String
  | .comment => "Comment"
  | .group => "Group"
  | .resource => "Resource"

def boolWord (b : Bool) : String := if b then "true" else "false"

namespace Mismatch

/-- The reason in words. -/
def describe : Mismatch → String
  | text (.exact expected) actual =>
    "Expected text to be " ++ quote expected ++ ", but got " ++ quote actual
  | text (.startsWith expected) actual =>
    "Expected text to start with " ++ quote expected ++ ", but got " ++ quote actual
  | text (.contains expected) actual =>
    "Expected text to contain " ++ quote expected ++ ", but got " ++ quote actual
  | entryCount expected found =>
    s!"Expected {expected} entries, found {found.length}: " ++ describeEntries found
  | junkCount expected found =>
    s!"Expected {expected} junk entries, found {(found.filterMap Entry.junk?).length}: "
      ++ describeEntries found
  | noEntry index found =>
    s!"Entry index {index} out of bounds (resource has {found.length} entries: "
      ++ describeEntries found ++ ")"
  | entryKind wanted found => "Expected " ++ wanted ++ ", found " ++ describeEntry found
  | noValue => "Expected a value, message has none"
  | hasValue found => "Expected no value, found " ++ quoteOption (some found.display)
  | noComment expected => "Expected doc comment " ++ quote expected ++ ", found none"
  | hasComment found => "Expected no doc comment, found " ++ quoteOption (some found.content)
  | attributeCount expected found =>
    s!"Expected {expected} attributes, found {found.length}: " ++ quoteAll (found.map (·.id.name))
  | noAttribute index found =>
    s!"Attribute index {index} out of bounds (entry has {found.length} attributes)"
  | level expected found =>
    "Expected a " ++ levelWord expected ++ " comment, found " ++ levelWord found
  | faultCode expected found => "Expected a " ++ expected ++ " error, found: " ++ found.message
  | elementCount expected found =>
    s!"Expected {expected} elements, found {found.length}: " ++ quoteAll (found.map describeElement)
  | noElement index found =>
    s!"Element index {index} out of bounds (pattern has {found.length} elements)"
  | notText index found => s!"Expected text at element {index}, found placeable " ++ found.display
  | notPlaceable found => "Expected a placeable, found text " ++ quote found.value
  | expressionKind wanted found =>
    "Expected " ++ wanted ++ ", found " ++ found.describe ++ " `" ++ found.display ++ "`"
  | accessor .. => "attribute mismatch"
  | noArguments => "Term reference has no arguments"
  | positionalCount expected found =>
    s!"Expected {expected} positional arguments in " ++ found.display
  | namedCount expected found => s!"Expected {expected} named arguments in " ++ found.display
  | noPositional index found => s!"Positional index {index} out of bounds in " ++ found.display
  | noNamed name found => "No named argument `" ++ name ++ "` in " ++ found.display
  | variantCount expected found =>
    s!"Expected {expected} variants, found " ++ quoteAll (found.map (·.key.name))
  | noDefault => "Select expression has no default variant"
  | noVariant index found =>
    s!"Variant index {index} out of bounds (select has {found.length} variants)"
  | isDefault .. => "default flag mismatch"

/-- What was compared: the value found, and the value expected. -/
def sides? : Mismatch → Option (String × String)
  | text (.exact expected) actual => some (quote actual, quote expected)
  | entryCount expected found => some (toString found.length, toString expected)
  | junkCount expected found =>
    some (toString (found.filterMap Entry.junk?).length, toString expected)
  | attributeCount expected found => some (toString found.length, toString expected)
  | level expected found => some (levelWord found, levelWord expected)
  | faultCode expected found => some (quote found.code, quote expected)
  | elementCount expected found => some (toString found.length, toString expected)
  | accessor expected found => some (quoteOption found, quoteOption expected)
  | positionalCount expected found => some (toString found.positional.length, toString expected)
  | namedCount expected found => some (toString found.named.length, toString expected)
  | variantCount expected found => some (toString found.length, toString expected)
  | isDefault expected found => some (boolWord found, boolWord expected)
  | _ => none

end Mismatch

/-- A reason, and the path of the node that was checked. -/
structure Failure where
  path : String
  mismatch : Mismatch
  deriving Repr

/-- The failure in words. -/
def Failure.text (f : Failure) : String :=
  let reason := f.path ++ ": " ++ f.mismatch.describe
  match f.mismatch.sides? with
  | none => reason
  | some (left, right) =>
    "assertion `left == right` failed: " ++ reason ++ "\n  left: " ++ left ++ "\n right: " ++ right

end Fluent.Check
