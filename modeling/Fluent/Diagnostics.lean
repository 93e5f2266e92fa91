import Fluent.Tree

/-!
# Diagnostics

What an editor or a command line reports about a resource: an error for each piece of junk, and
warnings for ids and attributes that are defined twice, where the first definition wins.
-/

namespace Fluent

inductive Severity where
  | error
  | warning
  deriving DecidableEq, Repr

def Severity.name : Severity → String
  | .error => "error"
  | .warning => "warning"

structure Diagnostic where
  location : Location
  severity : Severity
  message : String
  code : String
  deriving DecidableEq, Repr

namespace Diagnostic

/-- The name that every diagnostic is reported under. -/
def origin : String := "ftl"

/-- The diagnostic on one line. -/
def text (d : Diagnostic) : String :=
  d.severity.name ++ " [" ++ origin ++ "]: " ++ d.message ++ " at " ++ d.location.start.text

end Diagnostic

namespace Resource

/-- The junk of a resource as errors. -/
def errors (r : Resource) : List Diagnostic :=
  r.junk.map fun j => ⟨j.location, .error, j.fault.message, j.fault.code⟩

/-- A warning for every entry whose id is in `seen` or belongs to an earlier entry. -/
def duplicateIdsAfter (seen : List String) : List Entry → List Diagnostic
  | [] => []
  | e :: es =>
    match e.id? with
    | none => duplicateIdsAfter seen es
    | some id =>
      if seen.contains id then
        ⟨e.location, .warning, "`" ++ id ++ "` is already defined earlier in the resource",
          "duplicate-id"⟩ :: duplicateIdsAfter seen es
      else duplicateIdsAfter (id :: seen) es

def duplicateIds (r : Resource) : List Diagnostic := duplicateIdsAfter [] r.body

/-- A warning for every attribute whose name is in `seen` or belongs to an earlier attribute. -/
def duplicateAttributesAfter (seen : List String) : List Attribute → List Diagnostic
  | [] => []
  | a :: as =>
    if seen.contains a.id.name then
      ⟨a.location, .warning, "attribute `." ++ a.id.name ++ "` is repeated", "duplicate-attribute"⟩
        :: duplicateAttributesAfter seen as
    else duplicateAttributesAfter (a.id.name :: seen) as

def duplicateAttributes (r : Resource) : List Diagnostic :=
  r.body.flatMap fun e => duplicateAttributesAfter [] e.attributes

/-- Errors first, each group in source order. -/
def diagnostics (r : Resource) : List Diagnostic :=
  r.errors ++ r.duplicateIds ++ r.duplicateAttributes

end Resource

/-- A number right-aligned in three columns. -/
def alignThree (n : Nat) : String :=
  let digits := (toString n).toList
  String.ofList (List.replicate (3 - digits.length) ' ' ++ digits)

/-- The lines around a location: two before the line that it starts on and two after, with their
numbers, that line being marked. -/
def sourceContext (source : String) (l : Location) : String :=
  let line := l.start.line
  let rows := (Line.all source.toList).zipIdx.filter fun (_, i) => line ≤ i + 2 && i ≤ line + 2
  String.join <| rows.map fun (text, i) =>
    (if i = line then ">>" else "  ") ++ " " ++ alignThree (i + 1) ++ " | " ++ String.ofList text ++ "\n"

end Fluent
