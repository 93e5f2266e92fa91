/-!
# Paths of settings

A path names a setting: words with dots between them, and numbers in brackets that count the elements of a
list. Words have letters, digits, spaces, underscores and dashes.
-/

namespace Fluent.Settings

/-- One step down from a setting that has parts. -/
inductive Step where
  | key (name : String)
  | index (i : Int)
  deriving DecidableEq, Repr

/-- A path: the section that it starts in, and the steps from there. -/
structure Path where
  root : String
  steps : List Step
  deriving DecidableEq, Repr

/-- What keeps a text from being a path. -/
inductive PathFault where
  /-- No word to begin with. -/
  | noWord
  /-- Neither a dot with a word nor a bracket, or a bracket that is not closed. -/
  | noStep
  /-- A bracket without a number. -/
  | noNumber
  /-- A number of more than 64 bits. -/
  | largeNumber
  deriving DecidableEq, Repr

/-- The fault in a word. -/
def PathFault.text : PathFault → String
  | noWord => "IsA"
  | noStep => "Char"
  | noNumber => "Digit"
  | largeNumber => "Map on Result"

namespace Path

def isWordChar (c : Char) : Bool := c.isAlphanum || c == ' ' || c == '_' || c == '-'

def isGap (c : Char) : Bool := c == ' ' || c == '\t'

/-- A number in brackets, after the opening one, and what follows the closing one. -/
def readIndex (cs : List Char) : Except PathFault (Int × List Char) :=
  let cs := cs.dropWhile isGap
  let (negative, cs) := match cs with
    | '-' :: cs => (true, cs)
    | cs => (false, cs)
  let digits := cs.takeWhile Char.isDigit
  let n := digits.foldl (fun n c => 10 * n + (c.toNat - '0'.toNat)) 0
  let i : Int := if negative then -n else n
  if digits = [] then .error .noNumber
  else if Nat.pow 2 63 < n + (if negative then 0 else 1) then .error .largeNumber
  else
    match (cs.drop digits.length).dropWhile isGap with
    | ']' :: rest => .ok (i, rest)
    | _ => .error .noStep

/-- One step off the front of a path. -/
def readStep : List Char → Except PathFault (Step × List Char)
  | '.' :: cs =>
    let word := cs.takeWhile isWordChar
    if word = [] then .error .noStep else .ok (.key (String.ofList word), cs.drop word.length)
  | '[' :: cs => (readIndex cs).map fun (i, rest) => (.index i, rest)
  | _ => .error .noStep

def readSteps (cs : List Char) : Except PathFault (List Step) :=
  if cs = [] then .ok []
  else
    match readStep cs with
    | .error e => .error e
    | .ok (step, rest) =>
      if _h : rest.length < cs.length then (readSteps rest).map (step :: ·) else .error .noStep
termination_by cs.length
decreasing_by exact _h

/-- The path that a text spells. -/
def read (s : String) : Except PathFault Path := do
  let cs := s.toList
  let word := cs.takeWhile isWordChar
  if word = [] then .error .noWord
  else .ok ⟨String.ofList word, ← readSteps (cs.drop word.length)⟩

end Path

end Fluent.Settings
