import Fluent.Toml.Number
import Fluent.Toml.Table
import Fluent.Toml.Text

/-!
# TOML documents

`Toml.read?` is the table that a document describes. Lines give keys their values; a header in brackets
says which table the lines after it belong to.
-/

namespace Fluent.Toml

/-- Numbers, and the dates and times that look like them. -/
def readNumber : Reader Value := fun cs =>
  ((readMoment cs).map fun (s, rest) => (.text s, rest))
    <|> ((readFloat cs).map fun (x, rest) => (.float x, rest))
    <|> ((readSpecialFloat cs).map fun (x, rest) => (.float x, rest))
    <|> ((readInteger cs).map fun (n, rest) => (.integer n, rest))

def readBool : Reader Value
  | 't' :: 'r' :: 'u' :: 'e' :: cs => some (.bool true, cs)
  | 'f' :: 'a' :: 'l' :: 's' :: 'e' :: cs => some (.bool false, cs)
  | _ => none

/-- A comma and the element behind it. -/
def readNext {α : Type} (element : Reader α) : Reader α
  | ',' :: cs => element cs
  | _ => none

/-- Elements with commas between them. -/
def readSeparated {α : Type} (element : Reader α) : Reader (List α) := fun cs =>
  match element cs with
  | none => some ([], cs)
  | some (a, rest) =>
    let (as, rest) := many (readNext element) rest
    some (a :: as, rest)

/-- The rest of a list after its bracket. A comma may stand behind the last element. -/
def readListBody (value : Reader Value) : Reader Value := fun cs => do
  let element : Reader Value := fun cs => do
    let (v, rest) ← value (skipLines cs)
    some (v, skipLines rest)
  let (vs, rest) ← readSeparated element cs
  let rest := match rest with
    | ',' :: rest => if vs.isEmpty then ',' :: rest else rest
    | rest => rest
  match skipLines rest with
  | ']' :: rest => some (.list vs, rest)
  | _ => none

/-- A path, an equals sign and a value. -/
def readAssignment (value : Reader Value) : Reader (List String × Value) := fun cs => do
  let (path, rest) ← readPath cs
  match rest with
  | '=' :: rest => do
    let (v, rest) ← value (skipSpaces rest)
    some ((path, v), skipSpaces rest)
  | _ => none

/-- Gives the key at the end of a path its value. -/
def addField (path : List String) (v : Value) (es : Entries) : Option Entries :=
  match path.getLast? with
  | none => none
  | some key => insertValue path.dropLast key v es

/-- The rest of a table on one line after its brace. -/
def readTableBody (value : Reader Value) : Reader Value := fun cs => do
  let (fields, rest) ← readSeparated (readAssignment value) cs
  match skipSpaces rest with
  | '}' :: rest => do
    let entries ← fields.foldlM (fun es (path, v) => addField path v es) []
    some (.table (finishEntries entries), rest)
  | _ => none

/-- A value that nests at most so deep. -/
def readValue : Nat → Reader Value
  | 0, _ => none
  | depth + 1, cs =>
    match cs with
    | '[' :: rest => readListBody (readValue depth) rest
    | '{' :: rest => readTableBody (readValue depth) rest
    | c :: _ =>
      if c = '"' ∨ c = '\'' then (readString cs).map fun (s, rest) => (.text s, rest)
      else readNumber cs <|> readBool cs
    | [] => none

/-- A document as far as it is read: its tables, and the path of the open one. -/
structure Draft where
  entries : Entries
  opened : List String

/-- Adds a value to the open table. -/
def Draft.add (d : Draft) (path : List String) (v : Value) : Option Draft :=
  (alterAt false (fun _ es => addField path v es) d.opened .header d.entries).map (⟨·, d.opened⟩)

/-- Opens the table of a header. -/
def Draft.open (d : Draft) (make : List String → String → Entries → Option Entries) (path : List String) :
    Option Draft :=
  match path.getLast? with
  | none => none
  | some key => (make path.dropLast key d.entries).map (⟨·, path⟩)

/-- One line, and what it makes of the document. -/
def readLine (d : Draft) (cs : List Char) : Option (Draft × List Char) :=
  match skipSpaces cs with
  | '[' :: '[' :: rest => do
    let (path, rest) ← readPath rest
    match rest with
    | ']' :: ']' :: rest => do
      let rest ← lineEnd? rest
      some (← d.open openElement path, rest)
    | _ => none
  | '[' :: rest => do
    let (path, rest) ← readPath rest
    match rest with
    | ']' :: rest => do
      let rest ← lineEnd? rest
      some (← d.open openTable path, rest)
    | _ => none
  | rest =>
    match lineEnd? rest with
    | some rest => some (d, rest)
    | none => do
      let ((path, v), rest) ← readAssignment (readValue nestingLimit) rest
      let rest ← lineEnd? rest
      some (← d.add path v, rest)

/-- All lines. -/
def readLines (d : Draft) (cs : List Char) : Option Draft :=
  match readLine d cs with
  | none => none
  | some (d, rest) =>
    if rest = [] then some d
    else if _h : rest.length < cs.length then readLines d rest
    else none
termination_by cs.length
decreasing_by exact _h

/-- The table that a document describes, without the mark of byte order in front of it. -/
def read? (document : String) : Option (List (String × Value)) :=
  let cs := match document.toList with
    | '\ufeff' :: cs => cs
    | cs => cs
  (readLines ⟨[], []⟩ cs).map fun d => finishEntries d.entries

end Fluent.Toml
