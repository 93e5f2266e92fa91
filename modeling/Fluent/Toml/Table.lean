import Fluent.Number.Binary64

/-!
# TOML values and tables

A document builds its tables line by line. A table may be opened once by a header, its keys may be given
once, and which lines may add to it depends on how it came to be: that is its `TableKind`.
-/

namespace Fluent.Toml

/-- A value. Dates and times are texts. -/
inductive Value where
  | text (s : String)
  | integer (n : Int)
  | float (x : Binary64)
  | bool (b : Bool)
  | list (vs : List Value)
  | table (fields : List (String × Value))
  deriving Repr, Inhabited

/-- How a table came to be. -/
inductive TableKind where
  /-- By a header of its own. -/
  | header
  /-- By the header of a table inside it. -/
  | implied
  /-- By the dots of a key. -/
  | dotted
  deriving DecidableEq, Repr

/-- What a key of an unfinished table holds. -/
inductive Item where
  | value (v : Value)
  | table (kind : TableKind) (entries : List (String × Item))
  | tables (elements : List (List (String × Item)))
  deriving Inhabited

abbrev Entries := List (String × Item)

/-- Puts what `f` makes of the present item in its place, or a new one at the end. -/
def alter (key : String) (f : Option Item → Option Item) : Entries → Option Entries
  | [] => (f none).map fun item => [(key, item)]
  | (k, item) :: rest =>
    if k = key then (f (some item)).map fun item => (k, item) :: rest
    else (alter key f rest).map ((k, item) :: ·)

/-- Changes the last of several tables. -/
def alterLast (f : Entries → Option Entries) : List Entries → Option (List Entries)
  | [] => none
  | [es] => (f es).map ([·])
  | es :: rest => (alterLast f rest).map (es :: ·)

/-- Changes the table at the end of a path, of which the missing part is made. Where a path leads to
several tables it means the last. The dots of a key, unlike a header, do not lead into a table that has a
header of its own. -/
def alterAt (dots : Bool) (f : TableKind → Entries → Option Entries) :
    List String → TableKind → Entries → Option Entries
  | [], kind, es => f kind es
  | key :: path, _, es =>
    es |> alter key fun
      | none =>
        let kind := if dots then .dotted else .implied
        (alterAt dots f path kind []).map (.table kind)
      | some (.table kind inner) =>
        if dots ∧ kind = .header then none else (alterAt dots f path kind inner).map (.table kind)
      | some (.tables elements) =>
        (alterLast (alterAt dots f path .header) elements).map .tables
      | some (.value _) => none

/-- Gives a key its value. Behind dots the table must be one that dots made. -/
def insertValue (path : List String) (key : String) (v : Value) : Entries → Option Entries :=
  alterAt true
    (fun kind es =>
      if path ≠ [] ∧ kind ≠ .dotted then none
      else
        es |> alter key fun
          | none => some (.value v)
          | some _ => none)
    path .header

/-- Opens a table by its header. -/
def openTable (path : List String) (key : String) : Entries → Option Entries :=
  alterAt false
    (fun _ es =>
      es |> alter key fun
        | none => some (.table .header [])
        | some (.table .implied inner) => some (.table .header inner)
        | some _ => none)
    path .header

/-- Opens one more of several tables by its header. -/
def openElement (path : List String) (key : String) : Entries → Option Entries :=
  alterAt false
    (fun _ es =>
      es |> alter key fun
        | none => some (.tables [[]])
        | some (.tables elements) => some (.tables (elements ++ [[]]))
        | some _ => none)
    path .header

mutual

/-- The value of a finished item. -/
def Item.finish : Item → Value
  | .value v => v
  | .table _ entries => .table (finishEntries entries)
  | .tables elements => .list (finishTables elements)

def finishEntries : List (String × Item) → List (String × Value)
  | [] => []
  | (key, item) :: rest => (key, item.finish) :: finishEntries rest

def finishTables : List (List (String × Item)) → List Value
  | [] => []
  | es :: rest => .table (finishEntries es) :: finishTables rest

end

end Fluent.Toml
