import Fluent.Settings.Path
import Fluent.Text.Lowercase
import Fluent.Toml.Document

/-!
# Values of settings

Settings before they are understood: tables of values, each with the file that it comes from. The keys of
tables are in lower case. `Value.set` puts a value at a path; a table does not replace another but is
merged into it.
-/

namespace Fluent.Settings

mutual

structure Value where
  /-- The file that the value comes from, if any. -/
  origin : Option String
  content : Content

inductive Content where
  | nothing
  | bool (b : Bool)
  | integer (n : Int)
  | float (x : Binary64)
  | text (s : String)
  | list (items : List Value)
  | table (fields : List (String × Value))

end

namespace Value

def nothing : Value := ⟨none, .nothing⟩

def emptyTable : Value := ⟨none, .table []⟩

instance : Inhabited Value := ⟨nothing⟩

/-- The fields of a table; anything else has none. -/
def fields (v : Value) : List (String × Value) :=
  match v.content with
  | .table fields => fields
  | _ => []

/-- The items of a list; anything else has none. -/
def items (v : Value) : List Value :=
  match v.content with
  | .list items => items
  | _ => []

/-- The value of a key in a table. -/
def lookup? (t : Value) (key : String) : Option Value := t.fields.lookup key

/-- The fields of a table with a key put to a value. -/
def putField (key : String) (v : Value) : List (String × Value) → List (String × Value)
  | [] => [(key, v)]
  | (k, old) :: rest => if k = key then (k, v) :: rest else (k, old) :: putField key v rest

/-- A table with a key put to a value. Anything else becomes a table first. -/
def put (t : Value) (key : String) (v : Value) : Value :=
  match t.content with
  | .table fields => ⟨t.origin, .table (putField key v fields)⟩
  | _ => ⟨none, .table [(key, v)]⟩

mutual

/-- Sets a key of a table. A table is merged into what the key holds, field by field. -/
def setKey (t : Value) (key : String) (v : Value) : Value :=
  let key := Text.lowercase key
  match v with
  | ⟨_, .table fields⟩ => t.put key (setKeys ((t.lookup? key).getD emptyTable) fields)
  | ⟨origin, content⟩ => t.put key ⟨origin, content⟩

/-- Sets several keys of a table. -/
def setKeys (t : Value) : List (String × Value) → Value
  | [] => t
  | (key, v) :: rest => setKeys (setKey t key v) rest

end

/-- The position that an index means: a negative one counts from the end, and means none before the
beginning. -/
def position? (i : Int) (length : Nat) : Option Nat :=
  if 0 ≤ i then some i.toNat
  else if i.natAbs ≤ length then some (length - i.natAbs)
  else none

/-- Puts an item of a list to what `f` makes of it. Missing items before it hold nothing, and anything
else becomes a list first. -/
def alterItem (t : Value) (i : Int) (f : Value → Value) : Value :=
  let items := t.items
  match position? i items.length with
  | none => t
  | some n =>
    let padded := items ++ List.replicate (n + 1 - items.length) nothing
    let origin := match t.content with
      | .list _ => t.origin
      | _ => none
    ⟨origin, .list (padded.modify n f)⟩

/-- Sets what steps lead to. -/
def setSteps (v : Value) : List Step → Value → Value
  | [], _ => v
  | [.key name], t => t.setKey name v
  | .key name :: rest, t =>
    let name := Text.lowercase name
    t.put name (setSteps v rest ((t.lookup? name).getD nothing))
  | .index i :: rest, t => t.alterItem i (setSteps v rest)

/-- Sets what a path leads to. -/
def set (t : Value) (p : Path) (v : Value) : Value := setSteps v (.key p.root :: p.steps) t

/-- Sets what the keys of a document lead to. A key is a path if it can be read as one. -/
def setDocument (t : Value) (fields : List (String × Value)) : Value :=
  fields.foldl
    (fun t (key, v) =>
      match Path.read key with
      | .ok p => t.set p v
      | .error _ => t.setKey key v)
    t

mutual

/-- A value that a file holds. -/
def ofToml (file : String) : Toml.Value → Value
  | .text s => ⟨some file, .text s⟩
  | .integer n => ⟨some file, .integer n⟩
  | .float x => ⟨some file, .float x⟩
  | .bool b => ⟨some file, .bool b⟩
  | .list vs => ⟨some file, .list (itemsOfToml file vs)⟩
  | .table fields => ⟨some file, .table (fieldsOfToml file fields)⟩

def itemsOfToml (file : String) : List Toml.Value → List Value
  | [] => []
  | v :: vs => ofToml file v :: itemsOfToml file vs

def fieldsOfToml (file : String) : List (String × Toml.Value) → List (String × Value)
  | [] => []
  | (key, v) :: rest => (key, ofToml file v) :: fieldsOfToml file rest

end

end Value

end Fluent.Settings
