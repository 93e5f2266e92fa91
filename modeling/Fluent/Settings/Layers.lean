import Fluent.Number.Binary64
import Fluent.Output.Format
import Fluent.Settings.Value
import Fluent.Source.Reading

/-!
# Settings in layers

The defaults come first, then files, of which a later one wins, and then single values that win over all
files. `Layers.load` understands the result, or says what is wrong with it.
-/

namespace Fluent

/-- What can be set. -/
structure Settings where
  options : ParseOptions
  format : Format
  /-- Drawn trees have line numbers. -/
  numbered : Bool
  deriving DecidableEq, Repr

namespace Settings

/-- What is wrong with settings. -/
inductive Fault where
  | missingFile (name : String)
  | unreadableFile (why : String)
  | malformedFile (name : String)
  /-- A value at a path is of another type, and comes from a file or not. -/
  | wrongType (found wanted path : String) (origin : Option String)
  | unknownVariant (type name : String)
  | notVariant (type : String)
  | notSection (found type : String)
  | missingField (name : String)
  | wrongLength (length : Nat) (type : String) (expected : Nat)
  deriving DecidableEq, Repr

def Fault.message : Fault → String
  | missingFile name => "configuration file \"" ++ name ++ "\" not found"
  | unreadableFile why => why
  | malformedFile name => "malformed document in " ++ name
  | wrongType found wanted path origin =>
    "invalid type: " ++ found ++ ", expected " ++ wanted ++ " for key `" ++ path ++ "`"
      ++ match origin with
        | none => ""
        | some file => " in " ++ file
  | unknownVariant type name => "enum " ++ type ++ " does not have variant constructor " ++ name
  | notVariant type =>
    "value of enum " ++ type
      ++ " should be represented by either string or table with exactly one key"
  | notSection found type => "invalid type: " ++ found ++ ", expected struct " ++ type
  | missingField name => "missing field `" ++ name ++ "`"
  | wrongLength length type expected =>
    s!"invalid length {length}, expected struct " ++ type ++ s!" with {expected} elements"

/-- A value of the wrong type in words. -/
def describeContent : Content → String
  | .nothing => "unit value"
  | .bool b => "boolean `" ++ (if b then "true" else "false") ++ "`"
  | .integer n => s!"integer `{n}`"
  | .float x =>
    let text := x.text
    "floating point `" ++ (if x.isFinite && !text.toList.contains '.' then text ++ ".0" else text) ++ "`"
  | .text s => "string " ++ Text.quote s
  | .list _ => "sequence"
  | .table _ => "map"

/-- The words that stand for true and false. -/
def truth? (s : String) : Option Bool :=
  if ["true", "on", "yes"].contains s then some true
  else if ["false", "off", "no"].contains s then some false
  else none

/-- The greatest number of 64 bits. -/
def greatest : Nat := Nat.pow 2 64 - 1

/-- Digits, perhaps with a plus in front, of a number of 64 bits. -/
def readNat? (s : String) : Option Nat :=
  let digits : List Char := match s.toList with
    | '+' :: cs => cs
    | cs => cs
  let n := digits.foldl (fun n c => 10 * n + (c.toNat - '0'.toNat)) 0
  if digits ≠ [] ∧ digits.all Char.isDigit ∧ n ≤ greatest then some n else none

/-- The nearest whole number of 64 bits, a half going away from zero. -/
def roundToNat : Binary64 → Nat
  | .notANumber => 0
  | .infinite negative => if negative then 0 else greatest
  | .finite true _ _ => 0
  | .finite false m e =>
    let n := if 0 ≤ e then m * Nat.pow 2 e.toNat
      else (2 * m + Nat.pow 2 (-e).toNat) / (2 * Nat.pow 2 (-e).toNat)
    min n greatest

/-- A natural number, or what stands for one. -/
def readNumber (path : String) (v : Value) : Except Fault Nat :=
  let wrong {α : Type} (found wanted : String) : Except Fault α :=
    .error (.wrongType found wanted path v.origin)
  match v.content with
  | .integer n =>
    if n < 0 then wrong s!"64-bit integer `{n}`" "an unsigned 64 bit or less integer" else .ok n.toNat
  | .bool b => .ok (if b then 1 else 0)
  | .float x => .ok (roundToNat x)
  | .text s =>
    match truth? (Text.lowercase s) with
    | some b => .ok (if b then 1 else 0)
    | none =>
      match readNat? s with
      | some n => .ok n
      | none => wrong ("string " ++ Text.quote s) "an integer"
  | content => wrong (describeContent content) "an integer"

/-- A truth value, or what stands for one. -/
def readTruth (path : String) (v : Value) : Except Fault Bool :=
  match v.content with
  | .bool b => .ok b
  | .integer n => .ok (n != 0)
  | .float x =>
    .ok (match x with
      | .finite _ m _ => m != 0
      | _ => true)
  | .text s =>
    let lower := Text.lowercase s
    match truth? lower with
    | some b => .ok b
    | none =>
      if lower = "1" then .ok true
      else if lower = "0" then .ok false
      else .error (.wrongType ("string " ++ Text.quote lower) "a boolean" path v.origin)
  | content => .error (.wrongType (describeContent content) "a boolean" path v.origin)

/-- One of several named values: its name, or a table with that as its only key. -/
def readVariant {α : Type} (type : String) (variants : List (String × α)) (v : Value) :
    Except Fault α :=
  let named (name : String) : Except Fault α :=
    match variants.lookup (Text.lowercase name) with
    | some a => .ok a
    | none => .error (.unknownVariant type name)
  match v.content with
  | .text s => named s
  | .table [(key, _)] => named key
  | _ => .error (.notVariant type)

def policies : List (String × DuplicatePolicy) := [("preserve", .preserve), ("reject", .reject)]

def formats : List (String × Format) := [.treeviz, .json, .yaml].map fun f => (f.name, f)

/-- A section of two fields: a table with both, or a list that holds them in order. Fields that are there
are read before one is missed. -/
def readSection {α β : Type} (name type : String) (first : String × (String → Value → Except Fault α))
    (second : String × (String → Value → Except Fault β)) (v : Value) : Except Fault (α × β) :=
  match v.content with
  | .table _ => do
    let a ← (v.lookup? first.1).mapM (first.2 (name ++ "." ++ first.1))
    let b ← (v.lookup? second.1).mapM (second.2 (name ++ "." ++ second.1))
    match a, b with
    | some a, some b => .ok (a, b)
    | none, _ => .error (.missingField first.1)
    | _, none => .error (.missingField second.1)
  | .list items => do
    let a ← items[0]?.mapM (first.2 (name ++ "[0]"))
    let b ← items[1]?.mapM (second.2 (name ++ "[1]"))
    match a, b with
    | some a, some b => .ok (a, b)
    | none, _ => .error (.wrongLength 0 type 2)
    | _, none => .error (.wrongLength 1 type 2)
  | content => .error (.notSection (describeContent content) type)

/-- The settings that a table holds. -/
def ofValue (v : Value) : Except Fault Settings := do
  let (duplicates, maxNesting) ←
    readSection "parser" "ParserConfig"
      ("duplicates", fun _ => readVariant "DuplicatePolicy" policies)
      ("max_nesting", readNumber) ((v.lookup? "parser").getD .nothing)
  let (format, numbered) ←
    readSection "output" "OutputConfig"
      ("format", fun _ => readVariant "Format" formats)
      ("show_line_numbers", readTruth) ((v.lookup? "output").getD .nothing)
  return ⟨⟨duplicates, maxNesting⟩, format, numbered⟩

/-- The settings without any layer. -/
def default : Settings := ⟨{}, .treeviz, false⟩

/-- The settings without any layer, as a table. -/
def defaultValue : Value :=
  let value (content : Content) : Value := ⟨none, content⟩
  value <| .table [
    ("parser", value <| .table [
      ("duplicates", value (.text "preserve")), ("max_nesting", value (.integer defaultNesting))]),
    ("output", value <| .table [
      ("format", value (.text "treeviz")), ("show_line_numbers", value (.bool false))])]

/-- A file, and what reading it came to. -/
structure File where
  name : String
  content : Reading
  /-- The file must be there. -/
  isRequired : Bool
  deriving DecidableEq, Repr

/-- Puts what a file holds over a table. -/
def File.apply (f : File) (v : Value) : Except Fault Value :=
  match f.content with
  | .missing => if f.isRequired then .error (.missingFile f.name) else .ok v
  | .failed why => if f.isRequired then .error (.unreadableFile why) else .ok v
  | .text text =>
    match Toml.read? text with
    | none => .error (.malformedFile f.name)
    | some fields => .ok (v.setDocument (Value.fieldsOfToml f.name fields))

/-- What lies over the defaults: files and single values. -/
structure Layers where
  files : List File
  values : List (Path × Value)

namespace Layers

/-- The defaults alone. -/
def none : Layers := ⟨[], []⟩

/-- One more file, which wins over the files before. -/
def addFile (l : Layers) (f : File) : Layers := ⟨l.files ++ [f], l.values⟩

/-- One more value, which takes the place of an earlier one at the same path. -/
def addValue (l : Layers) (p : Path) (content : Content) : Layers :=
  ⟨l.files, l.values.filter (·.1 ≠ p) ++ [(p, ⟨.none, content⟩)]⟩

/-- The settings under all layers. -/
def load (l : Layers) : Except Fault Settings := do
  let v ← l.files.foldlM (fun v f => f.apply v) defaultValue
  ofValue (l.values.foldl (fun v (p, value) => v.set p value) v)

end Layers

end Settings

end Fluent
