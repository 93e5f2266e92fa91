import Fluent.Command.Arguments
import Fluent.Diagnostics
import Fluent.Settings.Layers
import Fluent.Text.Whitespace

/-!
# The command

`run` is what the command does with its arguments, given what reading each file comes to: what it prints,
what it reports, and its exit code.
-/

namespace Fluent.Command

structure Outcome where
  code : Nat
  output : String
  report : String
  deriving DecidableEq, Repr

def programName : String := "ftl"

def version : String := "0.1.0"

/-- The form of the arguments. -/
def usage : String :=
  "Usage: " ++ programName ++ " <path> [--format treeviz|json|yaml|tokens] [--config <file>] "
    ++ "[--set key=value]... [--show-linum] [--strict]\n"

/-- The end with a report and nothing printed. -/
def failure (report : String) : Outcome := ⟨1, "", report ++ "\n"⟩

/-- The names under which a file of settings is looked for. -/
def configNames (name : String) : List String := [name, name ++ ".toml"]

/-- A relative path without the parts that lead nowhere. -/
def plainPath (path : String) : String :=
  "/".intercalate <| ((path.toList.splitOnP (· == '/')).map String.ofList).filter fun part =>
    part ≠ "" ∧ part ≠ "."

/-- The file of settings that a name means: the first that is there. -/
def findConfig (read : String → Reading) (name : String) : Settings.File :=
  match (configNames name).find? fun n => read n ≠ .missing with
  | some found => ⟨plainPath found, read found, true⟩
  | none => ⟨name, .missing, true⟩

/-- Layers with an override, which has a path and a value around an equals sign. -/
def addOverride (l : Settings.Layers) (entry : String) : Except Outcome Settings.Layers :=
  let cs := entry.toList
  let key := cs.takeWhile (· ≠ '=')
  match cs.drop key.length with
  | [] => .error (failure ("Error: --set expects key=value, got " ++ entry))
  | _ :: value =>
    match Settings.Path.read (Text.trim (String.ofList key)) with
    | .error fault => .error (failure ("Error: invalid override " ++ entry ++ ": " ++ fault.text))
    | .ok path => .ok (l.addValue path (.text (Text.trim (String.ofList value))))

/-- The settings that a request asks for. -/
def settings (read : String → Reading) (r : Request) : Except Outcome Settings := do
  let base := match r.config with
    | none => Settings.Layers.none
    | some name => Settings.Layers.none.addFile (findConfig read name)
  let layers ← r.overrides.foldlM addOverride base
  match layers.load with
  | .ok s => .ok s
  | .error fault => .error (failure ("Error loading configuration: " ++ fault.message))

/-- A fault with the source lines around it. -/
def reportFault (source : String) (f : Fault) : String :=
  let l := (LineMap.ofChars source.toList).locate f.span
  "error[" ++ f.code ++ "]: " ++ f.message ++ " at " ++ l.start.text ++ "\n"
    ++ sourceContext source l ++ "\n"

/-- What a strict request reports: all faults, and then the warnings. -/
def strictReport (source : String) (resource : Resource) : String :=
  String.join (resource.faults.map (reportFault source))
    ++ String.join ((resource.duplicateIds ++ resource.duplicateAttributes).map fun d => d.text ++ "\n")

/-- The printout of a resource. Structured data ends with a line break of its own. -/
def printResource (f : Format) (numbered : Bool) (resource : Resource) : String :=
  render f numbered resource ++ if f = .treeviz then "" else "\n"

/-- What becomes of a source that has been read. -/
def runSource (s : Settings) (r : Request) (source : String) : Outcome :=
  match r.printout.getD (.tree s.format) with
  | .tokens => ⟨0, Lexeme.listing (tokenize s.options.maxNesting source.toList), ""⟩
  | .tree f =>
    let resource := parse s.options source
    let output := printResource f (r.numbered || s.numbered) resource
    if r.strict then
      ⟨if resource.faults.isEmpty then 0 else 1, output, strictReport source resource⟩
    else ⟨0, output, ""⟩

def runRequest (read : String → Reading) (r : Request) : Outcome :=
  match settings read r with
  | .error outcome => outcome
  | .ok s =>
    match read r.path with
    | .text source => runSource s r source
    | .missing =>
      failure ("Error reading " ++ r.path ++ ": No such file or directory (os error 2)")
    | .failed why => failure ("Error reading " ++ r.path ++ ": " ++ why)

/-- What the command does with its arguments. -/
def run (read : String → Reading) (args : List String) : Outcome :=
  match Invocation.read? args with
  | none => ⟨2, "", usage⟩
  | some .help => ⟨0, usage, ""⟩
  | some .version => ⟨0, programName ++ " " ++ version ++ "\n", ""⟩
  | some (.run r) => runRequest read r

/-- The files that the command may ask for. -/
def filesOf (args : List String) : List String :=
  match Invocation.read? args with
  | some (.run r) => r.path :: (r.config.map configNames).getD []
  | _ => []

end Fluent.Command
