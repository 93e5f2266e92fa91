import Fluent.Output.Format

/-!
# Arguments of the command line

The command takes the path of a source and options. An option that takes a value takes it from the rest of
its own argument or else from the next one. `Invocation.read?` is what the arguments ask for, unless they
are misused.
-/

namespace Fluent.Command

/-- What is printed of a source. -/
inductive Printout where
  | tokens
  | tree (f : Format)
  deriving DecidableEq, Repr

/-- The printout of a name. -/
def Printout.ofName? (s : String) : Option Printout :=
  if s = "tokens" then some .tokens else (Format.ofName? s).map .tree

/-- A source to be read, and how. -/
structure Request where
  path : String
  printout : Option Printout
  config : Option String
  /-- Settings with their values, as they are given. -/
  overrides : List String
  numbered : Bool
  strict : Bool
  deriving DecidableEq, Repr

inductive Invocation where
  | version
  | help
  | run (r : Request)
  deriving DecidableEq, Repr

/-- The options that take a value. -/
inductive Valued where
  | printout
  | config
  | override
  deriving DecidableEq, Repr

inductive Switch where
  | numbered
  | strict
  | version
  | help
  deriving DecidableEq, Repr

/-- The arguments that have been read. -/
structure Draft where
  path : Option String
  printout : Option Printout
  config : Option String
  overrides : List String
  numbered : Bool
  strict : Bool

namespace Draft

def blank : Draft := ⟨none, none, none, [], false, false⟩

/-- Takes a path, of which there is one only. -/
def addPath (d : Draft) (path : String) : Option Draft :=
  match d.path with
  | none => some ⟨some path, d.printout, d.config, d.overrides, d.numbered, d.strict⟩
  | some _ => none

/-- Takes the value of an option. Only overrides may be repeated. -/
def addValue (d : Draft) (o : Valued) (value : String) : Option Draft :=
  match o with
  | .printout =>
    match d.printout, Printout.ofName? value with
    | none, some p => some ⟨d.path, some p, d.config, d.overrides, d.numbered, d.strict⟩
    | _, _ => none
  | .config =>
    match d.config with
    | none => some ⟨d.path, d.printout, some value, d.overrides, d.numbered, d.strict⟩
    | some _ => none
  | .override =>
    some ⟨d.path, d.printout, d.config, d.overrides ++ [value], d.numbered, d.strict⟩

/-- The request of arguments that name a path. -/
def finish (d : Draft) : Option Invocation :=
  d.path.map fun path => .run ⟨path, d.printout, d.config, d.overrides, d.numbered, d.strict⟩

end Draft

/-- One argument by its form. -/
inductive Argument where
  /-- No options follow. -/
  | endOfOptions
  | switch (s : Switch)
  | valued (o : Valued) (value : Option String)
  | path (s : String)
  /-- An option that does not exist, or has a value that it does not take. -/
  | unknown

/-- An option by its long name. -/
def longOption (name : List Char) (value : Option String) : Argument :=
  let switch (s : Switch) : Argument := if value.isSome then .unknown else .switch s
  match String.ofList name with
  | "format" => .valued .printout value
  | "config" => .valued .config value
  | "set" => .valued .override value
  | "show-linum" => switch .numbered
  | "strict" => switch .strict
  | "version" => switch .version
  | "help" => switch .help
  | _ => .unknown

/-- An option by its letter, and the rest of its argument. A value may stand behind an equals sign. -/
def shortOption (letter : Char) (rest : List Char) : Argument :=
  let value := match rest with
    | [] => none
    | '=' :: rest => some (String.ofList rest)
    | rest => some (String.ofList rest)
  match letter with
  | 'f' => .valued .printout value
  | 'c' => .valued .config value
  | 'V' => .switch .version
  | 'h' => .switch .help
  | _ => .unknown

def Argument.ofString (s : String) : Argument :=
  match s.toList with
  | ['-', '-'] => .endOfOptions
  | '-' :: '-' :: cs =>
    let name := cs.takeWhile (· ≠ '=')
    longOption name ((cs.drop name.length).tail?.map String.ofList)
  | '-' :: c :: cs => shortOption c cs
  | _ => .path s

/-- The meaning of arguments behind others. The first that asks for the version or for help settles it. -/
def readFrom (d : Draft) : List String → Option Invocation
  | [] => d.finish
  | arg :: rest =>
    match Argument.ofString arg with
    | .endOfOptions => (rest.foldlM Draft.addPath d).bind Draft.finish
    | .path path => (d.addPath path).bind fun d => readFrom d rest
    | .switch .version => some .version
    | .switch .help => some .help
    | .switch .numbered =>
      if d.numbered then none
      else readFrom ⟨d.path, d.printout, d.config, d.overrides, true, d.strict⟩ rest
    | .switch .strict =>
      if d.strict then none
      else readFrom ⟨d.path, d.printout, d.config, d.overrides, d.numbered, true⟩ rest
    | .valued o (some value) => (d.addValue o value).bind fun d => readFrom d rest
    | .valued o none =>
      match rest with
      | value :: rest =>
        match Argument.ofString value with
        | .path value => (d.addValue o value).bind fun d => readFrom d rest
        | _ => none
      | [] => none
    | .unknown => none

/-- What arguments ask for. -/
def Invocation.read? (args : List String) : Option Invocation := readFrom .blank args

end Fluent.Command
