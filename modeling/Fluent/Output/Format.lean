import Fluent.Output.Json
import Fluent.Output.Treeviz
import Fluent.Output.Yaml

/-!
# Output formats

A resource as a drawn tree, as JSON or as YAML.
-/

namespace Fluent

inductive Format where
  | treeviz
  | json
  | yaml
  deriving DecidableEq, Repr

namespace Format

def name : Format → String
  | treeviz => "treeviz"
  | json => "json"
  | yaml => "yaml"

/-- The format of a name, spelled exactly. -/
def ofName? (s : String) : Option Format := [treeviz, json, yaml].find? (·.name == s)

/-- Why a name is refused. -/
def unknownMessage (name : String) : String :=
  "unknown format `" ++ name ++ "` (expected treeviz, json or yaml)"

end Format

/-- A resource in a format; only drawn trees can have line numbers. -/
def render (f : Format) (numbered : Bool) (r : Resource) : String :=
  match f with
  | .treeviz => Treeviz.render numbered r
  | .json => Json.render 0 (r.toDatum .full)
  | .yaml => Yaml.document (r.fields .full)

end Fluent
