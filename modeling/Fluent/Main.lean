import Fluent.Command.Run

/-!
# The command line tool
-/

namespace Fluent.Command

/-- Reads a file. -/
def readFile (path : String) : IO Reading := do
  try
    let bytes ← IO.FS.readBinFile path
    match String.fromUTF8? bytes with
    | some s => return .text s
    | none => return .failed "stream did not contain valid UTF-8"
  catch
    | .noFileOrDirectory .. => return .missing
    | e => return .failed (toString e)

end Fluent.Command

open Fluent.Command in
def main (args : List String) : IO UInt32 := do
  let files ← (filesOf args).mapM fun path => return (path, ← readFile path)
  let outcome := run (fun path => (files.lookup path).getD .missing) args
  IO.print outcome.output
  IO.eprint outcome.report
  return outcome.code.toUInt32
