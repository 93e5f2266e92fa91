/-!
# Records of what was read

Reading a source leaves a trace: one record per entry, per stray line and per piece of junk, with
totals around them. Records are plain values; who shows them is up to the caller.
-/

namespace Fluent

inductive LogLevel where
  | debug
  | trace
  deriving DecidableEq, Repr

/-- The stage of reading that a record comes from. -/
inductive LogStage where
  | tokens
  | entries
  deriving DecidableEq, Repr

structure LogRecord where
  level : LogLevel
  stage : LogStage
  text : String
  deriving DecidableEq, Repr

end Fluent
