/-!
# Reading files
-/

namespace Fluent

/-- What reading a file comes to. -/
inductive Reading where
  | missing
  | failed (why : String)
  | text (s : String)
  deriving DecidableEq, Repr

end Fluent
