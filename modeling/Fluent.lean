import Fluent.CharSet.Search
import Fluent.Check.Entry
import Fluent.Check.Pattern
import Fluent.Main
import Fluent.Tree.Walk
import Fluent.Proofs.Grouping
import Fluent.Proofs.Phrase
import Fluent.Proofs.Written
import Fluent.Proofs.Coverage
import Fluent.Proofs.Behind
import Fluent.Proofs.Onward
import Fluent.Proofs.Moved
import Fluent.Proofs.Trailing
import Fluent.Proofs.Trimmed
import Fluent.Proofs.Clipped
import Fluent.Proofs.Appended
import Fluent.Proofs.Shifted
import Fluent.Proofs.FurtherOn
import Fluent.Proofs.Embedded
import Fluent.Proofs.Joined
import Fluent.Proofs.Spelled
import Fluent.Proofs.Faults
import Fluent.Proofs.Origins
import Fluent.Proofs.Junk
import Fluent.Proofs.Positions
import Fluent.Proofs.Nested
import Fluent.Proofs.Excerpt
import Fluent.Proofs.Alone
import Fluent.Proofs.Duplicates
import Fluent.Proofs.Nesting
import Fluent.Proofs.LineEnds
import Fluent.Proofs.Indents
import Fluent.Proofs.Ends
import Fluent.Proofs.Levels
import Fluent.Proofs.Displayed
import Fluent.Proofs.Canonical
import Fluent.Proofs.CommentLines
import Fluent.Proofs.LineNumbers
import Fluent.Proofs.Entries
import Fluent.Proofs.Lookup
import Fluent.Proofs.Context
import Fluent.Proofs.Definitions
import Fluent.Proofs.Documented
import Fluent.Proofs.Drawing
import Fluent.Proofs.Checked.Whole
import Fluent.Proofs.Escapes
import Fluent.Proofs.Literals
import Fluent.Proofs.Gaps
import Fluent.Proofs.Dedented
import Fluent.Proofs.Arranged
import Fluent.Proofs.Remainders
import Fluent.Proofs.Classes
import Fluent.Proofs.Listings
import Fluent.Proofs.Checked.Progress
import Fluent.Proofs.Offsets
import Fluent.Proofs.Fenced
import Fluent.Proofs.Summaries
