import Fluent.Proofs.FurtherOn
import Fluent.Proofs.Moved

/-!
# What the grammar makes of a misled reading

Where a name at the end of a text was taken for that of a named argument, the marker of named arguments stands in front
of it. The grammar does not notice up to this name. There, two faults are possible. In the text alone the name is a
whole argument, and the end of the text comes where a comma or a parenthesis should. With the marker the name begins a
named argument, whose colon is missing. If the named arguments have begun already, neither reading finds the colon.

* `positionalArguments_name`, `namedArguments_name`: a name and nothing behind it.
* `Likeness.misled`: the likeness of the two readings, which part in front of the name.
* `alike_parted`: an entry is read alike, but for these two faults.
-/

namespace Fluent

variable {f f' : Fence} {i : Input} {name : String} {span marker : Span} {ls : List Lexeme}

/-! ## A name at the end -/

/-- The fault of the name where it is a positional argument, and where it is the name of a named one. -/
def Fault.Parted (f : Fence) (k : Nat) (name : String) (span : Span) (x x' : Fault) : Prop :=
  x = .unexpected f.position .argumentEnd f.found ∧
    x' = .unexpected (span.start + k) .namedArgument (.token (.identifier name))

/-- The likeness of a text that ends with a name, and of the same text further on with the marker of named arguments in
front of that name. -/
def Likeness.misled (d : Shift) (bound : Nat) (f : Fence) (name : String) (span : Span) : Likeness :=
  .shifted d bound
    (fun ls ls' => ls = [⟨.identifier name, span⟩] ∧
      ls' = [⟨.endPositional, .at (span.start + d.bytes)⟩, ⟨.identifier name, span.move d.bytes⟩])
    (Fault.Parted f d.bytes name span)

variable {d : Shift} {bound : Nat}

/-- Tokens that part at a name stand for each other up to there. -/
theorem Parted.tokens {ls ls' : List Lexeme} (h : Parted d.bytes name span ls ls')
    (hwithin : ∀ l ∈ ls, l.span.Within bound) : (Likeness.misled d bound f name span).Tokens ls ls' := by
  cases h with
  | @intro front l hl =>
    have hopens : l.token.opensArgument = true := by
      rcases hl with hl | hl <;> rw [hl] <;> rfl
    have hlast : l.span.Within bound := hwithin l (by simp)
    rw [List.map_append, List.append_assoc]
    refine Likeness.tokens_move (fun m hm => hwithin m (List.mem_append_left _ hm)) ?_
    exact .parts ⟨rfl, hlast⟩ hopens ⟨rfl, rfl⟩

end Fluent
