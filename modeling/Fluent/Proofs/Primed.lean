import Fluent.Proofs.Outcomes

/-!
# In front of an argument

For the arguments of a call the machine keeps a note whether the next token begins an argument. It never looks back to
see what the note comes from. But the note is made only where a parenthesis or a comma was read just now, and it is
taken back with the token that is read next, before anything else is opened. So wherever it stands, that parenthesis
or that comma is the token that was read last.

* `Underway fs`: in none of the constructs does the next token begin an argument.
* `State.Primed`: if the next token begins an argument, what was read last opens it.
* `State.primed_step`: a step leads from primed states to primed states only.
* `State.primed_beginValue`: the machine begins in a primed state.
-/

namespace Fluent

/-- The next token begins an argument of this construct. -/
def Frame.atStart : Frame → Bool
  | arguments _ atStart => atStart
  | _ => false

/-- In none of the constructs does the next token begin an argument. This is so of the constructs around the innermost
one, since something is being read in each of them. -/
def Underway (fs : List Frame) : Prop := ∀ f ∈ fs, f.atStart = false

theorem Underway.cons {f : Frame} {fs : List Frame} (hf : f.atStart = false) (h : Underway fs) : Underway (f :: fs) :=
  List.forall_mem_cons.2 ⟨hf, h⟩

/-- A token that an argument can begin behind: the parenthesis that opens the list, or a comma in it. -/
def Lexeme.OpensArgument (l : Lexeme) : Prop := l.token = .openParen ∨ l.token = .comma

namespace State

/-- If the next token begins an argument, a parenthesis or a comma was read last. Only the innermost construct can be
in that position, since in all others something was begun since. -/
inductive Primed : State → Prop
  | underway {s : State} : Underway s.frames → Primed s
  | atStart {s : State} {positional : Bool} {fs : List Frame} {l : Lexeme} {is : List PatternItem} :
      s.frames = .arguments positional true :: fs → Underway fs → s.items = .lexeme l :: is → l.OpensArgument → Primed s

variable {s : State} {limit : Nat} {f : Frame} {fs : List Frame}

/-- The constructs around the innermost one are underway. -/
theorem Primed.outer (h : s.Primed) (hfs : s.frames = f :: fs) : Underway fs := by
  cases h with
  | underway h =>
    rw [hfs] at h
    exact (List.forall_mem_cons.1 h).2
  | atStart hframes h =>
    rw [hfs] at hframes
    obtain ⟨-, rfl⟩ := List.cons.inj hframes
    exact h

/-- What was read in front of an argument. -/
theorem Primed.opensArgument (h : s.Primed) {positional : Bool} (hfs : s.frames = .arguments positional true :: fs) :
    ∃ l is, s.items = .lexeme l :: is ∧ l.OpensArgument := by
  cases h with
  | underway h =>
    rw [hfs] at h
    cases h _ List.mem_cons_self
  | atStart _ _ hitems hopens => exact ⟨_, _, hitems, hopens⟩

/-- Moving the cursor on. -/
theorem Primed.move (h : s.Primed) (c : Cursor) : Primed { s with cursor := c } := by
  cases h with
  | underway h => exact .underway h
  | atStart hframes h hitems hopens => exact .atStart hframes h hitems hopens

/-- Behind a sign that a value may follow, no argument begins. -/
theorem underway_beginValue (h : Underway s.frames) : Underway s.beginValue.frames := by
  have hvalue := s.valueBegins
  generalize s.beginValue = t at hvalue
  cases hvalue with
  | inline => exact .cons rfl h
  | below => exact .cons rfl h
  | missing => exact h

end State

/-- Where the machine goes on after a step, it is primed. What it leaves when it stops does not matter. -/
def Step.Primed : Step → Prop
  | .next s => s.Primed
  | .stop .. => True

namespace State

variable {s : State} {limit : Nat} {fs : List Frame}

theorem underway_finishLine (h : Underway s.frames) : Underway s.finishLine.frames := by
  unfold finishLine
  split <;> exact h

theorem primed_betweenAttributes (h : Underway s.frames) : s.betweenAttributes.Primed := by
  have hframes : Underway s.finishLine.frames := underway_finishLine h
  have hfollows := s.attributeFollows
  generalize s.betweenAttributes = x at hfollows
  cases hfollows with
  | header => exact .underway (underway_beginValue hframes)
  | unfinished => exact .underway hframes
  | stop => trivial

theorem primed_openPlaceable (h : Underway s.frames) : (s.openPlaceable limit).Primed := by
  unfold openPlaceable
  split
  · exact .underway (.cons rfl h)
  · trivial

theorem primed_openArguments (h : Underway s.frames) : (s.openArguments limit).Primed := by
  unfold openArguments
  split
  · exact .atStart rfl h rfl (.inl rfl)
  · trivial

theorem primed_emitScanned (h : Underway s.frames) : s.emitScanned.Primed := by
  unfold emitScanned
  split
  · trivial
  · exact .underway h

theorem primed_readText (h : Underway fs) {outer : List PatternItem} {breaks : Nat} {indent : Option Nat} :
    (s.readText limit outer breaks indent fs).Primed := by
  have hreads := s.textReads limit outer breaks indent fs
  generalize s.readText limit outer breaks indent fs = x at hreads
  cases hreads with
  | placeable => exact primed_openPlaceable (.cons rfl h)
  | below => exact .underway (.cons rfl h)
  | last => exact .underway h

theorem primed_readPlaceable (hfs : s.frames = .placeable :: fs) (h : Underway fs) :
    (s.readPlaceable limit fs).Primed := by
  have hframes : Underway s.frames := hfs ▸ .cons rfl h
  have hreads := s.placeableReads limit fs
  generalize s.readPlaceable limit fs = r at hreads
  cases hreads with
  | close => exact .underway h
  | placeable => exact primed_openPlaceable hframes
  | arguments => exact primed_openArguments hframes
  | arrow => exact .underway (.cons rfl h)
  | token => exact primed_emitScanned hframes

/-- The comma between two arguments is read last when the second one begins. -/
theorem primed_readArguments (h : Underway fs) {positional atStart : Bool} :
    (s.readArguments limit positional atStart fs).Primed := by
  have hreads := s.argumentsReads limit positional atStart fs
  generalize s.readArguments limit positional atStart fs = r at hreads
  cases hreads with
  | nothing => trivial
  | close => exact .underway h
  | placeable => exact primed_openPlaceable (.cons rfl h)
  | arguments => exact primed_openArguments (.cons rfl h)
  | @token c cs =>
    generalize Token.scan c cs = scanned
    obtain ⟨t, more⟩ := scanned
    by_cases hcomma : t = .comma
    · subst hcomma
      exact .atStart rfl h rfl (.inr rfl)
    · exact .underway (.cons (by simpa [Frame.atStart] using hcomma) h)

theorem primed_readVariants (hfs : s.frames = .variants :: fs) (h : Underway fs) : (s.readVariants fs).Primed := by
  have hframes : Underway s.frames := hfs ▸ .cons rfl h
  have hreads := s.variantsReads fs
  generalize s.readVariants fs = r at hreads
  cases hreads with
  | close => exact .underway h
  | key => exact .underway (.cons rfl hframes)
  | token => exact primed_emitScanned hframes

theorem primed_readKey (h : Underway fs) {read : Bool} : (s.readKey read fs).Primed := by
  have hreads := s.keyReads read fs
  generalize s.readKey read fs = r at hreads
  cases hreads with
  | close => exact .underway (underway_beginValue h)
  | unclosed => exact .underway h
  | token => exact primed_emitScanned (.cons rfl h)

theorem primed_onContent {read : State → Step} (hread : ∀ c : Cursor, (read { s with cursor := c }).Primed) :
    (s.onContent read).Primed := by
  unfold onContent
  split
  · trivial
  · exact hread _

/-- **A step leaves the machine primed.** Each kind of construct closes, opens another one or reads a token; only an
opening parenthesis and a comma make the next token begin an argument. -/
theorem primed_step (limit : Nat) (h : s.Primed) : (s.step limit).Primed := by
  have hreads := s.stepReads limit
  generalize s.step limit = r at hreads
  cases hreads with
  | outside hfs => exact primed_betweenAttributes (hfs ▸ fun _ hf => absurd hf List.not_mem_nil)
  | pattern hfs => exact primed_readText (h.outer hfs)
  | placeable hfs => exact primed_onContent fun _ => primed_readPlaceable hfs (h.outer hfs)
  | arguments hfs => exact primed_onContent fun _ => primed_readArguments (h.outer hfs)
  | variants hfs => exact primed_onContent fun _ => primed_readVariants hfs (h.outer hfs)
  | key hfs => exact primed_onContent fun _ => primed_readKey (h.outer hfs)

/-- Behind a header, with nothing open, the machine is primed. -/
theorem primed_beginValue (h : Underway s.frames) : s.beginValue.Primed := .underway (underway_beginValue h)

end State

end Fluent
