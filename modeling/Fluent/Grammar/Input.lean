import Fluent.Tree

/-!
# The tokens of an entry

The grammar reads the tokens of one entry and sees none beyond; only the report of a fault at the
very end looks further. Reading a token leaves a `Rest`, an input that is shorter: that is what ends
the recursion of the grammar.
-/

namespace Fluent

/-- The tokens still to be read. -/
structure Input where
  lexemes : List Lexeme
  /-- The end of the last token read that stands for source text. -/
  readTo : Nat
  deriving Repr

/-- What the grammar knows besides the tokens of an entry. -/
structure Fence where
  lines : LineMap
  /-- Where the tokens of the entry end, and what a fault there finds. -/
  position : Nat
  found : Found
  deriving Repr

namespace Input

/-- The number of tokens left. -/
def left (i : Input) : Nat := i.lexemes.length

/-- Four steps, each of which leaves fewer tokens, leave fewer tokens. -/
theorem left_lt_of_steps {i i₁ i₂ i₃ i₄ : Input} (h₁ : i₁.left < i.left) (h₂ : i₂.left < i₁.left)
    (h₃ : i₃.left < i₂.left) (h₄ : i₄.left < i₃.left) : i₄.left < i.left := by
  omega

end Input

/-- An input with fewer tokens. -/
abbrev Rest (i : Input) := { j : Input // j.left < i.left }

namespace Input

/-- The next token, and the input after it. -/
def next? (i : Input) : Option (Lexeme × Rest i) :=
  match h : i.lexemes with
  | [] => none
  | l :: ls => some (l, ⟨⟨ls, if l.token.isMarker then i.readTo else l.span.stop⟩, by simp [left, h]⟩)

/-- The next token. -/
def peek? (i : Input) : Option Token := i.lexemes.head?.map (·.token)

/-- The token after the next one. -/
def peekSecond? (i : Input) : Option Token := i.lexemes[1]?.map (·.token)

end Input

namespace Fence

def locate (f : Fence) (start stop : Nat) : Location := f.lines.locate ⟨start, stop⟩

/-- Where the next token starts. -/
def offset (f : Fence) (i : Input) : Nat :=
  match i.lexemes with
  | [] => f.position
  | l :: _ => l.span.start

/-- The fault of not finding at the next token what is expected there. -/
def fault (f : Fence) (i : Input) (e : Expected) : Fault :=
  .unexpected (f.offset i) e <|
    match i.lexemes with
    | [] => f.found
    | l :: _ => .token l.token

/-- Reads one token of a given kind. -/
def expect (f : Fence) (t : Token) (e : Expected) (i : Input) : Except Fault (Span × Rest i) :=
  match i.next? with
  | some (l, j) => if l.token = t then .ok (l.span, j) else .error (f.fault i e)
  | none => .error (f.fault i e)

/-- Reads an identifier. -/
def identifier (f : Fence) (e : Expected) (i : Input) : Except Fault (Identifier × Rest i) :=
  match i.next? with
  | some (⟨.identifier name, span⟩, j) => .ok (⟨name, f.lines.locate span⟩, j)
  | _ => .error (f.fault i e)

/-- Reads an identifier that starts at an offset, with nothing in between. -/
def identifierAt (f : Fence) (offset : Nat) (e : Expected) (i : Input) :
    Except Fault (Identifier × Rest i) :=
  if f.offset i = offset then f.identifier e i else .error (f.fault i e)

/-- Reads a number that has a value. -/
def number (f : Fence) (i : Input) (e : Expected) : Except Fault (NumberLiteral × Rest i) :=
  match i.next? with
  | some (⟨.number raw, span⟩, j) =>
    match Binary64.read? raw.toList with
    | some value => .ok (⟨raw, value, f.lines.locate span⟩, j)
    | none => .error (.unexpected span.start .number (.raw raw))
  | _ => .error (f.fault i e)

/-- Reads a dot and the identifier behind it, both without white space, after something that ends at
an offset. -/
def accessor (f : Fence) (offset : Nat) (i : Input) :
    Except Fault (Option Identifier × { j : Input // j.left ≤ i.left }) :=
  match i.next? with
  | some (⟨.dot, span⟩, ⟨j, hj⟩) =>
    if span.start = offset then do
      let (id, ⟨k, hk⟩) ← f.identifierAt span.stop .accessorName j
      return (some id, ⟨k, by omega⟩)
    else .ok (none, ⟨i, Nat.le_refl _⟩)
  | _ => .ok (none, ⟨i, Nat.le_refl _⟩)

end Fence

end Fluent
