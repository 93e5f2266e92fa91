import Fluent.Fault
import Fluent.Number.Binary64

/-!
# Syntax trees

A resource is a list of entries in source order. Messages and terms hold patterns, patterns hold
text and placeables, and placeables hold expressions; a select expression holds patterns again.
Every node carries its location.
-/

namespace Fluent

structure Identifier where
  name : String
  location : Location
  deriving DecidableEq, Repr, Inhabited

structure NumberLiteral where
  /-- The number as it is written. -/
  raw : String
  value : Binary64
  location : Location
  deriving DecidableEq, Repr, Inhabited

/-- A run of text; it may begin with line breaks and with what its line is indented by beyond the
others. -/
structure TextChunk where
  value : String
  location : Location
  deriving DecidableEq, Repr, Inhabited

/-- What selects a variant. -/
inductive VariantKey where
  | identifier (id : Identifier)
  | number (literal : NumberLiteral)
  deriving DecidableEq, Repr, Inhabited

namespace VariantKey

/-- The key as it is written. -/
def name : VariantKey → String
  | identifier id => id.name
  | number literal => literal.raw

def location : VariantKey → Location
  | identifier id => id.location
  | number literal => literal.location

end VariantKey

mutual

inductive Expression where
  /-- A string literal: its meaning, and the text between its quotes. -/
  | string (value raw : String) (location : Location)
  | number (literal : NumberLiteral)
  | variableRef (id : Identifier) (location : Location)
  | messageRef (id : Identifier) (accessor : Option Identifier) (location : Location)
  | termRef (id : Identifier) (accessor : Option Identifier) (arguments : Option CallArguments)
      (location : Location)
  | functionRef (id : Identifier) (arguments : CallArguments) (location : Location)
  | select (selector : Expression) (variants : List Variant) (location : Location)
  | placeable (inner : Placeable)
  deriving Repr

structure Placeable where
  expression : Expression
  location : Location
  deriving Repr

structure CallArguments where
  positional : List Expression
  named : List NamedArgument
  location : Location
  deriving Repr

structure NamedArgument where
  name : Identifier
  value : Expression
  location : Location
  deriving Repr

structure Variant where
  key : VariantKey
  value : Pattern
  isDefault : Bool
  location : Location
  deriving Repr

structure Pattern where
  elements : List PatternElement
  location : Location
  deriving Repr

inductive PatternElement where
  | text (chunk : TextChunk)
  | placeable (inner : Placeable)
  deriving Repr

end

structure Attribute where
  id : Identifier
  value : Pattern
  location : Location
  deriving Repr

structure Comment where
  level : CommentLevel
  content : String
  location : Location
  deriving DecidableEq, Repr

/-- A message has a value, attributes, or both. -/
structure Message where
  id : Identifier
  value : Option Pattern
  attributes : List Attribute
  comment : Option Comment
  location : Location
  deriving Repr

/-- A term always has a value. Its id is kept without the dash in front. -/
structure Term where
  id : Identifier
  value : Pattern
  attributes : List Attribute
  comment : Option Comment
  location : Location
  deriving Repr

/-- Source text that is no entry, and why. -/
structure Junk where
  content : String
  fault : Fault
  location : Location
  deriving DecidableEq, Repr

inductive Entry where
  | message (m : Message)
  | term (t : Term)
  | comment (c : Comment)
  | junk (j : Junk)
  deriving Repr

structure Resource where
  body : List Entry
  location : Location
  deriving Repr

namespace Expression

def location : Expression → Location
  | string _ _ l | variableRef _ l | messageRef _ _ l | termRef _ _ _ l | functionRef _ _ l
  | select _ _ l => l
  | number literal => literal.location
  | placeable inner => inner.location

/-- The kind of expression in words. -/
def describe : Expression → String
  | string .. => "a string literal"
  | number _ => "a number literal"
  | variableRef .. => "a variable reference"
  | messageRef .. => "a message reference"
  | termRef .. => "a term reference"
  | functionRef .. => "a function reference"
  | select .. => "a select expression"
  | placeable _ => "a placeable"

/-- Literals, variables, terms and function calls can select a variant. -/
def isSelector : Expression → Bool
  | string .. | number _ | variableRef .. | termRef .. | functionRef .. => true
  | messageRef .. | select .. | placeable _ => false

end Expression

/-- The first variant that is marked as the default. -/
def defaultVariant? (variants : List Variant) : Option Variant := variants.find? (·.isDefault)

namespace CallArguments

/-- The first named argument of a name. -/
def named? (a : CallArguments) (name : String) : Option NamedArgument :=
  a.named.find? (·.name.name == name)

end CallArguments

namespace PatternElement

def location : PatternElement → Location
  | text chunk => chunk.location
  | placeable inner => inner.location

def chunk? : PatternElement → Option TextChunk
  | text chunk => some chunk
  | placeable _ => none

def placeable? : PatternElement → Option Placeable
  | text _ => none
  | placeable inner => some inner

end PatternElement

namespace Pattern

/-- The text of a pattern without its placeables. -/
def text (p : Pattern) : String := String.join ((p.elements.filterMap (·.chunk?)).map (·.value))

def placeables (p : Pattern) : List Placeable := p.elements.filterMap (·.placeable?)

end Pattern

namespace Entry

def location : Entry → Location
  | message m => m.location
  | term t => t.location
  | comment c => c.location
  | junk j => j.location

/-- The id of a message, or that of a term with its dash. -/
def id? : Entry → Option String
  | message m => some m.id.name
  | term t => some ("-" ++ t.id.name)
  | _ => none

def message? : Entry → Option Message
  | message m => some m
  | _ => none

def term? : Entry → Option Term
  | term t => some t
  | _ => none

def comment? : Entry → Option Comment
  | comment c => some c
  | _ => none

def junk? : Entry → Option Junk
  | junk j => some j
  | _ => none

def attributes : Entry → List Attribute
  | message m => m.attributes
  | term t => t.attributes
  | _ => []

end Entry

/-- The first attribute of a name. -/
def attribute? (attributes : List Attribute) (name : String) : Option Attribute :=
  attributes.find? (·.id.name == name)

namespace Resource

def messages (r : Resource) : List Message := r.body.filterMap Entry.message?

def terms (r : Resource) : List Term := r.body.filterMap Entry.term?

/-- The comments that belong to no entry. -/
def comments (r : Resource) : List Comment := r.body.filterMap Entry.comment?

def junk (r : Resource) : List Junk := r.body.filterMap Entry.junk?

/-- The faults in source order. -/
def faults (r : Resource) : List Fault := r.junk.map (·.fault)

/-- The first message of an id. -/
def message? (r : Resource) (id : String) : Option Message := r.messages.find? (·.id.name == id)

/-- The first term of an id, given without its dash. -/
def term? (r : Resource) (id : String) : Option Term := r.terms.find? (·.id.name == id)

/-- The first entry whose location contains a position. -/
def entryAt? (r : Resource) (p : Position) : Option Entry := r.body.find? (·.location.contains p)

end Resource

end Fluent
