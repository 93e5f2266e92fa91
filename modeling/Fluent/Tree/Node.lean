import Fluent.Tree.Display

/-!
# Nodes

Every node of a tree has a kind, a label of one line, and a location. `Node` is a node of any kind.
-/

namespace Fluent

inductive NodeKind where
  | resource
  | message
  | term
  | comment
  | groupComment
  | resourceComment
  | junk
  | attribute
  | pattern
  | textChunk
  | placeable
  | stringLiteral
  | numberLiteral
  | variableReference
  | messageReference
  | termReference
  | functionReference
  | selectExpression
  | variant
  | callArguments
  | namedArgument
  deriving DecidableEq, Repr

namespace NodeKind

def name : NodeKind → String
  | resource => "Resource"
  | message => "Message"
  | term => "Term"
  | comment => "Comment"
  | groupComment => "GroupComment"
  | resourceComment => "ResourceComment"
  | junk => "Junk"
  | .attribute => "Attribute"
  | pattern => "Pattern"
  | textChunk => "TextChunk"
  | placeable => "Placeable"
  | stringLiteral => "StringLiteral"
  | numberLiteral => "NumberLiteral"
  | variableReference => "VariableReference"
  | messageReference => "MessageReference"
  | termReference => "TermReference"
  | functionReference => "FunctionReference"
  | selectExpression => "SelectExpression"
  | variant => "Variant"
  | callArguments => "CallArguments"
  | namedArgument => "NamedArgument"

/-- The sign in front of a node's label where trees are drawn. -/
def icon : NodeKind → String
  | resource => "⧉"
  | message => "✉"
  | term => "⊖"
  | comment => "#"
  | groupComment => "##"
  | resourceComment => "###"
  | junk => "✗"
  | .attribute => "@"
  | pattern => "≡"
  | textChunk => "◦"
  | placeable => "{}"
  | stringLiteral => "\""
  | numberLiteral => "№"
  | variableReference => "$"
  | messageReference => "→"
  | termReference => "-"
  | functionReference => "ƒ"
  | selectExpression => "⋔"
  | variant => "▸"
  | callArguments => "( )"
  | namedArgument => ":"

end NodeKind

def CommentLevel.nodeKind : CommentLevel → NodeKind
  | .comment => .comment
  | .group => .groupComment
  | .resource => .resourceComment

def Expression.nodeKind : Expression → NodeKind
  | .string .. => .stringLiteral
  | .number _ => .numberLiteral
  | .variableRef .. => .variableReference
  | .messageRef .. => .messageReference
  | .termRef .. => .termReference
  | .functionRef .. => .functionReference
  | .select .. => .selectExpression
  | .placeable _ => .placeable

/-- Line breaks shown as arrows. -/
def showBreaks (s : String) : String := s.map fun c => if c = '\n' then '↵' else c

/-- The first line of a text. -/
def firstLine (s : String) : String := String.ofList ((Line.all s.toList).headD [])

/-- The first `n` characters of a text, with a mark if there are more. -/
def truncate (n : Nat) (mark : String) (s : String) : String :=
  if n < s.toList.length then String.ofList (s.toList.take n) ++ mark else s

def Expression.label : Expression → String
  | .select selector variants _ => selector.display ++ s!" -> ({variants.length} variants)"
  | e => e.display

def Pattern.label (p : Pattern) : String := truncate 50 "…" (showBreaks p.display)

/-- The key of a variant in brackets, behind the mark of the default. -/
def Variant.label (v : Variant) : String :=
  (if v.isDefault then "*" else "") ++ "[" ++ v.key.name ++ "]"

/-- A node of any kind. A select expression is a node twice: as an expression, and on its own. -/
inductive Node where
  | resource (r : Resource)
  | message (m : Message)
  | term (t : Term)
  | attribute (a : Attribute)
  | comment (c : Comment)
  | junk (j : Junk)
  | pattern (p : Pattern)
  | text (c : TextChunk)
  | placeable (p : Placeable)
  | expression (e : Expression)
  | select (selector : Expression) (variants : List Variant) (location : Location)
  | variant (v : Variant)
  | arguments (a : CallArguments)
  | named (a : NamedArgument)
  deriving Repr

namespace Node

def kind : Node → NodeKind
  | resource _ => .resource
  | message _ => .message
  | term _ => .term
  | .attribute _ => .attribute
  | comment c => c.level.nodeKind
  | junk _ => .junk
  | pattern _ => .pattern
  | text _ => .textChunk
  | placeable _ => .placeable
  | expression e => e.nodeKind
  | select .. => .selectExpression
  | variant _ => .variant
  | arguments _ => .callArguments
  | named _ => .namedArgument

def label : Node → String
  | resource r => s!"Resource ({r.body.length} entries)"
  | message m => m.id.name
  | term t => "-" ++ t.id.name
  | .attribute a => "." ++ a.id.name
  | comment c => firstLine c.content
  | junk j => firstLine j.content
  | pattern p => p.label
  | text c => showBreaks c.value
  | placeable p => p.display
  | expression e => e.label
  | select selector _ _ => selector.display ++ " ->"
  | variant v => v.label
  | arguments a => s!"{a.positional.length} positional, {a.named.length} named"
  | named a => a.display

def location : Node → Location
  | resource r => r.location
  | message m => m.location
  | term t => t.location
  | .attribute a => a.location
  | comment c => c.location
  | junk j => j.location
  | pattern p => p.location
  | text c => c.location
  | placeable p => p.location
  | expression e => e.location
  | select _ _ l => l
  | variant v => v.location
  | arguments a => a.location
  | named a => a.location

end Node

def Entry.node : Entry → Node
  | message m => .message m
  | term t => .term t
  | comment c => .comment c
  | junk j => .junk j

end Fluent
