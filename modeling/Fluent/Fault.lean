import Fluent.Token
import Fluent.Text.Escape

/-!
# Faults

Why a piece of a source is junk. A fault is a cause, with the place it was noticed at; its wording is
in `Expected.text`, `Found.text` and `Fault.message`.
-/

namespace Fluent

/-- What the grammar asks for where something else stands. -/
inductive Expected where
  | entryOrComment
  | entryName
  | equals
  | value
  | termValue
  | messageContent
  | attributeName
  | attributeValue
  | patternPart
  | entryEnd
  | openBrace
  | closeBrace
  | selector
  | termAsValue
  | expression
  | number
  | variableName
  | termName
  | accessorName
  | functionName
  | openParen
  | argumentEnd
  | uniqueArgument
  | namedArgument
  | closeParen
  | variants
  | defaultVariant
  | oneDefaultVariant
  | openBracket
  | variantKey
  | closeBracket
  | variantValue
  deriving DecidableEq, Repr

namespace Expected

def text : Expected → String
  | entryOrComment => "an entry or a comment"
  | entryName => "an identifier"
  | equals => "`=`"
  | value => "a value"
  | termValue => "a value for the term"
  | messageContent => "a value or an attribute"
  | attributeName => "an attribute name"
  | attributeValue => "a value for the attribute"
  | patternPart => "text, a placeable or the end of the value"
  | entryEnd => "the end of the entry"
  | openBrace => r"`{`"
  | closeBrace => r"`}`"
  | selector => "a selector (a literal, a variable, a term or a function call)"
  | termAsValue => "a term value (term attributes can only be used as selectors)"
  | expression => "an expression"
  | number => "a number"
  | variableName => "a variable name after `$`"
  | termName => "a term name after `-`"
  | accessorName => "an attribute name after `.`"
  | functionName => "an upper-case function name"
  | openParen => "`(`"
  | argumentEnd => "`,` or `)`"
  | uniqueArgument => "a unique argument name"
  | namedArgument => "a named argument (positional arguments come first)"
  | closeParen => "`)`"
  | variants => "a variant"
  | defaultVariant => "a default variant marked with `*`"
  | oneDefaultVariant => "only one default variant"
  | openBracket => "`[`"
  | variantKey => "a variant key"
  | closeBracket => "`]`"
  | variantValue => "a value for the variant"

end Expected

/-- What stands where the grammar asks for something else. -/
inductive Found where
  | token (t : Token)
  | endOfInput
  | nothing
  /-- An expression of the wrong kind. -/
  | kind (name : String)
  | termAttribute
  /-- A name or number as it is written. -/
  | raw (text : String)
  | repeatedArgument (name : String)
  | noDefault
  | secondDefault
  deriving DecidableEq, Repr

namespace Found

def text : Found → String
  | token t => t.describe
  | endOfInput => "end of input"
  | nothing => "nothing"
  | kind name => name
  | termAttribute => "a term attribute"
  | raw text => "`" ++ text ++ "`"
  | repeatedArgument name => "repeated argument `" ++ name ++ "`"
  | noDefault => "no default variant"
  | secondDefault => "a second default variant"

end Found

inductive Fault where
  /-- The grammar asks for something else at this offset. -/
  | unexpected (position : Nat) (expected : Expected) (found : Found)
  /-- Lines that open neither a comment nor an entry. -/
  | unfinishedLine (span : Span)
  /-- A string literal without its closing quote. -/
  | unterminatedString (span : Span)
  /-- A backslash that begins no escape. -/
  | invalidEscape (span : Span) (raw : String)
  /-- An id that an earlier entry has, or an attribute that its entry repeats. -/
  | duplicateId (span : Span) (id : String)
  deriving DecidableEq, Repr

namespace Fault

/-- A stable name for the kind of fault. -/
def code : Fault → String
  | unexpected .. => "syntax"
  | unfinishedLine _ => "unfinished-line"
  | unterminatedString _ => "unterminated-string"
  | invalidEscape .. => "invalid-escape"
  | duplicateId .. => "duplicate-id"

def message : Fault → String
  | unexpected _ expected found => "expected " ++ expected.text ++ ", found " ++ found.text
  | unfinishedLine _ => "unexpected content outside of an entry"
  | unterminatedString _ => "unterminated string literal"
  | invalidEscape _ raw => "invalid escape sequence `" ++ raw ++ "`"
  | duplicateId _ id => "duplicate id `" ++ id ++ "`"

/-- Where the fault is; nothing that was expected has an extent. -/
def span : Fault → Span
  | unexpected position .. => .at position
  | unfinishedLine span | unterminatedString span | invalidEscape span _ | duplicateId span _ => span

/-- The fault of a string literal with a bad escape. -/
def ofBadEscape (e : Text.BadEscape) : Fault := .invalidEscape e.span (String.ofList e.raw)

end Fault

end Fluent
