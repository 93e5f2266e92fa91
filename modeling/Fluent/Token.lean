import Fluent.Text.Quoted
import Fluent.Source.Place
import Fluent.Source.Line

/-!
# Tokens

The same characters are text in one place of a source and structure in another, and whether a line
goes on with a value depends on its indentation. A token stream has all of that settled: *markers*
stand where layout implies something that is not spelled out, `pureText` holds text whose
indentation is already gone, and `unfinishedLine` covers what fits nowhere.

* `Token.describe`: how an error message names a token.
* `Lexeme.listing`: a stream written one token per line.
-/

namespace Fluent

inductive Token where
  /-- A value begins. -/
  | patternStart
  /-- A value ends. -/
  | patternEnd
  /-- Nothing follows where a value could. -/
  | patternSkip
  /-- A run of pattern text, its line breaks and indentation settled. -/
  | pureText (text : String)
  /-- One or more blank lines between entries. -/
  | blankLines
  /-- Text that belongs nowhere, up to the end of its line. -/
  | unfinishedLine
  /-- A comment line without its hashes and the space after them. -/
  | comment (level : CommentLevel) (content : String)
  /-- A run of comment lines of one level ends. -/
  | closeComment
  /-- The positional arguments of a call end. -/
  | endPositional
  | identifier (name : String)
  | number (raw : String)
  /-- What stands between the quotes, escapes and all. -/
  | string (raw : String)
  /-- A string literal whose line ends before its closing quote. -/
  | unterminatedString (raw : String)
  | minus
  | equals
  | dot
  | arrow
  | star
  | dollar
  | comma
  | colon
  | openBrace
  | closeBrace
  | openBracket
  | closeBracket
  | openParen
  | closeParen
  /-- A character that has no meaning in an expression. -/
  | unknown (char : Char)
  deriving DecidableEq, Repr, Inhabited

namespace Token

/-- A token that layout implies: it takes no source text. -/
def isMarker : Token → Bool
  | patternStart | patternEnd | patternSkip | closeComment | endPositional => true
  | _ => false

/-- A token that begins an entry, a comment or a stray line when it stands at a line start. -/
def startsItem : Token → Bool
  | identifier _ | minus | comment .. | blankLines | unfinishedLine => true
  | _ => false

/-- The first token of a message or a term. -/
def opensEntry : Token → Bool
  | identifier _ | minus => true
  | _ => false

/-- The name of the kind of token. -/
def kind : Token → String
  | patternStart => "PatternStart"
  | patternEnd => "PatternEnd"
  | patternSkip => "PatternSkip"
  | pureText _ => "PureText"
  | blankLines => "BlankLines"
  | unfinishedLine => "UnfinishedLine"
  | comment .. => "Comment"
  | closeComment => "CloseCommentBlock"
  | endPositional => "EndPositionalArgs"
  | identifier _ => "Identifier"
  | number _ => "Number"
  | string _ => "StringLiteral"
  | unterminatedString _ => "UnterminatedString"
  | minus => "Minus"
  | equals => "Equals"
  | dot => "Dot"
  | arrow => "Arrow"
  | star => "Star"
  | dollar => "Dollar"
  | comma => "Comma"
  | colon => "Colon"
  | openBrace => "OpenBrace"
  | closeBrace => "CloseBrace"
  | openBracket => "OpenBracket"
  | closeBracket => "CloseBracket"
  | openParen => "OpenParen"
  | closeParen => "CloseParen"
  | unknown _ => "Unknown"

/-- How an error message names the token. -/
def describe : Token → String
  | patternStart => "start of a value"
  | patternEnd => "end of a value"
  | patternSkip => "missing value"
  | pureText text => "text " ++ Text.quote text
  | blankLines => "blank line"
  | unfinishedLine => "unexpected line"
  | comment level _ => "`" ++ level.sigil ++ "` comment"
  | closeComment => "end of comment"
  | endPositional => "end of positional arguments"
  | identifier name => "identifier `" ++ name ++ "`"
  | number raw => "number `" ++ raw ++ "`"
  | string raw => "string \"" ++ raw ++ "\""
  | unterminatedString raw => "unterminated string \"" ++ raw
  | minus => "`-`"
  | equals => "`=`"
  | dot => "`.`"
  | arrow => "`->`"
  | star => "`*`"
  | dollar => "`$`"
  | comma => "`,`"
  | colon => "`:`"
  | openBrace => r"`{`"
  | closeBrace => r"`}`"
  | openBracket => "`[`"
  | closeBracket => "`]`"
  | openParen => "`(`"
  | closeParen => "`)`"
  | unknown c => "unexpected character " ++ Text.quoteChar c

/-- What a listing shows after the span of the token. -/
def payload : Token → String
  | pureText text | identifier text | number text | string text | unterminatedString text =>
    " " ++ Text.quote text
  | comment level content => " " ++ level.sigil ++ " " ++ Text.quote content
  | unknown c => " " ++ Text.quoteChar c
  | _ => ""

end Token

/-- A token and the source text it stands for. -/
structure Lexeme where
  token : Token
  span : Span
  deriving DecidableEq, Repr, Inhabited

namespace Lexeme

/-- `kind@start..stop payload`. -/
def line (l : Lexeme) : String :=
  s!"{l.token.kind}@{l.span.start}..{l.span.stop}" ++ l.token.payload ++ "\n"

/-- A token stream, one token per line. -/
def listing (ls : List Lexeme) : String := String.join (ls.map line)

end Lexeme

end Fluent
