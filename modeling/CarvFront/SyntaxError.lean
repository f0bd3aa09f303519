import CarvFront.Source
import CarvFront.Token.Basic
import CarvFront.Diagnostic.Log

/-! What can be wrong with the form of a program, and how it is reported. -/
namespace CarvFront

/-- What the grammar wanted at a place. -/
inductive Expectation where
  | token (kind : Kind)
  | identifier
  | memberName
  | stringLiteral
  | stringEnd
  | type
  | expression
  | classItem
deriving DecidableEq

/-- How a message names what was wanted. -/
def Expectation.text : Expectation → String
  | .token k => "'" ++ k.text ++ "'"
  | .identifier => "identifier"
  | .memberName => "member name"
  | .stringLiteral => "string literal"
  | .stringEnd => "end of interpolated string"
  | .type => "type"
  | .expression => "expression"
  | .classItem => "field or method in class body"

/-- How deep expressions, types and blocks may nest. -/
def maxNesting : Nat := 64

/-- A fault in the form of a program. -/
inductive SyntaxError where
  | unexpectedChar (c : Char)
  | integerRange (digits : String)
  | emptyChar
  | unterminatedChar
  | unterminatedString
  | unterminatedHole
  | unterminatedComment
  | invalidEscape (c : Char)
  | escapeAtEnd
  | expected (what : Expectation) (got : Kind)
  | nestingLimit
deriving DecidableEq

namespace SyntaxError

def code : SyntaxError → Code
  | .unexpectedChar _ | .integerRange _ | .emptyChar | .invalidEscape _ | .expected _ _ =>
    .unexpectedToken
  | .unterminatedChar | .unterminatedString | .unterminatedHole | .unterminatedComment
  | .escapeAtEnd => .unterminatedLiteral
  | .nestingLimit => .nestingLimit

def message : SyntaxError → String
  | .unexpectedChar c => "unexpected character '" ++ c.toString ++ "'"
  | .integerRange digits => "integer literal '" ++ digits ++ "' is out of range"
  | .emptyChar => "empty character literal"
  | .unterminatedChar => "unterminated character literal"
  | .unterminatedString => "unterminated string literal"
  | .unterminatedHole => "unterminated string interpolation"
  | .unterminatedComment => "unterminated block comment"
  | .invalidEscape c => "invalid escape sequence '\\" ++ c.toString ++ "'"
  | .escapeAtEnd => "unexpected end of file in escape sequence"
  | .expected what got => "expected " ++ what.text ++ ", got '" ++ got.text ++ "'"
  | .nestingLimit => "maximum nesting depth is " ++ toString maxNesting

/-- Advice that comes with the message. -/
def suggestion : SyntaxError → Option String
  | .unterminatedChar => some "a character literal holds exactly one character, e.g. 'a'"
  | _ => none

end SyntaxError

/-- A syntax error and where it was found. -/
structure Fault where
  error : SyntaxError
  span : Span
deriving DecidableEq

/-- The diagnostic of a fault in `source`. It shows the line on which the fault starts. -/
def Fault.diagnostic (source : Source) (f : Fault) : Diagnostic where
  file := source.name
  code := f.error.code
  severity := .error
  message := f.error.message
  span := f.span
  sourceLine := (source.line? f.span.start.line).getD ""
  suggestion := f.error.suggestion

/-- The log of a list of faults. -/
def Log.ofFaults (source : Source) (fs : List Fault) : Log :=
  (fs.map (Fault.diagnostic source)).foldl Log.pushError .empty

end CarvFront
