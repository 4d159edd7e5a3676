import Bareword.Text.Basic

/-! # Fault codes

Every fault that a program can meet has a code: codes that start with `E1` belong to reading a
source, those with `E2` to compiling it and those with `E3` to running it.
-/

namespace Bareword.Report
set_option autoImplicit false

/-- The codes, by what they stand for. -/
inductive Code where
  | unexpectedToken
  | unterminatedString
  | missingExpression
  | missingColon
  | missingEnd
  | unclosedParen
  | missingProperty
  | missingArgValue
  | nestedTooDeep
  | tooManyFaults
  | unknownNode
  | badRegex
  | badNumber
  | badPipe
  | badLabel
  | typeMismatch
  | divisionByZero
  | notCallable
  | unknownArg
  | stackUnderflow
  | stackOverflow
  | invalidOperation
  | cancelled
  deriving DecidableEq, Repr

namespace Code

def all : List Code :=
  [.unexpectedToken, .unterminatedString, .missingExpression, .missingColon, .missingEnd,
    .unclosedParen, .missingProperty, .missingArgValue, .nestedTooDeep, .tooManyFaults,
    .unknownNode, .badRegex, .badNumber, .badPipe, .badLabel, .typeMismatch, .divisionByZero,
    .notCallable, .unknownArg, .stackUnderflow, .stackOverflow, .invalidOperation, .cancelled]

def id : Code → String
  | .unexpectedToken => "E1001"
  | .unterminatedString => "E1002"
  | .missingExpression => "E1003"
  | .missingColon => "E1004"
  | .missingEnd => "E1005"
  | .unclosedParen => "E1006"
  | .missingProperty => "E1007"
  | .missingArgValue => "E1008"
  | .nestedTooDeep => "E1009"
  | .tooManyFaults => "E1010"
  | .unknownNode => "E2001"
  | .badRegex => "E2002"
  | .badNumber => "E2003"
  | .badPipe => "E2004"
  | .badLabel => "E2005"
  | .typeMismatch => "E3001"
  | .divisionByZero => "E3002"
  | .notCallable => "E3003"
  | .unknownArg => "E3004"
  | .stackUnderflow => "E3005"
  | .stackOverflow => "E3006"
  | .invalidOperation => "E3007"
  | .cancelled => "E3008"

/-- The code as a text. -/
def text (c : Code) : Text := Text.ofString c.id

def summary : Code → String
  | .unexpectedToken => "unexpected token"
  | .unterminatedString => "unterminated string literal"
  | .missingExpression => "missing expression"
  | .missingColon => "missing colon"
  | .missingEnd => "missing end"
  | .unclosedParen => "unclosed parenthesis"
  | .missingProperty => "expected property name"
  | .missingArgValue => "missing argument value"
  | .nestedTooDeep => "maximum nesting depth exceeded"
  | .tooManyFaults => "too many errors"
  | .unknownNode => "unrecognized syntax node"
  | .badRegex => "invalid regular expression"
  | .badNumber => "invalid number literal"
  | .badPipe => "invalid pipe receiver"
  | .badLabel => "unresolved label"
  | .typeMismatch => "type error"
  | .divisionByZero => "division by zero"
  | .notCallable => "not callable"
  | .unknownArg => "unknown argument"
  | .stackUnderflow => "stack underflow"
  | .stackOverflow => "stack overflow"
  | .invalidOperation => "invalid operation"
  | .cancelled => "cancelled"

/-- A few words on a code that is given by its text. -/
def summaryOf (t : Text) : String :=
  match all.find? (·.text == t) with
  | some c => c.summary
  | none => "unknown error"

/-- The stage that a code belongs to, read off its second character. -/
def categoryOf (t : Text) : String :=
  match t[1]? with
  | none => "unknown"
  | some b =>
    if b = Text.byte '1' then "syntax"
    else if b = Text.byte '2' then "compile"
    else if b = Text.byte '3' then "runtime"
    else "unknown"

end Code
end Bareword.Report
