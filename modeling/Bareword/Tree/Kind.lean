import Bareword.Text.Basic

/-! # Kinds of tree nodes -/

namespace Bareword.Tree
set_option autoImplicit false

inductive Kind where
  | error
  | program
  | number
  | boolean
  | regex
  | string
  | stringFragment
  | word
  | wordFragment
  | escape
  | interpolation
  | identifier
  | assignable
  | dotGet
  | binOp
  | conditionalOp
  | assign
  | parenExpr
  | pipeExpr
  | functionDef
  | params
  | functionCall
  | callOrIdentifier
  | positionalArg
  | namedArg
  | argName
  | ifExpr
  | elsifExpr
  | elseExpr
  | thenBlock
  | keyword
  | operator
  | colon
  /-- A kind without a name. -/
  | other (code : UInt8)
  deriving DecidableEq, Repr, Inhabited

namespace Kind

/-- All kinds that have a name. -/
def all : List Kind :=
  [.error, .program, .number, .boolean, .regex, .string, .stringFragment, .word, .wordFragment,
    .escape, .interpolation, .identifier, .assignable, .dotGet, .binOp, .conditionalOp, .assign,
    .parenExpr, .pipeExpr, .functionDef, .params, .functionCall, .callOrIdentifier,
    .positionalArg, .namedArg, .argName, .ifExpr, .elsifExpr, .elseExpr, .thenBlock, .keyword,
    .operator, .colon]

def name : Kind → String
  | .error => "⚠"
  | .program => "Program"
  | .number => "Number"
  | .boolean => "Boolean"
  | .regex => "Regex"
  | .string => "String"
  | .stringFragment => "StringFragment"
  | .word => "Word"
  | .wordFragment => "WordFragment"
  | .escape => "EscapeSeq"
  | .interpolation => "Interpolation"
  | .identifier => "Identifier"
  | .assignable => "AssignableIdentifier"
  | .dotGet => "DotGet"
  | .binOp => "BinOp"
  | .conditionalOp => "ConditionalOp"
  | .assign => "Assign"
  | .parenExpr => "ParenExpr"
  | .pipeExpr => "PipeExpr"
  | .functionDef => "FunctionDef"
  | .params => "Params"
  | .functionCall => "FunctionCall"
  | .callOrIdentifier => "FunctionCallOrIdentifier"
  | .positionalArg => "PositionalArg"
  | .namedArg => "NamedArg"
  | .argName => "NamedArgPrefix"
  | .ifExpr => "IfExpr"
  | .elsifExpr => "ElsifExpr"
  | .elseExpr => "ElseExpr"
  | .thenBlock => "ThenBlock"
  | .keyword => "keyword"
  | .operator => "operator"
  | .colon => "colon"
  | .other _ => "Unknown"

def ofName? (s : String) : Option Kind := all.find? (·.name == s)

def text (k : Kind) : Text := Text.ofString k.name

/-- Keyword and colon leaves only punctuate. -/
def isPunctuation : Kind → Bool
  | .keyword | .colon => true
  | _ => false

end Kind
end Bareword.Tree
