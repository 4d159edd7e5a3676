import Bareword.Report.Fault
import Bareword.Text.Quoted
import Bareword.Token.Memo
import Bareword.Tree.Basic

/-! # The state of a parse

What a parse is given, what it keeps, and the steps that its productions are made of.

* `Parsing.Setup`: the source and the options.
* `Parsing.Complaint`: why a part of the source does not fit the grammar.
* `Parsing.State`: the offset, the scope, the faults and the tokens so far.
* `peek`, `shift`, `advance`, `reduce`: look at a token, consume it, complete a node.
* `complain`, `missing`, `unexpected`, `skipStatement`: the ways to make an error node.
* `restore`: give up an attempt.
-/

namespace Bareword.Tree.Parsing
set_option autoImplicit false
open Token (KindSet Memo)
open Scope (Context)
open Report (Code SyntaxFault)

/-! ## What a parse is given -/

/-- What a parse remembers. Neither choice changes what it answers. -/
structure Policy where
  /-- Whether scanned tokens are remembered. -/
  memoize : Bool
  /-- Whether an attempt that is given up leaves its scopes in the arena. -/
  keepScopes : Bool
  deriving DecidableEq, Repr

/-- Tokens are remembered and scopes are kept. -/
def Policy.standard : Policy := ⟨true, true⟩

/-- Nothing is remembered and nothing is kept. -/
def Policy.plain : Policy := ⟨false, false⟩

/-- How many faults are recorded before a parse stops. -/
def maxFaults : Nat := 10

/-- How deep operands may nest unless it is said otherwise. -/
def defaultDepth : Int := 500

/-- The source and the options of a parse. -/
structure Setup where
  src : Text
  filename : Text := []
  maxDepth : Int := defaultDepth
  /-- The names that are commands, when there is a table of them. -/
  isCommand : Option (Text → Bool) := none
  /-- Whether the parse was called off before it began. -/
  cancelled : Bool := false
  /-- What is said of a parse that was called off. -/
  reason : Text := Report.calledOff
  /-- How often a parse looks whether it was called off before it finds that it was. -/
  patience : Option Nat := none
  hasher : Digest.Hasher := Digest.fingerprint
  policy : Policy := .standard

/-- Whether the parse was called off by the time of its `n`th look; the first look has number zero. -/
def Setup.isOff (setup : Setup) (n : Nat) : Bool := setup.cancelled || setup.patience.any (· ≤ n)

/-! ## Complaints -/

/-- A token in the words of a message. -/
def describe (tok : Token) : Text :=
  match tok.kind with
  | .eof => "end of input"
  | .newline => "newline"
  | kind => if kind.isKeyword then "keyword " ++ Text.quoted tok.text else Text.quoted tok.text

/-- Why a part of the source does not fit the grammar. -/
inductive Complaint where
  | unexpected (tok : Token)
  | noEquals
  | badParameter (tok : Token)
  | unterminatedString
  | noExpression
  | noColon
  | noEnd
  | noCloseParen
  | noProperty
  | noArgValue (argName : Text)
  | tooDeep
  | stopped
  | cancelled (reason : Text)
  deriving DecidableEq, Repr

namespace Complaint

/-- The code of a complaint; a parse that was called off has none. -/
def code : Complaint → Text
  | .unexpected _ | .noEquals | .badParameter _ => Code.unexpectedToken.text
  | .unterminatedString => Code.unterminatedString.text
  | .noExpression => Code.missingExpression.text
  | .noColon => Code.missingColon.text
  | .noEnd => Code.missingEnd.text
  | .noCloseParen => Code.unclosedParen.text
  | .noProperty => Code.missingProperty.text
  | .noArgValue _ => Code.missingArgValue.text
  | .tooDeep => Code.nestedTooDeep.text
  | .stopped => Code.tooManyFaults.text
  | .cancelled _ => []

def message : Complaint → Text
  | .unexpected tok => "unexpected " ++ describe tok
  | .noEquals => "expected '='"
  | .badParameter tok => "invalid parameter name " ++ describe tok
  | .unterminatedString => "unterminated string"
  | .noExpression => "expected expression"
  | .noColon => "expected ':'"
  | .noEnd => "expected 'end'"
  | .noCloseParen => "expected ')'"
  | .noProperty => "expected a property name after '.'"
  | .noArgValue argName => "expected a value for " ++ argName
  | .tooDeep => "maximum nesting depth exceeded"
  | .stopped => "parsing stopped"
  | .cancelled reason => reason

end Complaint

/-! ## The state -/

/-- What a parse keeps. -/
structure State where
  /-- The offset just past the last consumed token. -/
  pos : Nat
  scope : Context
  /-- The number of enclosing parentheses; inside them line feeds do not end statements. -/
  parens : Nat
  /-- The number of operands being parsed. -/
  depth : Nat
  faults : List SyntaxFault
  /-- Whether the parse has stopped. -/
  halted : Bool
  /-- The consumed tokens, the last one first. -/
  consumed : List Token
  memo : Memo
  /-- How often it was looked whether the parse was called off. -/
  looks : Nat
  deriving Inhabited

/-- The state before anything is read. -/
def State.start (setup : Setup) : State :=
  { pos := 0, scope := Context.new setup.hasher, parens := 0, depth := 0, faults := [],
    halted := false, consumed := [], memo := .empty, looks := 0 }

/-- A step of a parse. -/
abbrev Parse := StateM State

/-- The next token, which is not consumed. -/
def peek (setup : Setup) (accept : KindSet) : Parse Token := modifyGet fun s =>
  let accept := if 0 < s.parens then accept.eraseAll [.newline] else accept
  if setup.policy.memoize then
    let (tok, memo) := s.memo.next setup.src s.pos accept (some s.scope)
    (tok, { s with memo })
  else (Token.scan setup.src s.pos accept (some s.scope.has), s)

/-- Consumes a token. -/
def shift (tok : Token) : Parse Unit := modify fun s =>
  { s with
    pos := tok.stop
    scope := s.scope.shift tok.kind tok.text
    consumed := tok :: s.consumed }

/-- Consumes a piece of a string or of a word. -/
def advance (tok : Token) : Parse Unit := modify fun s =>
  { s with pos := tok.stop, consumed := tok :: s.consumed }

def moveTo (pos : Nat) : Parse Unit := modify fun s => { s with pos }

/-- Completes a node. -/
def reduce (setup : Setup) (kind : Kind) : Parse Unit := modify fun s =>
  { s with scope := s.scope.reduce setup.hasher kind }

/-- Gives up what was done since `mark`. Without scopes to keep, nothing but the looks is left of it. -/
def restore (setup : Setup) (mark : State) : Parse Unit := modify fun s =>
  if setup.policy.keepScopes then
    { s with
      pos := mark.pos
      scope := mark.scope.rewind s.scope
      faults := mark.faults
      halted := mark.halted
      consumed := mark.consumed }
  else { mark with looks := s.looks }

/-! ## Error nodes -/

/-- Records a fault and answers with its error node. -/
def complain (setup : Setup) (c : Complaint) (span : Span) : Parse Node := modifyGet fun s =>
  let faults :=
    if s.faults.length < maxFaults then
      s.faults ++ [SyntaxFault.ofSpan setup.filename setup.src span c.code c.message]
    else s.faults
  (Node.fault c.code span (span.text setup.src) c.message,
    { s with faults, halted := s.halted || maxFaults ≤ faults.length })

/-- The error node of something that is absent at the current offset. -/
def missing (setup : Setup) (c : Complaint) : Parse Node := do
  let s ← get
  complain setup c (.point (Token.skipBlank setup.src s.pos (s.parens == 0)))

/-- Consumes a token as an error node. -/
def unexpected (setup : Setup) (tok : Token) : Parse Node := do
  moveTo tok.stop
  complain setup (.unexpected tok) tok.span

/-- The number of bytes before the next statement boundary, `depth` parentheses deep. -/
def statementLength (inParens : Bool) (depth : Nat) : Text → Nat
  | [] => 0
  | b :: rest =>
    if b = Text.byte '(' then statementLength inParens (depth + 1) rest + 1
    else if b = Text.byte ')' then
      if 0 < depth then statementLength inParens (depth - 1) rest + 1
      else if inParens then 0
      else statementLength inParens 0 rest + 1
    else if b = Text.byte ';' ∧ depth = 0 then 0
    else if b = Text.byte '\n' ∧ depth = 0 ∧ inParens = false then 0
    else statementLength inParens depth rest + 1

/-- A blank that does not end a line. -/
def isBlank (b : UInt8) : Bool :=
  b == Text.byte ' ' || b == Text.byte '\t' || b == Text.byte '\r'

/-- The range that `skipStatement` consumes: up to the next boundary, at least one rune, and
without the blanks at its end. -/
def skipRange (src : Text) (pos parens : Nat) : Nat × Nat :=
  let start := Token.skipBlank src pos (parens == 0)
  let s := src.drop start
  let n :=
    match statementLength (0 < parens) 0 s, Text.next? s with
    | 0, some (r, _) => r.width
    | n, _ => n
  (start, start + (Text.trimEnd isBlank (s.take n)).length)

/-- Consumes everything up to the next statement boundary as one error node. -/
def skipStatement (setup : Setup) (c : Complaint) : Parse Node := do
  let s ← get
  let (start, stop) := skipRange setup.src s.pos s.parens
  moveTo stop
  complain setup c ⟨start, stop⟩

/-- Whether the parse was called off; the first time this is noticed it is recorded. -/
def calledOff (setup : Setup) : Parse Bool := do
  let s ← get
  set { s with looks := s.looks + 1 }
  if setup.isOff s.looks then
    unless s.halted do
      let _ ← complain setup (.cancelled setup.reason) (.point (Token.skipBlank setup.src s.pos false))
      modify fun s => { s with halted := true }
    return true
  else return false

end Bareword.Tree.Parsing
