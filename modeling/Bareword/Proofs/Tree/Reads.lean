import Bareword.Proofs.Scope.Names
import Bareword.Proofs.Token.Pieces
import Bareword.Tree.Grammar

/-! # What the productions read

The grammar as a relation between what is left of the source and what becomes of it, without fuel, memo
or arena. Every rule is one way through a production.

* `Snapshot`: what matters of the state of a parse.
* `Looks`: the token that is seen next.
* `Production`, `Production.Answer`: the productions and what they answer.
* `Reads`: from one snapshot to another a production reads its answer.

A look is only `exact` if the names that it is made with are those that are bound; a look of a parse
that remembers tokens may be that of other names, if their fingerprints collide.
-/

namespace Bareword.Tree.Grammar
set_option autoImplicit false
open Token (KindSet)
open Scope (Names)
open Report (SyntaxFault)
open Parsing

/-! ## Snapshots -/

/-- What matters of the state of a parse. -/
structure Snapshot where
  pos : Nat
  names : Names
  parens : Nat
  depth : Nat
  faults : List SyntaxFault
  halted : Bool
  consumed : List Token
  looks : Nat

/-- What matters of a state. -/
def view (s : State) : Snapshot :=
  ⟨s.pos, s.scope.names, s.parens, s.depth, s.faults, s.halted, s.consumed, s.looks⟩

/-- The error node of a complaint. -/
def faultNode (setup : Setup) (c : Complaint) (span : Span) : Node :=
  .fault c.code span (span.text setup.src) c.message

namespace Snapshot

def shift (s : Snapshot) (tok : Token) : Snapshot :=
  { s with pos := tok.stop, names := s.names.shift tok.kind tok.text, consumed := tok :: s.consumed }

def advance (s : Snapshot) (tok : Token) : Snapshot :=
  { s with pos := tok.stop, consumed := tok :: s.consumed }

def moveTo (s : Snapshot) (pos : Nat) : Snapshot := { s with pos }

def reduce (s : Snapshot) (kind : Kind) : Snapshot := { s with names := s.names.reduce kind }

/-- The faults with one more, unless there are enough of them. -/
def record (setup : Setup) (faults : List SyntaxFault) (c : Complaint) (span : Span) : List SyntaxFault :=
  if faults.length < maxFaults then
    faults ++ [SyntaxFault.ofSpan setup.filename setup.src span c.code c.message]
  else faults

def complain (setup : Setup) (s : Snapshot) (c : Complaint) (span : Span) : Snapshot :=
  { s with
    faults := record setup s.faults c span
    halted := s.halted || maxFaults ≤ (record setup s.faults c span).length }

/-- Where something is absent. -/
def here (setup : Setup) (s : Snapshot) : Span := .point (Token.skipBlank setup.src s.pos (s.parens == 0))

/-- What `skipStatement` covers. -/
def junk (setup : Setup) (s : Snapshot) : Span :=
  ⟨(skipRange setup.src s.pos s.parens).1, (skipRange setup.src s.pos s.parens).2⟩

/-- Past a statement that does not fit. -/
def skip (setup : Setup) (s : Snapshot) (c : Complaint) : Snapshot :=
  (s.moveTo (skipRange setup.src s.pos s.parens).2).complain setup c (s.junk setup)

/-- After one more look whether the parse was called off. -/
def count (s : Snapshot) : Snapshot := { s with looks := s.looks + 1 }

/-- When it is found that the parse was called off. -/
def callOff (setup : Setup) (s : Snapshot) : Snapshot :=
  { s.count.complain setup (.cancelled setup.reason) (.point (Token.skipBlank setup.src s.pos false)) with halted := true }

def deepen (s : Snapshot) : Snapshot := { s with depth := s.depth + 1 }

def enter (s : Snapshot) : Snapshot := { s with parens := s.parens + 1 }

def leave (s : Snapshot) : Snapshot := { s with parens := s.parens - 1 }

def withParens (s : Snapshot) (parens : Nat) : Snapshot := { s with parens }

def withDepth (s : Snapshot) (depth : Nat) : Snapshot := { s with depth }

/-- As it was, but for the looks that were made since. -/
def back (s : Snapshot) (looks : Nat) : Snapshot := { s with looks }

end Snapshot

/-! ## Productions without recursion -/

section
variable (setup : Setup) (exact : Prop)

/-- What the scanner is told to accept: line ends do not count inside parentheses. -/
def Snapshot.accepted (s : Snapshot) (accept : KindSet) : KindSet :=
  if 0 < s.parens then accept.eraseAll [.newline] else accept

/-- The next token, if the kinds in `accept` are expected. -/
def Looks (s : Snapshot) (accept : KindSet) (tok : Token) : Prop :=
  ∃ bound, (∀ t, bound t = true → Token.Bindable t) ∧ (exact → bound = s.names.has) ∧
    tok = Token.scan setup.src s.pos (s.accepted accept) (some bound)

/-- The next token, if an expression may start here. -/
def Held (s : Snapshot) (tok : Token) : Prop :=
  ∃ accept, (accept.has .word = true → accept.has .beforeDot = true) ∧ Looks setup exact s accept tok

/-- A token of a kind that has to stand here, or its absence. -/
inductive Expects (s : Snapshot) (accept : KindSet) (k : Token.Kind) (leaf : Kind) (c : Complaint) :
    Node → Snapshot → Prop where
  | found {tok : Token} (hlook : Looks setup exact s accept tok) (hk : tok.kind = k) :
      Expects s accept k leaf c (.leaf leaf tok) (s.shift tok)
  | absent {tok : Token} (hlook : Looks setup exact s accept tok) (hk : tok.kind ≠ k) :
      Expects s accept k leaf c (faultNode setup c (s.here setup)) (s.complain setup c (s.here setup))

/-- The colon that introduces a body. -/
abbrev Colon (s : Snapshot) : Node → Snapshot → Prop :=
  Expects setup exact s (.of [.colon, .newline]) .colon .colon .noColon

/-- Whether a statement may end before a token. -/
def endsBefore (stop : KindSet) (parens : Nat) (k : Token.Kind) : Prop :=
  k = .eof ∨ k = .newline ∨ k = .semicolon ∨ stop.has k = true ∨ (k = .closeParen ∧ 0 < parens)

inductive EndStatement (s : Snapshot) (stop : KindSet) : Option Node → Snapshot → Prop where
  | clean {tok : Token} (hlook : Looks setup exact s (separators ∪ stop) tok)
      (hends : endsBefore stop s.parens tok.kind) : EndStatement s stop none s
  | junk {tok : Token} (hlook : Looks setup exact s (separators ∪ stop) tok)
      (hends : ¬ endsBefore stop s.parens tok.kind) :
      EndStatement s stop (some (faultNode setup (.unexpected tok) (s.junk setup))) (s.skip setup (.unexpected tok))

/-- What is accepted where a construct may be closed with `end`. -/
def endStart (block : Bool) : KindSet := .of (if block then [.kwEnd] else [.kwEnd, .newline, .semicolon])

inductive CloseBody (s : Snapshot) (node : Node) (block : Bool) : Node → Snapshot → Prop where
  | closed {tok : Token} (hlook : Looks setup exact s (endStart block) tok) (hk : tok.kind = .kwEnd) :
      CloseBody s node block (node.push (.leaf .keyword tok)) (s.shift tok)
  | missing {tok : Token} (hlook : Looks setup exact s (endStart block) tok) (hk : tok.kind ≠ .kwEnd)
      (hblock : block = true) :
      CloseBody s node block (node.push (faultNode setup .noEnd (s.here setup))) (s.complain setup .noEnd (s.here setup))
  | without {tok : Token} (hlook : Looks setup exact s (endStart block) tok) (hk : tok.kind ≠ .kwEnd)
      (hblock : block = false) : CloseBody s node block node s

def blockNode (pos : Nat) (stmts : List Node) : Node :=
  if stmts.isEmpty then { kind := .thenBlock, span := .point pos } else .branch .thenBlock stmts

def loneName (names : Names) (id : Node) : Node :=
  let isCall :=
    match setup.isCommand with
    | none => false
    | some isCommand => !names.has id.text && isCommand id.text
  .branch (if isCall then .functionCall else .callOrIdentifier) [id]

/-- Past a dot, if there is one. -/
def Snapshot.pastDot (s : Snapshot) (dot : Token) : Snapshot := if dot.kind = .dot then s.shift dot else s

inductive DotGet (s : Snapshot) (tok : Token) : Node → Snapshot → Prop where
  | found {dot prop : Token} (hdot : Looks setup exact (s.shift tok) (.of [.dot]) dot)
      (hprop : Looks setup exact ((s.shift tok).pastDot dot) (.of [.identifier]) prop)
      (hk : prop.kind = .identifier) (hstart : prop.start = ((s.shift tok).pastDot dot).pos) :
      DotGet s tok ((Node.branch .dotGet [.leaf .identifier tok]).push (.leaf .identifier prop))
        (((s.shift tok).pastDot dot).shift prop)
  | absent {dot prop : Token} (hdot : Looks setup exact (s.shift tok) (.of [.dot]) dot)
      (hprop : Looks setup exact ((s.shift tok).pastDot dot) (.of [.identifier]) prop)
      (hk : ¬ (prop.kind = .identifier ∧ prop.start = ((s.shift tok).pastDot dot).pos)) :
      DotGet s tok
        ((Node.branch .dotGet [.leaf .identifier tok]).push
          (faultNode setup .noProperty (((s.shift tok).pastDot dot).here setup)))
        (((s.shift tok).pastDot dot).complain setup .noProperty (((s.shift tok).pastDot dot).here setup))

inductive Params : Snapshot → Node → Node → Snapshot → Prop where
  | name {s t : Snapshot} {node list : Node} {tok : Token}
      (hlook : Looks setup exact s (.of [.identifier, .colon, .newline]) tok) (hk : tok.kind = .identifier)
      (hrest : Params (s.shift tok) (node.push (.leaf .identifier tok)) list t) : Params s node list t
  | bad {s t : Snapshot} {node list : Node} {tok : Token}
      (hlook : Looks setup exact s (.of [.identifier, .colon, .newline]) tok) (hk : tok.kind = .illegal)
      (hrest : Params ((s.complain setup (.badParameter tok) tok.span).moveTo tok.stop)
        (node.push (faultNode setup (.badParameter tok) tok.span)) list t) : Params s node list t
  | done {s : Snapshot} {node : Node} {tok : Token}
      (hlook : Looks setup exact s (.of [.identifier, .colon, .newline]) tok) (hname : tok.kind ≠ .identifier)
      (hbad : tok.kind ≠ .illegal) : Params s node node s

/-- The parameter list without parameters stands where it would end. -/
def paramList (list : Node) (pos : Nat) : Node := if list.isLeaf then { list with span := .point pos } else list

/-- Whether no blank follows a callee. -/
def glued (id : Node) : Bool :=
  match setup.src.drop id.span.stop.toNat with
  | [] => false
  | b :: _ => !(isBlank b || b == Text.byte '\n')

/-- The parenthesis that closes a group. -/
inductive CloseParen (s : Snapshot) (node : Node) : Node → Snapshot → Prop where
  | closed {tok : Token} (hlook : Looks setup exact s (.of [.closeParen]) tok) (hk : tok.kind = .closeParen) :
      CloseParen s node { node with span := { node.span with stop := tok.stop } } (s.shift tok)
  | missing {tok : Token} (hlook : Looks setup exact s (.of [.closeParen]) tok) (hk : tok.kind ≠ .closeParen) :
      CloseParen s node (node.push (faultNode setup .noCloseParen (s.here setup)))
        (s.complain setup .noCloseParen (s.here setup))

/-- What stands between an expression in parentheses and the closing parenthesis. -/
inductive Junk : Snapshot → Node → Node → Snapshot → Prop where
  | done {s : Snapshot} {node : Node} {tok : Token} (hlook : Looks setup exact s (.of [.closeParen]) tok)
      (hends : tok.kind = .closeParen ∨ tok.kind = .eof ∨ s.halted = true) : Junk s node node s
  | more {s t : Snapshot} {node all : Node} {tok : Token} (hlook : Looks setup exact s (.of [.closeParen]) tok)
      (hends : ¬ (tok.kind = .closeParen ∨ tok.kind = .eof ∨ s.halted = true))
      (hrest : Junk (s.skip setup (.unexpected tok))
        (node.push (faultNode setup (.unexpected tok) (s.junk setup))) all t) : Junk s node all t

end

/-! ## Productions -/

/-- The productions of the grammar, with what they are given. -/
inductive Production where
  | statements (stop : KindSet)
  | statement
  | assign (tok : Token)
  | body (closers : KindSet)
  | inlineBody (closers : KindSet)
  | inlineRest (closers : KindSet)
  | functionDef (tok : Token)
  | ifExpr (tok : Token)
  | branches (node : Node) (block seenElse : Bool)
  | expression
  | stages (node : Node) (tok : Token)
  | binary (minPrec : Nat) (callable : Bool)
  | operators (minPrec : Nat) (left : Node)
  | operand (tok : Token) (callable : Bool)
  | operandBody (tok : Token) (callable : Bool)
  | call (id : Node)
  | args (node : Node) (tok : Token)
  | arg (tok : Token)
  | parenBody (opening : Span)
  | stringPieces (quote : Nat) (node : Node)
  | wordPieces (node : Node)
  | piece (tok : Token)

/-- What a production answers. -/
@[reducible]
def Production.Answer : Production → Type
  | .statements _ => List Node
  | .body _ => List Node × Bool
  | .inlineBody _ => List Node
  | .inlineRest _ => Option (List Node)
  | .operators _ _ => Option Node
  | _ => Node

/-- The kind of leaf that a literal becomes. -/
def literalKind? : Token.Kind → Option Kind
  | .number => some .number
  | .boolean => some .boolean
  | .regex => some .regex
  | _ => none

/-- What a branch of a conditional accepts before it. -/
def branchStart (block seenElse : Bool) : KindSet :=
  .of ([.kwEnd] ++ (if seenElse then [] else [.kwElsif, .kwElse]) ++ (if block then [] else [.newline, .semicolon]))

section
variable (setup : Setup) (exact : Prop)

/-- From a snapshot a production reads its answer up to another snapshot. -/
inductive Reads : (p : Production) → Snapshot → p.Answer → Snapshot → Prop where
  -- Statements.
  | halted {s : Snapshot} {stop : KindSet} (hhalted : s.halted = true) : Reads (.statements stop) s [] s
  | off {s : Snapshot} {stop : KindSet} (hhalted : s.halted = false) (hoff : setup.isOff s.looks = true) :
      Reads (.statements stop) s [] (s.callOff setup)
  | noMore {s : Snapshot} {stop : KindSet} {tok : Token} (hhalted : s.halted = false)
      (hoff : setup.isOff s.looks = false)
      (hlook : Looks setup exact s.count (stmtStart ∪ separators ∪ stop) tok)
      (hends : tok.kind = .eof ∨ stop.has tok.kind = true) : Reads (.statements stop) s [] s.count
  | separator {s t : Snapshot} {stop : KindSet} {tok : Token} {stmts : List Node} (hhalted : s.halted = false)
      (hoff : setup.isOff s.looks = false)
      (hlook : Looks setup exact s.count (stmtStart ∪ separators ∪ stop) tok)
      (hends : ¬ (tok.kind = .eof ∨ stop.has tok.kind = true))
      (hk : tok.kind = .newline ∨ tok.kind = .semicolon)
      (hrest : Reads (.statements stop) (s.count.shift tok) stmts t) : Reads (.statements stop) s stmts t
  | next {s s₁ s₂ t : Snapshot} {stop : KindSet} {tok : Token} {stmt : Node} {junk : Option Node} {stmts : List Node}
      (hhalted : s.halted = false) (hoff : setup.isOff s.looks = false)
      (hlook : Looks setup exact s.count (stmtStart ∪ separators ∪ stop) tok)
      (hends : ¬ (tok.kind = .eof ∨ stop.has tok.kind = true))
      (hk : ¬ (tok.kind = .newline ∨ tok.kind = .semicolon))
      (hstmt : Reads .statement s.count stmt s₁) (hjunk : EndStatement setup exact s₁ stop junk s₂)
      (hrest : Reads (.statements stop) s₂ stmts t) :
      Reads (.statements stop) s (stmt :: junk.toList ++ stmts) t
  | assignment {s t : Snapshot} {tok : Token} {node : Node} (hlook : Looks setup exact s stmtStart tok)
      (hk : tok.kind = .assignable) (h : Reads (.assign tok) s node t) : Reads .statement s node t
  | noStatement {s : Snapshot} {tok : Token} (hlook : Looks setup exact s stmtStart tok)
      (hassign : tok.kind ≠ .assignable) (hk : stmtStart.has tok.kind = false) :
      Reads .statement s (faultNode setup (.unexpected tok) (s.junk setup)) (s.skip setup (.unexpected tok))
  | evaluate {s t : Snapshot} {tok : Token} {node : Node} (hlook : Looks setup exact s stmtStart tok)
      (hassign : tok.kind ≠ .assignable) (hk : stmtStart.has tok.kind = true)
      (h : Reads .expression s node t) : Reads .statement s node t
  | assign {s s₁ t : Snapshot} {tok : Token} {op value : Node} (hheld : Held setup exact s tok)
      (hk : tok.kind = .assignable)
      (hop : Expects setup exact (s.shift tok) (.of [.eq]) .eq .operator .noEquals op s₁)
      (hvalue : Reads .expression s₁ value t) :
      Reads (.assign tok) s (((Node.branch .assign [.leaf .assignable tok]).push op).push value) (t.reduce .assign)
  -- Bodies.
  | block {s t : Snapshot} {closers : KindSet} {tok : Token} {stmts : List Node}
      (hlook : Looks setup exact (s.withParens 0) (stmtStart ∪ separators ∪ closers) tok) (hk : tok.kind = .newline)
      (h : Reads (.statements closers) (s.withParens 0) stmts t) :
      Reads (.body closers) s (stmts, true) (t.withParens s.parens)
  | noBody {s : Snapshot} {closers : KindSet} {tok : Token}
      (hlook : Looks setup exact (s.withParens 0) (stmtStart ∪ separators ∪ closers) tok) (hline : tok.kind ≠ .newline)
      (hk : tok.kind = .eof ∨ closers.has tok.kind = true) :
      Reads (.body closers) s ([], false) ((s.withParens 0).withParens s.parens)
  | inlined {s t : Snapshot} {closers : KindSet} {tok : Token} {stmts : List Node}
      (hlook : Looks setup exact (s.withParens 0) (stmtStart ∪ separators ∪ closers) tok) (hline : tok.kind ≠ .newline)
      (hk : ¬ (tok.kind = .eof ∨ closers.has tok.kind = true))
      (h : Reads (.inlineBody closers) (s.withParens 0) stmts t) :
      Reads (.body closers) s (stmts, false) (t.withParens s.parens)
  | several {s s₁ t : Snapshot} {closers : KindSet} {first : Node} {rest : List Node}
      (hfirst : Reads .statement s first s₁) (hrest : Reads (.inlineRest closers) s₁ (some rest) t) :
      Reads (.inlineBody closers) s (first :: rest) t
  | single {s s₁ t : Snapshot} {closers : KindSet} {first : Node}
      (hfirst : Reads .statement s first s₁) (hrest : Reads (.inlineRest closers) s₁ none t) :
      Reads (.inlineBody closers) s [first] (s₁.back t.looks)
  | restClosed {s : Snapshot} {closers : KindSet} {tok : Token} (hlook : Looks setup exact s (separators ∪ closers) tok)
      (hk : closers.has tok.kind = true) : Reads (.inlineRest closers) s (some []) s
  | restOpen {s : Snapshot} {closers : KindSet} {tok : Token} (hlook : Looks setup exact s (separators ∪ closers) tok)
      (hcloser : closers.has tok.kind = false) (hk : tok.kind ≠ .semicolon) :
      Reads (.inlineRest closers) s none s
  | restClosedNext {s : Snapshot} {closers : KindSet} {tok next : Token}
      (hlook : Looks setup exact s (separators ∪ closers) tok) (hcloser : closers.has tok.kind = false)
      (hk : tok.kind = .semicolon) (hnext : Looks setup exact (s.shift tok) (stmtStart ∪ separators ∪ closers) next)
      (hclosed : closers.has next.kind = true) : Reads (.inlineRest closers) s (some []) (s.shift tok)
  | restOpenNext {s : Snapshot} {closers : KindSet} {tok next : Token}
      (hlook : Looks setup exact s (separators ∪ closers) tok) (hcloser : closers.has tok.kind = false)
      (hk : tok.kind = .semicolon) (hnext : Looks setup exact (s.shift tok) (stmtStart ∪ separators ∪ closers) next)
      (hopen : closers.has next.kind = false) (hstart : stmtStart.has next.kind = false) :
      Reads (.inlineRest closers) s none (s.shift tok)
  | restMore {s s₁ t : Snapshot} {closers : KindSet} {tok next : Token} {stmt : Node} {rest : Option (List Node)}
      (hlook : Looks setup exact s (separators ∪ closers) tok) (hcloser : closers.has tok.kind = false)
      (hk : tok.kind = .semicolon) (hnext : Looks setup exact (s.shift tok) (stmtStart ∪ separators ∪ closers) next)
      (hopen : closers.has next.kind = false) (hstart : stmtStart.has next.kind = true)
      (hstmt : Reads .statement (s.shift tok) stmt s₁) (hrest : Reads (.inlineRest closers) s₁ rest t) :
      Reads (.inlineRest closers) s (rest.map (stmt :: ·)) t
  -- Functions and conditionals.
  | functionDef {s s₁ s₂ s₃ t : Snapshot} {tok : Token} {list c node : Node} {stmts : List Node} {block : Bool}
      (hheld : Held setup exact s tok) (hk : tok.kind = .kwFn)
      (hparams : Params setup exact (s.shift tok) { kind := .params, span := .zero } list s₁)
      (hcolon : Colon setup exact (s₁.reduce .params) c s₂)
      (hbody : Reads (.body fnClosers) s₂ (stmts, block) s₃)
      (hclose : CloseBody setup exact s₃
        ((((Node.branch .functionDef [.leaf .keyword tok]).push (paramList list s₁.pos)).push c).append stmts)
        block node t) :
      Reads (.functionDef tok) s node (t.reduce .functionDef)
  | ifExpr {s s₁ s₂ s₃ t : Snapshot} {tok : Token} {condition c node : Node} {stmts : List Node} {block : Bool}
      (hheld : Held setup exact s tok) (hk : tok.kind = .kwIf)
      (hcondition : Reads (.binary lowest false) (s.shift tok) condition s₁)
      (hcolon : Colon setup exact s₁ c s₂) (hbody : Reads (.body ifClosers) s₂ (stmts, block) s₃)
      (hbranches : Reads (.branches ((((Node.branch .ifExpr [.leaf .keyword tok]).push condition).push c).push
        (blockNode s₃.pos stmts)) block false) s₃ node t) :
      Reads (.ifExpr tok) s node t
  | elsif {s s₁ s₂ s₃ t : Snapshot} {tok : Token} {node condition c whole : Node} {stmts : List Node}
      {block b seenElse : Bool} (hlook : Looks setup exact s (branchStart block seenElse) tok)
      (hk : tok.kind = .kwElsif) (hcondition : Reads (.binary lowest false) (s.shift tok) condition s₁)
      (hcolon : Colon setup exact s₁ c s₂) (hbody : Reads (.body ifClosers) s₂ (stmts, b) s₃)
      (hbranches : Reads (.branches (node.push ((((Node.branch .elsifExpr [.leaf .keyword tok]).push condition).push
        c).push (blockNode s₃.pos stmts))) (block || b) seenElse) s₃ whole t) :
      Reads (.branches node block seenElse) s whole t
  | otherwise {s s₂ s₃ t : Snapshot} {tok : Token} {node c whole : Node} {stmts : List Node}
      {block b seenElse : Bool} (hlook : Looks setup exact s (branchStart block seenElse) tok)
      (hk : tok.kind = .kwElse) (hcolon : Colon setup exact (s.shift tok) c s₂)
      (hbody : Reads (.body fnClosers) s₂ (stmts, b) s₃)
      (hbranches : Reads (.branches (node.push (((Node.branch .elseExpr [.leaf .keyword tok]).push c).push
        (blockNode s₃.pos stmts))) (block || b) true) s₃ whole t) :
      Reads (.branches node block seenElse) s whole t
  | endIf {s t : Snapshot} {tok : Token} {node whole : Node} {block seenElse : Bool}
      (hlook : Looks setup exact s (branchStart block seenElse) tok) (helsif : tok.kind ≠ .kwElsif)
      (helse : tok.kind ≠ .kwElse) (hclose : CloseBody setup exact s node block whole t) :
      Reads (.branches node block seenElse) s whole t
  -- Expressions.
  | pipe {s s₁ t : Snapshot} {tok : Token} {left node : Node} (hleft : Reads (.binary lowest true) s left s₁)
      (hlook : Looks setup exact s₁ stageEnd tok) (hk : tok.kind = .pipe)
      (hstages : Reads (.stages (.branch .pipeExpr [left]) tok) s₁ node t) : Reads .expression s node t
  | alone {s t : Snapshot} {tok : Token} {left : Node} (hleft : Reads (.binary lowest true) s left t)
      (hlook : Looks setup exact t stageEnd tok) (hk : tok.kind ≠ .pipe) : Reads .expression s left t
  | stage {s s₁ t : Snapshot} {tok next : Token} {node value whole : Node} (hheld : Held setup exact s tok)
      (hkind : tok.kind = .pipe) (hvalue : Reads (.binary lowest true) (s.shift tok) value s₁)
      (hlook : Looks setup exact s₁ stageEnd next) (hk : next.kind = .pipe)
      (hrest : Reads (.stages ((node.push (.leaf .operator tok)).push value) next) s₁ whole t) :
      Reads (.stages node tok) s whole t
  | lastStage {s t : Snapshot} {tok next : Token} {node value : Node} (hheld : Held setup exact s tok)
      (hkind : tok.kind = .pipe) (hvalue : Reads (.binary lowest true) (s.shift tok) value t)
      (hlook : Looks setup exact t stageEnd next) (hk : next.kind ≠ .pipe) :
      Reads (.stages node tok) s ((node.push (.leaf .operator tok)).push value) t
  | operation {s s₁ t : Snapshot} {tok : Token} {minPrec : Nat} {callable : Bool} {left node : Node}
      (hlook : Looks setup exact s exprStart tok) (hleft : Reads (.operand tok callable) s left s₁)
      (hops : Reads (.operators minPrec left) s₁ (some node) t) : Reads (.binary minPrec callable) s node t
  | lone {s s₁ t : Snapshot} {tok : Token} {minPrec : Nat} {callable : Bool} {left : Node}
      (hlook : Looks setup exact s exprStart tok) (hleft : Reads (.operand tok callable) s left s₁)
      (hops : Reads (.operators minPrec left) s₁ none t) (hlone : (callable && left.kind == .identifier) = true) :
      Reads (.binary minPrec callable) s (loneName setup t.names left) t
  | justOperand {s s₁ t : Snapshot} {tok : Token} {minPrec : Nat} {callable : Bool} {left : Node}
      (hlook : Looks setup exact s exprStart tok) (hleft : Reads (.operand tok callable) s left s₁)
      (hops : Reads (.operators minPrec left) s₁ none t) (hlone : (callable && left.kind == .identifier) = false) :
      Reads (.binary minPrec callable) s left t
  | noOperator {s : Snapshot} {tok : Token} {minPrec : Nat} {left : Node}
      (hlook : Looks setup exact s (binaryOps ∪ separators) tok)
      (hprec : precedence tok.kind = 0 ∨ precedence tok.kind < minPrec) : Reads (.operators minPrec left) s none s
  | operator {s s₁ t : Snapshot} {tok : Token} {minPrec : Nat} {left right : Node} {more : Option Node}
      (hlook : Looks setup exact s (binaryOps ∪ separators) tok)
      (hprec : ¬ (precedence tok.kind = 0 ∨ precedence tok.kind < minPrec))
      (hright : Reads (.binary (precedence tok.kind + 1) false) (s.shift tok) right s₁)
      (hmore : Reads (.operators minPrec (.branch (operatorNode (precedence tok.kind))
        [left, .leaf .operator tok, right])) s₁ more t) :
      Reads (.operators minPrec left) s
        (some (more.getD (.branch (operatorNode (precedence tok.kind)) [left, .leaf .operator tok, right]))) t
  -- Operands.
  | tooDeep {s : Snapshot} {tok : Token} {callable : Bool} (hheld : Held setup exact s tok)
      (hdepth : setup.maxDepth < (s.depth : Int) + 1) :
      Reads (.operand tok callable) s (faultNode setup .tooDeep (s.junk setup)) (s.skip setup .tooDeep)
  | operand {s t : Snapshot} {tok : Token} {callable : Bool} {node : Node} (hheld : Held setup exact s tok)
      (hdepth : ¬ setup.maxDepth < (s.depth : Int) + 1) (h : Reads (.operandBody tok callable) s.deepen node t) :
      Reads (.operand tok callable) s node (t.withDepth s.depth)
  | literal {s : Snapshot} {tok : Token} {callable : Bool} {kind : Kind} (hheld : Held setup exact s tok)
      (hk : literalKind? tok.kind = some kind) : Reads (.operandBody tok callable) s (.leaf kind tok) (s.shift tok)
  | string {s t : Snapshot} {tok : Token} {callable : Bool} {node : Node} (hheld : Held setup exact s tok)
      (hk : tok.kind = .quote)
      (h : Reads (.stringPieces (tok.text.headD 0).toNat { kind := .string, span := tok.span }) (s.shift tok) node t) :
      Reads (.operandBody tok callable) s node t
  | word {s t : Snapshot} {tok : Token} {callable : Bool} {node : Node} (hheld : Held setup exact s tok)
      (hk : tok.kind = .word)
      (h : Reads (.wordPieces { kind := .word, span := .point tok.start }) (s.moveTo tok.start) node t) :
      Reads (.operandBody tok callable) s node t
  | callee {s t : Snapshot} {tok : Token} {node : Node} (hheld : Held setup exact s tok)
      (hk : tok.kind = .identifier) (h : Reads (.call (.leaf .identifier tok)) (s.shift tok) node t) :
      Reads (.operandBody tok true) s node t
  | name {s : Snapshot} {tok : Token} (hheld : Held setup exact s tok) (hk : tok.kind = .identifier) :
      Reads (.operandBody tok false) s (.leaf .identifier tok) (s.shift tok)
  | dotGet {s t : Snapshot} {tok : Token} {callable : Bool} {node : Node} (hheld : Held setup exact s tok)
      (hk : tok.kind = .beforeDot) (h : DotGet setup exact s tok node t) : Reads (.operandBody tok callable) s node t
  | group {s t : Snapshot} {tok : Token} {callable : Bool} {node : Node} (hheld : Held setup exact s tok)
      (hk : tok.kind = .openParen) (h : Reads (.parenBody tok.span) (s.shift tok) node t) :
      Reads (.operandBody tok callable) s node t
  | function {s t : Snapshot} {tok : Token} {callable : Bool} {node : Node} (hk : tok.kind = .kwFn)
      (h : Reads (.functionDef tok) s node t) : Reads (.operandBody tok callable) s node t
  | conditional {s t : Snapshot} {tok : Token} {callable : Bool} {node : Node} (hk : tok.kind = .kwIf)
      (h : Reads (.ifExpr tok) s node t) : Reads (.operandBody tok callable) s node t
  | noOperand {s : Snapshot} {tok : Token} {callable : Bool} (hheld : Held setup exact s tok)
      (hk : isBoundary tok.kind = true) :
      Reads (.operandBody tok callable) s (faultNode setup .noExpression (s.here setup))
        (s.complain setup .noExpression (s.here setup))
  | badOperand {s : Snapshot} {tok : Token} {callable : Bool} (hheld : Held setup exact s tok)
      (hstart : exprStart.has tok.kind = false) (hk : isBoundary tok.kind = false) :
      Reads (.operandBody tok callable) s (faultNode setup (.unexpected tok) tok.span)
        ((s.moveTo tok.stop).complain setup (.unexpected tok) tok.span)
  -- Calls.
  | glued {s : Snapshot} {id : Node} (hglued : glued setup id = true) : Reads (.call id) s id s
  | withArgs {s t : Snapshot} {id node : Node} {tok : Token} (hglued : glued setup id = false)
      (hlook : Looks setup exact s (argStart ∪ binaryOps ∪ stageEnd) tok) (hk : argStart.has tok.kind = true)
      (h : Reads (.args (.branch .functionCall [id]) tok) s node t) : Reads (.call id) s node t
  | noArgs {s : Snapshot} {id : Node} {tok : Token} (hglued : glued setup id = false)
      (hlook : Looks setup exact s (argStart ∪ binaryOps ∪ stageEnd) tok) (hk : argStart.has tok.kind = false) :
      Reads (.call id) s id s
  | moreArgs {s s₁ t : Snapshot} {tok next : Token} {node a whole : Node} (harg : Reads (.arg tok) s a s₁)
      (hlook : Looks setup exact s₁ (argStart ∪ stageEnd) next) (hk : argStart.has next.kind = true)
      (hrest : Reads (.args (node.push a) next) s₁ whole t) : Reads (.args node tok) s whole t
  | lastArg {s t : Snapshot} {tok next : Token} {node a : Node} (harg : Reads (.arg tok) s a t)
      (hlook : Looks setup exact t (argStart ∪ stageEnd) next) (hk : argStart.has next.kind = false) :
      Reads (.args node tok) s (node.push a) t
  | positional {s t : Snapshot} {tok : Token} {value : Node} (hk : tok.kind ≠ .argName)
      (h : Reads (.operand tok false) s value t) : Reads (.arg tok) s (.branch .positionalArg [value]) t
  | named {s t : Snapshot} {tok next : Token} {value : Node} (hheld : Held setup exact s tok)
      (hk : tok.kind = .argName) (hlook : Looks setup exact (s.shift tok) (argStart ∪ stageEnd) next)
      (hnext : ¬ (next.start ≠ tok.stop ∨ (!exprStart.has next.kind) = true))
      (h : Reads (.operand next false) (s.shift tok) value t) :
      Reads (.arg tok) s ((Node.branch .namedArg [.leaf .argName tok]).push value) t
  | noValue {s : Snapshot} {tok next : Token} (hheld : Held setup exact s tok)
      (hk : tok.kind = .argName) (hlook : Looks setup exact (s.shift tok) (argStart ∪ stageEnd) next)
      (hnext : next.start ≠ tok.stop ∨ (!exprStart.has next.kind) = true) :
      Reads (.arg tok) s
        ((Node.branch .namedArg [.leaf .argName tok]).push
          (faultNode setup (.noArgValue tok.text) ((s.shift tok).here setup)))
        ((s.shift tok).complain setup (.noArgValue tok.text) ((s.shift tok).here setup))
  -- Groups, strings and words.
  | emptyGroup {s t : Snapshot} {opening : Span} {tok : Token} {node : Node}
      (hlook : Looks setup exact s.enter (.of [.closeParen]) tok) (hk : tok.kind = .closeParen)
      (hclose : CloseParen setup exact s.enter { kind := .parenExpr, span := opening } node t) :
      Reads (.parenBody opening) s node t.leave
  | fullGroup {s s₁ s₂ t : Snapshot} {opening : Span} {tok : Token} {value inner node : Node}
      (hlook : Looks setup exact s.enter (.of [.closeParen]) tok) (hk : tok.kind ≠ .closeParen)
      (hvalue : Reads .expression s.enter value s₁)
      (hjunk : Junk setup exact s₁ (({ kind := .parenExpr, span := opening } : Node).push value) inner s₂)
      (hclose : CloseParen setup exact s₂ inner node t) : Reads (.parenBody opening) s node t.leave
  | closeQuote {s : Snapshot} {quote : Nat} {node : Node}
      (hk : (Token.stringPiece setup.src s.pos quote).kind = .quote) :
      Reads (.stringPieces quote node) s
        { node with span := { node.span with stop := (Token.stringPiece setup.src s.pos quote).stop } }
        (s.advance (Token.stringPiece setup.src s.pos quote))
  | unterminated {s : Snapshot} {quote : Nat} {node : Node} (hpos : s.pos ≤ setup.src.length)
      (hk : (Token.stringPiece setup.src s.pos quote).kind = .eof) :
      Reads (.stringPieces quote node) s
        (node.push (faultNode setup .unterminatedString (.point setup.src.length)))
        ((s.complain setup .unterminatedString (.point setup.src.length)).moveTo setup.src.length)
  | stringText {s t : Snapshot} {quote : Nat} {node whole : Node}
      (hk : (Token.stringPiece setup.src s.pos quote).kind = .fragment)
      (h : Reads (.stringPieces quote (node.push (.leaf .stringFragment (Token.stringPiece setup.src s.pos quote))))
        (s.advance (Token.stringPiece setup.src s.pos quote)) whole t) : Reads (.stringPieces quote node) s whole t
  | stringPart {s s₁ t : Snapshot} {quote : Nat} {node part whole : Node}
      (hpiece : Reads (.piece (Token.stringPiece setup.src s.pos quote)) s part s₁)
      (h : Reads (.stringPieces quote (node.push part)) s₁ whole t) : Reads (.stringPieces quote node) s whole t
  | endWord {s : Snapshot} {node : Node} (hk : (Token.wordPiece setup.src s.pos).kind = .fragmentEnd) :
      Reads (.wordPieces node) s node s
  | wordText {s t : Snapshot} {node whole : Node} (hk : (Token.wordPiece setup.src s.pos).kind = .fragment)
      (h : Reads (.wordPieces (node.push (.leaf .wordFragment (Token.wordPiece setup.src s.pos))))
        (s.advance (Token.wordPiece setup.src s.pos)) whole t) : Reads (.wordPieces node) s whole t
  | wordPart {s s₁ t : Snapshot} {node part whole : Node}
      (hpiece : Reads (.piece (Token.wordPiece setup.src s.pos)) s part s₁)
      (h : Reads (.wordPieces (node.push part)) s₁ whole t) : Reads (.wordPieces node) s whole t
  | escape {s : Snapshot} {tok : Token} (hpiece : Token.Piece setup.src s.pos tok) (hk : tok.kind = .escape) :
      Reads (.piece tok) s (.leaf .escape tok) (s.advance tok)
  | interpolatedName {s : Snapshot} {tok : Token} (hpiece : Token.Piece setup.src s.pos tok)
      (hk : tok.kind = .interpName) :
      Reads (.piece tok) s
        { kind := .interpolation
          span := tok.span
          children := [{ kind := .identifier, span := ⟨tok.start + 1, tok.stop⟩, text := tok.text }] }
        (s.advance tok)
  | interpolated {s t : Snapshot} {tok : Token} {paren : Node} (hpiece : Token.Piece setup.src s.pos tok)
      (hk : tok.kind = .interpOpen)
      (h : Reads (.parenBody ⟨tok.start + 1, tok.stop⟩) (s.advance tok) paren t) :
      Reads (.piece tok) s
        { kind := .interpolation, span := ⟨tok.start, paren.span.stop⟩, children := [paren] } t

end
end Bareword.Tree.Grammar
