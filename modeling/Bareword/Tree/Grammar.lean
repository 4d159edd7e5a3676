import Bareword.Tree.Parsing

/-! # The grammar

A recursive descent parser that tells the scanner at every step which tokens it can accept and
which names are bound. It never fails: what does not fit the grammar becomes an error node.

Productions take a bound on the depth of the recursion, which `parse` computes from the length of
the source: between two levels of any production at least one byte is consumed.

* `Grammar.statements`, `Grammar.expression`, `Grammar.operand`: the main productions.
* `parse`: the tree of a source, with the faults, the tokens and the scope at its end.
-/

namespace Bareword.Tree
set_option autoImplicit false
open Token (KindSet)
open Parsing

namespace Grammar

/-! ## Acceptance sets -/

def exprStart : KindSet :=
  .of [.number, .boolean, .regex, .quote, .identifier, .beforeDot, .word, .openParen, .kwFn, .kwIf]

def stmtStart : KindSet := exprStart.insertAll [.assignable]

def argStart : KindSet := exprStart.insertAll [.argName]

def binaryOps : KindSet :=
  .of [.plus, .minus, .star, .slash, .eq, .notEq, .lt, .gt, .ltEq, .gtEq, .kwAnd, .kwOr]

def separators : KindSet := .of [.newline, .semicolon]

/-- Statement separators and the pipe. -/
def stageEnd : KindSet := separators.insertAll [.pipe]

/-- What closes the body of a function or of an else branch. -/
def fnClosers : KindSet := .of [.kwEnd]

/-- What closes the body of an if or elsif branch. -/
def ifClosers : KindSet := .of [.kwElsif, .kwElse, .kwEnd]

/-! ## Operators -/

/-- How tightly an operator binds; zero for all other tokens. -/
def precedence : Token.Kind → Nat
  | .kwAnd | .kwOr => 2
  | .eq | .notEq | .lt | .gt | .ltEq | .gtEq => 3
  | .plus | .minus => 4
  | .star | .slash => 5
  | _ => 0

/-- The lowest precedence. -/
def lowest : Nat := 1

/-- The kind of node that an operator of some precedence makes. -/
def operatorNode (prec : Nat) : Kind := if prec ≤ 3 then .conditionalOp else .binOp

/-- Whether a token can neither start nor continue an expression, so that it is left alone when an
operand is missing. -/
def isBoundary : Token.Kind → Bool
  | .eof | .newline | .semicolon | .closeParen | .colon | .pipe | .kwEnd | .kwElsif | .kwElse => true
  | _ => false

/-! ## Productions without recursion -/

/-- What stands between a statement and the next boundary, as an error node. -/
def endStatement (setup : Setup) (stop : KindSet) : Parse (Option Node) := do
  let tok ← peek setup (separators ∪ stop)
  let s ← get
  if tok.kind = .eof ∨ tok.kind = .newline ∨ tok.kind = .semicolon ∨ stop.has tok.kind then
    return none
  else if tok.kind = .closeParen ∧ 0 < s.parens then return none
  else return some (← skipStatement setup (.unexpected tok))

/-- The colon that introduces a body. -/
def colon (setup : Setup) : Parse Node := do
  let tok ← peek setup (.of [.colon, .newline])
  if tok.kind = .colon then
    shift tok
    return .leaf .colon tok
  else missing setup .noColon

/-- Closes a construct with `end`, which a block needs and an inline body may do without. -/
def closeBody (setup : Setup) (node : Node) (block : Bool) : Parse Node := do
  let accept := KindSet.of (if block then [.kwEnd] else [.kwEnd, .newline, .semicolon])
  let tok ← peek setup accept
  if tok.kind = .kwEnd then
    shift tok
    return node.push (.leaf .keyword tok)
  else if block then return node.push (← missing setup .noEnd)
  else return node

/-- The block node of some statements. -/
def thenBlock (stmts : List Node) : Parse Node := do
  if stmts.isEmpty then return { kind := .thenBlock, span := .point (← get).pos }
  else return .branch .thenBlock stmts

/-- A lone name: a call if it is unbound and names a command, otherwise the program decides when it
runs. -/
def callOrIdentifier (setup : Setup) (id : Node) : Parse Node := do
  let s ← get
  let isCall :=
    match setup.isCommand with
    | none => false
    | some isCommand => !s.scope.has id.text && isCommand id.text
  return .branch (if isCall then .functionCall else .callOrIdentifier) [id]

/-- A property access; `tok` is the name before the dot. -/
def dotGet (setup : Setup) (tok : Token) : Parse Node := do
  shift tok
  let node := Node.branch .dotGet [.leaf .identifier tok]
  let dot ← peek setup (.of [.dot])
  if dot.kind = .dot then shift dot
  let prop ← peek setup (.of [.identifier])
  if prop.kind = .identifier ∧ prop.start = (← get).pos then
    shift prop
    return node.push (.leaf .identifier prop)
  else return node.push (← missing setup .noProperty)

/-- The parameters of a function, up to the first token that is none. -/
def params (setup : Setup) : Nat → Node → Parse Node
  | 0, node => return node
  | fuel + 1, node => do
    let tok ← peek setup (.of [.identifier, .colon, .newline])
    if tok.kind = .identifier then
      shift tok
      params setup fuel (node.push (.leaf .identifier tok))
    else if tok.kind = .illegal then
      let bad ← complain setup (.badParameter tok) tok.span
      moveTo tok.stop
      params setup fuel (node.push bad)
    else return node

/-! ## Productions -/

mutual

/-- Statements up to the end of the input or to one of the closers, which is left alone. -/
def statements (setup : Setup) (stop : KindSet) : Nat → Parse (List Node)
  | 0 => return []
  | fuel + 1 => do
    if (← get).halted then return []
    else if ← calledOff setup then return []
    else
      let tok ← peek setup (stmtStart ∪ separators ∪ stop)
      if tok.kind = .eof ∨ stop.has tok.kind then return []
      else if tok.kind = .newline ∨ tok.kind = .semicolon then
        shift tok
        statements setup stop fuel
      else
        let stmt ← statement setup fuel
        let junk ← endStatement setup stop
        return stmt :: junk.toList ++ (← statements setup stop fuel)

/-- One statement: an assignment or an expression. -/
def statement (setup : Setup) : Nat → Parse Node
  | 0 => missing setup .noExpression
  | fuel + 1 => do
    let tok ← peek setup stmtStart
    if tok.kind = .assignable then assign setup tok fuel
    else if !stmtStart.has tok.kind then skipStatement setup (.unexpected tok)
    else expression setup fuel

/-- An assignment to the name `tok`. The name is bound even when its value is broken. -/
def assign (setup : Setup) (tok : Token) : Nat → Parse Node
  | 0 => missing setup .noExpression
  | fuel + 1 => do
    shift tok
    let node := Node.branch .assign [.leaf .assignable tok]
    let eq ← peek setup (.of [.eq])
    let op ← if eq.kind = .eq then do
        shift eq
        pure (Node.leaf .operator eq)
      else missing setup .noEquals
    let value ← expression setup fuel
    reduce setup .assign
    return (node.push op).push value

/-- The statements after a colon, and whether they are a block. A colon that ends its line starts a
block that runs up to a closer; any other body stands on the same line. -/
def body (setup : Setup) (closers : KindSet) : Nat → Parse (List Node × Bool)
  | 0 => return ([], false)
  | fuel + 1 => do
    let saved := (← get).parens
    modify fun s => { s with parens := 0 }
    let tok ← peek setup (stmtStart ∪ separators ∪ closers)
    let result ←
      if tok.kind = .newline then do
        pure (← statements setup closers fuel, true)
      else if tok.kind = .eof ∨ closers.has tok.kind then pure ([], false)
      else do
        pure (← inlineBody setup closers fuel, false)
    modify fun s => { s with parens := saved }
    return result

/-- A body on one line: a single statement, or several that are closed on the same line. When
nothing closes them, those after the first belong to the enclosing block. -/
def inlineBody (setup : Setup) (closers : KindSet) : Nat → Parse (List Node)
  | 0 => return []
  | fuel + 1 => do
    let first ← statement setup fuel
    let mark ← get
    match ← inlineRest setup closers fuel with
    | some rest => return first :: rest
    | none =>
      restore setup mark
      return [first]

/-- The further statements of a body on one line, if the body is closed there. -/
def inlineRest (setup : Setup) (closers : KindSet) : Nat → Parse (Option (List Node))
  | 0 => return none
  | fuel + 1 => do
    let tok ← peek setup (separators ∪ closers)
    if closers.has tok.kind then return some []
    else if tok.kind ≠ .semicolon then return none
    else
      shift tok
      let next ← peek setup (stmtStart ∪ separators ∪ closers)
      if closers.has next.kind then return some []
      else if !stmtStart.has next.kind then return none
      else
        let stmt ← statement setup fuel
        return (← inlineRest setup closers fuel).map (stmt :: ·)

/-- A function literal; `tok` is its keyword. -/
def functionDef (setup : Setup) (tok : Token) : Nat → Parse Node
  | 0 => missing setup .noExpression
  | fuel + 1 => do
    shift tok
    let node := Node.branch .functionDef [.leaf .keyword tok]
    let list ← params setup fuel { kind := .params, span := .zero }
    let here := (← get).pos
    let list := if list.isLeaf then { list with span := .point here } else list
    reduce setup .params
    let node := (node.push list).push (← colon setup)
    let (stmts, block) ← body setup fnClosers fuel
    let node ← closeBody setup (node.append stmts) block
    reduce setup .functionDef
    return node

/-- A conditional; `tok` is its keyword. -/
def ifExpr (setup : Setup) (tok : Token) : Nat → Parse Node
  | 0 => missing setup .noExpression
  | fuel + 1 => do
    shift tok
    let node := Node.branch .ifExpr [.leaf .keyword tok]
    let node := node.push (← binary setup lowest false fuel)
    let node := node.push (← colon setup)
    let (stmts, block) ← body setup ifClosers fuel
    let node := node.push (← thenBlock stmts)
    branches setup node block false fuel

/-- The further branches of a conditional and its end. -/
def branches (setup : Setup) (node : Node) (block seenElse : Bool) : Nat → Parse Node
  | 0 => return node
  | fuel + 1 => do
    let tok ← peek setup (.of ([.kwEnd] ++ (if seenElse then [] else [.kwElsif, .kwElse]) ++
      (if block then [] else [.newline, .semicolon])))
    if tok.kind = .kwElsif then
      shift tok
      let branch := Node.branch .elsifExpr [.leaf .keyword tok]
      let branch := branch.push (← binary setup lowest false fuel)
      let branch := branch.push (← colon setup)
      let (stmts, b) ← body setup ifClosers fuel
      let branch := branch.push (← thenBlock stmts)
      branches setup (node.push branch) (block || b) seenElse fuel
    else if tok.kind = .kwElse then
      shift tok
      let branch := Node.branch .elseExpr [.leaf .keyword tok]
      let branch := branch.push (← colon setup)
      let (stmts, b) ← body setup fnClosers fuel
      let branch := branch.push (← thenBlock stmts)
      branches setup (node.push branch) (block || b) true fuel
    else closeBody setup node block

/-- An expression in value position: a chain of stages, each of which may be a call. -/
def expression (setup : Setup) : Nat → Parse Node
  | 0 => missing setup .noExpression
  | fuel + 1 => do
    let left ← binary setup lowest true fuel
    let tok ← peek setup stageEnd
    if tok.kind = .pipe then stages setup (.branch .pipeExpr [left]) tok fuel
    else return left

/-- The further stages of a chain; `tok` is the pipe before the next one. -/
def stages (setup : Setup) (node : Node) (tok : Token) : Nat → Parse Node
  | 0 => return node
  | fuel + 1 => do
    shift tok
    let node := node.push (.leaf .operator tok)
    let node := node.push (← binary setup lowest true fuel)
    let tok ← peek setup stageEnd
    if tok.kind = .pipe then stages setup node tok fuel else return node

/-- Operators that bind at least as tightly as `minPrec`. If `callable` is set, a leading name may
be called, and a lone name is left for the program to decide. -/
def binary (setup : Setup) (minPrec : Nat) (callable : Bool) : Nat → Parse Node
  | 0 => missing setup .noExpression
  | fuel + 1 => do
    let tok ← peek setup exprStart
    let left ← operand setup tok callable fuel
    match ← operators setup minPrec left fuel with
    | some node => return node
    | none =>
      if callable && left.kind == .identifier then callOrIdentifier setup left else return left

/-- The operators after the operand `left`, or `none` when there is none. -/
def operators (setup : Setup) (minPrec : Nat) (left : Node) : Nat → Parse (Option Node)
  | 0 => return none
  | fuel + 1 => do
    let tok ← peek setup (binaryOps ∪ separators)
    let prec := precedence tok.kind
    if prec = 0 ∨ prec < minPrec then return none
    else
      shift tok
      let right ← binary setup (prec + 1) false fuel
      let node := Node.branch (operatorNode prec) [left, .leaf .operator tok, right]
      return some ((← operators setup minPrec node fuel).getD node)

/-- The operand that starts with `tok`. -/
def operand (setup : Setup) (tok : Token) (callable : Bool) : Nat → Parse Node
  | 0 => missing setup .noExpression
  | fuel + 1 => do
    let depth := (← get).depth
    if setup.maxDepth < depth + 1 then skipStatement setup .tooDeep
    else
      modify fun s => { s with depth := depth + 1 }
      let node ← operandBody setup tok callable fuel
      modify fun s => { s with depth }
      return node

/-- The operand that starts with `tok`, at a depth that is allowed. -/
def operandBody (setup : Setup) (tok : Token) (callable : Bool) : Nat → Parse Node
  | 0 => missing setup .noExpression
  | fuel + 1 => do
    match tok.kind with
    | .number =>
      shift tok
      return .leaf .number tok
    | .boolean =>
      shift tok
      return .leaf .boolean tok
    | .regex =>
      shift tok
      return .leaf .regex tok
    | .quote =>
      shift tok
      let quote := tok.text.headD 0
      stringPieces setup quote.toNat { kind := .string, span := tok.span } fuel
    | .word =>
      moveTo tok.start
      wordPieces setup { kind := .word, span := .point tok.start } fuel
    | .identifier =>
      shift tok
      let id := Node.leaf .identifier tok
      if callable then call setup id fuel else return id
    | .beforeDot => dotGet setup tok
    | .openParen =>
      shift tok
      parenBody setup tok.span fuel
    | .kwFn => functionDef setup tok fuel
    | .kwIf => ifExpr setup tok fuel
    | kind => if isBoundary kind then missing setup .noExpression else unexpected setup tok

/-- The arguments after the callee `id`, from which a blank separates them. Without arguments the
answer is `id` itself. -/
def call (setup : Setup) (id : Node) : Nat → Parse Node
  | 0 => return id
  | fuel + 1 => do
    let glued :=
      match setup.src.drop id.span.stop.toNat with
      | [] => false
      | b :: _ => !(isBlank b || b == Text.byte '\n')
    if glued then return id
    else
      let tok ← peek setup (argStart ∪ binaryOps ∪ stageEnd)
      if argStart.has tok.kind then args setup (.branch .functionCall [id]) tok fuel else return id

/-- The arguments of a call; `tok` starts the next one. -/
def args (setup : Setup) (node : Node) (tok : Token) : Nat → Parse Node
  | 0 => return node
  | fuel + 1 => do
    let node := node.push (← arg setup tok fuel)
    let tok ← peek setup (argStart ∪ stageEnd)
    if argStart.has tok.kind then args setup node tok fuel else return node

/-- One argument that starts with `tok`. The value of a named argument follows its name without a
blank. -/
def arg (setup : Setup) (tok : Token) : Nat → Parse Node
  | 0 => missing setup .noExpression
  | fuel + 1 => do
    if tok.kind ≠ .argName then return .branch .positionalArg [← operand setup tok false fuel]
    else
      shift tok
      let node := Node.branch .namedArg [.leaf .argName tok]
      let value ← peek setup (argStart ∪ stageEnd)
      if value.start ≠ (← get).pos ∨ !exprStart.has value.kind then
        return node.push (← missing setup (.noArgValue tok.text))
      else return node.push (← operand setup value false fuel)

/-- What follows an opening parenthesis that covers `opening`, and the closing parenthesis. -/
def parenBody (setup : Setup) (opening : Span) : Nat → Parse Node
  | 0 => return { kind := .parenExpr, span := opening }
  | fuel + 1 => do
    modify fun s => { s with parens := s.parens + 1 }
    let node : Node := { kind := .parenExpr, span := opening }
    let tok ← peek setup (.of [.closeParen])
    let node ←
      if tok.kind = .closeParen then pure node
      else do
        let value ← expression setup fuel
        parenJunk setup (node.push value) fuel
    let tok ← peek setup (.of [.closeParen])
    let node ←
      if tok.kind = .closeParen then do
        shift tok
        pure { node with span := { node.span with stop := tok.stop } }
      else do
        pure (node.push (← missing setup .noCloseParen))
    modify fun s => { s with parens := s.parens - 1 }
    return node

/-- What stands between the expression in parentheses and the closing parenthesis. -/
def parenJunk (setup : Setup) (node : Node) : Nat → Parse Node
  | 0 => return node
  | fuel + 1 => do
    let tok ← peek setup (.of [.closeParen])
    if tok.kind = .closeParen ∨ tok.kind = .eof ∨ (← get).halted then return node
    else
      let junk ← skipStatement setup (.unexpected tok)
      parenJunk setup (node.push junk) fuel

/-- The pieces of a string up to its closing quote. -/
def stringPieces (setup : Setup) (quote : Nat) (node : Node) : Nat → Parse Node
  | 0 => return node
  | fuel + 1 => do
    let tok := Token.stringPiece setup.src (← get).pos quote
    match tok.kind with
    | .quote =>
      advance tok
      return { node with span := { node.span with stop := tok.stop } }
    | .eof =>
      let node := node.push (← complain setup .unterminatedString (.point setup.src.length))
      moveTo setup.src.length
      return node
    | .fragment =>
      advance tok
      stringPieces setup quote (node.push (.leaf .stringFragment tok)) fuel
    | _ =>
      let node := node.push (← piece setup tok fuel)
      stringPieces setup quote node fuel

/-- The pieces of a bare word. -/
def wordPieces (setup : Setup) (node : Node) : Nat → Parse Node
  | 0 => return node
  | fuel + 1 => do
    let tok := Token.wordPiece setup.src (← get).pos
    match tok.kind with
    | .fragmentEnd => return node
    | .fragment =>
      advance tok
      wordPieces setup (node.push (.leaf .wordFragment tok)) fuel
    | _ =>
      let node := node.push (← piece setup tok fuel)
      wordPieces setup node fuel

/-- An escape or an interpolation inside a string or a word. -/
def piece (setup : Setup) (tok : Token) : Nat → Parse Node
  | 0 => missing setup .noExpression
  | fuel + 1 => do
    advance tok
    match tok.kind with
    | .escape => return .leaf .escape tok
    | .interpName =>
      let id : Node := { kind := .identifier, span := ⟨tok.start + 1, tok.stop⟩, text := tok.text }
      return { kind := .interpolation, span := tok.span, children := [id] }
    | .interpOpen =>
      let paren ← parenBody setup ⟨tok.start + 1, tok.stop⟩ fuel
      return { kind := .interpolation, span := ⟨tok.start, paren.span.stop⟩, children := [paren] }
    | _ => complain setup (.unexpected tok) tok.span

end

/-- The depth of recursion that a source of some length can need. -/
def fuelFor (length : Nat) : Nat := 16 * (length + 2)

/-- A whole program. When the parse has stopped early, the rest is one more error node. -/
def program (setup : Setup) : Parse Node := do
  let stmts ← statements setup .empty (fuelFor setup.src.length)
  let s ← get
  let rest := Token.skipBlank setup.src s.pos false
  let tail ←
    if s.halted ∧ rest < setup.src.length then do
      let span : Span := ⟨rest, setup.src.length⟩
      moveTo setup.src.length
      pure [Node.fault Complaint.stopped.code span (span.text setup.src) Complaint.stopped.message]
    else pure []
  return { kind := .program, span := ⟨0, setup.src.length⟩, children := stmts ++ tail }

end Grammar

/-- What a parse answers. -/
structure Parsed where
  tree : Node
  faults : List Report.SyntaxFault
  tokens : List Token
  scope : Scope.Context
  deriving Inhabited

namespace Parsed

/-- The faults as one failure. -/
def failure? (p : Parsed) : Option Report.Failure :=
  Report.Failure.ofFaults (p.faults.map .parsing)

end Parsed

def parse (setup : Parsing.Setup) : Parsed :=
  let (tree, s) := (Grammar.program setup).run (.start setup)
  ⟨tree, s.faults, s.consumed.reverse, s.scope⟩

end Bareword.Tree
