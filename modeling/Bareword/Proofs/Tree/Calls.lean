import Bareword.Proofs.Tree.Adequacy

/-! # Who calls whom

The calls that a production makes while it is at work, in the order in which it makes them: every rule
gives the steps that come before one call.

* `Task`: what the parser can be at work on.
* `Calls`: a task that starts in one state calls another task in another state.
* `Task.run_congr`: the answer of a task depends on nothing but what its calls answer, so none is missing
  from the rules.
* `Loop`: the loops, each turn of which calls the next one.
-/

namespace Bareword.Tree.Grammar
set_option autoImplicit false
open Token (KindSet)
open Parsing

/-! ## Tasks -/

/-- What the parser can be at work on: a production, or one of the two loops that are none. -/
inductive Task where
  | of (p : Production)
  | params (node : Node)
  | junk (node : Node)

namespace Task

@[reducible]
def Answer : Task → Type
  | of p => p.Answer
  | params _ => Node
  | junk _ => Node

def run (setup : Setup) : (x : Task) → Nat → Parse x.Answer
  | of p => parserOf setup p
  | params node => fun fuel => Grammar.params setup fuel node
  | junk node => parenJunk setup node

end Task

/-! ## Calls -/

/-- With fuel for one more call, a task that starts in one state calls another task in another state. -/
inductive Calls (setup : Setup) (fuel : Nat) : Task → State → Task → State → Prop where
  -- Statements.
  | separator {s s₁ s₂ t : State} {stop : KindSet} {tok : Token} (hgoing : ¬ s.halted = true)
      (hon : calledOff setup s = (false, s₁)) (hlook : peek setup (stmtStart ∪ separators ∪ stop) s₁ = (tok, s₂))
      (hends : ¬ (tok.kind = .eof ∨ stop.has tok.kind = true)) (hk : tok.kind = .newline ∨ tok.kind = .semicolon)
      (hshift : shift tok s₂ = ((), t)) : Calls setup fuel (.of (.statements stop)) s (.of (.statements stop)) t
  | statement {s s₁ t : State} {stop : KindSet} {tok : Token} (hgoing : ¬ s.halted = true)
      (hon : calledOff setup s = (false, s₁)) (hlook : peek setup (stmtStart ∪ separators ∪ stop) s₁ = (tok, t))
      (hends : ¬ (tok.kind = .eof ∨ stop.has tok.kind = true)) (hk : ¬ (tok.kind = .newline ∨ tok.kind = .semicolon)) :
      Calls setup fuel (.of (.statements stop)) s (.of .statement) t
  | nextStatement {s s₁ s₂ t : State} {stop : KindSet} {stmt : Node} {junk : Option Node}
      (h : Calls setup fuel (.of (.statements stop)) s (.of .statement) s₁)
      (hstmt : statement setup fuel s₁ = (stmt, s₂)) (hjunk : endStatement setup stop s₂ = (junk, t)) :
      Calls setup fuel (.of (.statements stop)) s (.of (.statements stop)) t
  | assign {s t : State} {tok : Token} (hlook : peek setup stmtStart s = (tok, t)) (hk : tok.kind = .assignable) :
      Calls setup fuel (.of .statement) s (.of (.assign tok)) t
  | evaluate {s t : State} {tok : Token} (hlook : peek setup stmtStart s = (tok, t))
      (hassign : ¬ tok.kind = .assignable) (hk : stmtStart.has tok.kind = true) :
      Calls setup fuel (.of .statement) s (.of .expression) t
  | value {s s₁ s₂ t : State} {tok eq : Token} (hshift : shift tok s = ((), s₁))
      (hlook : peek setup (.of [.eq]) s₁ = (eq, s₂)) (hk : eq.kind = .eq) (hshift' : shift eq s₂ = ((), t)) :
      Calls setup fuel (.of (.assign tok)) s (.of .expression) t
  | valueWithoutEq {s s₁ s₂ t : State} {tok eq : Token} {bad : Node} (hshift : shift tok s = ((), s₁))
      (hlook : peek setup (.of [.eq]) s₁ = (eq, s₂)) (hk : ¬ eq.kind = .eq)
      (hmissing : missing setup .noEquals s₂ = (bad, t)) :
      Calls setup fuel (.of (.assign tok)) s (.of .expression) t
  -- Bodies.
  | block {s t : State} {closers : KindSet} {tok : Token}
      (hlook : peek setup (stmtStart ∪ separators ∪ closers) { s with parens := 0 } = (tok, t))
      (hk : tok.kind = .newline) : Calls setup fuel (.of (.body closers)) s (.of (.statements closers)) t
  | inlined {s t : State} {closers : KindSet} {tok : Token}
      (hlook : peek setup (stmtStart ∪ separators ∪ closers) { s with parens := 0 } = (tok, t))
      (hline : ¬ tok.kind = .newline) (hk : ¬ (tok.kind = .eof ∨ closers.has tok.kind = true)) :
      Calls setup fuel (.of (.body closers)) s (.of (.inlineBody closers)) t
  | first {s : State} {closers : KindSet} : Calls setup fuel (.of (.inlineBody closers)) s (.of .statement) s
  | rest {s t : State} {closers : KindSet} {first : Node} (hfirst : statement setup fuel s = (first, t)) :
      Calls setup fuel (.of (.inlineBody closers)) s (.of (.inlineRest closers)) t
  | furtherStatement {s s₁ s₂ t : State} {closers : KindSet} {tok next : Token}
      (hlook : peek setup (separators ∪ closers) s = (tok, s₁)) (hcloser : ¬ closers.has tok.kind = true)
      (hk : ¬ tok.kind ≠ .semicolon) (hshift : shift tok s₁ = ((), s₂))
      (hnext : peek setup (stmtStart ∪ separators ∪ closers) s₂ = (next, t))
      (hopen : ¬ closers.has next.kind = true) (hstart : ¬ (!stmtStart.has next.kind) = true) :
      Calls setup fuel (.of (.inlineRest closers)) s (.of .statement) t
  | furtherRest {s s₁ t : State} {closers : KindSet} {stmt : Node}
      (h : Calls setup fuel (.of (.inlineRest closers)) s (.of .statement) s₁)
      (hstmt : statement setup fuel s₁ = (stmt, t)) :
      Calls setup fuel (.of (.inlineRest closers)) s (.of (.inlineRest closers)) t
  -- Functions and conditionals.
  | params {s t : State} {tok : Token} (hshift : shift tok s = ((), t)) :
      Calls setup fuel (.of (.functionDef tok)) s (.params { kind := .params, span := .zero }) t
  | functionBody {s s₁ s₂ s₃ t : State} {tok : Token} {list c : Node} (hshift : shift tok s = ((), s₁))
      (hlist : Grammar.params setup fuel { kind := .params, span := .zero } s₁ = (list, s₂))
      (hreduce : reduce setup .params s₂ = ((), s₃)) (hcolon : colon setup s₃ = (c, t)) :
      Calls setup fuel (.of (.functionDef tok)) s (.of (.body fnClosers)) t
  | paramName {s s₁ t : State} {node : Node} {tok : Token}
      (hlook : peek setup (.of [.identifier, .colon, .newline]) s = (tok, s₁)) (hk : tok.kind = .identifier)
      (hshift : shift tok s₁ = ((), t)) :
      Calls setup fuel (.params node) s (.params (node.push (.leaf .identifier tok))) t
  | badParam {s s₁ s₂ t : State} {node bad : Node} {tok : Token}
      (hlook : peek setup (.of [.identifier, .colon, .newline]) s = (tok, s₁)) (hk : tok.kind = .illegal)
      (hbad : complain setup (.badParameter tok) tok.span s₁ = (bad, s₂)) (hmove : moveTo tok.stop s₂ = ((), t)) :
      Calls setup fuel (.params node) s (.params (node.push bad)) t
  | condition {s t : State} {tok : Token} (hshift : shift tok s = ((), t)) :
      Calls setup fuel (.of (.ifExpr tok)) s (.of (.binary lowest false)) t
  | thenBody {s s₁ s₂ t : State} {tok : Token} {condition c : Node} (hshift : shift tok s = ((), s₁))
      (hcondition : binary setup lowest false fuel s₁ = (condition, s₂)) (hcolon : colon setup s₂ = (c, t)) :
      Calls setup fuel (.of (.ifExpr tok)) s (.of (.body ifClosers)) t
  | branches {s s₁ s₂ s₃ s₄ t : State} {tok : Token} {condition c stmts : Node} {body : List Node × Bool}
      (hshift : shift tok s = ((), s₁)) (hcondition : binary setup lowest false fuel s₁ = (condition, s₂))
      (hcolon : colon setup s₂ = (c, s₃)) (hbody : Grammar.body setup ifClosers fuel s₃ = (body, s₄))
      (hblock : thenBlock body.1 s₄ = (stmts, t)) :
      Calls setup fuel (.of (.ifExpr tok)) s (.of (.branches
        ((((Node.branch .ifExpr [.leaf .keyword tok]).push condition).push c).push stmts) body.2 false)) t
  | elsifCondition {s s₁ t : State} {node : Node} {block seenElse : Bool} {tok : Token}
      (hlook : peek setup (branchStart block seenElse) s = (tok, s₁)) (hk : tok.kind = .kwElsif)
      (hshift : shift tok s₁ = ((), t)) :
      Calls setup fuel (.of (.branches node block seenElse)) s (.of (.binary lowest false)) t
  | elsifBody {s s₁ s₂ s₃ t : State} {node condition c : Node} {block seenElse : Bool} {tok : Token}
      (hlook : peek setup (branchStart block seenElse) s = (tok, s₁)) (hk : tok.kind = .kwElsif)
      (hshift : shift tok s₁ = ((), s₂)) (hcondition : binary setup lowest false fuel s₂ = (condition, s₃))
      (hcolon : colon setup s₃ = (c, t)) :
      Calls setup fuel (.of (.branches node block seenElse)) s (.of (.body ifClosers)) t
  | nextElsif {s s₁ s₂ s₃ s₄ s₅ t : State} {node condition c stmts : Node} {block seenElse : Bool} {tok : Token}
      {body : List Node × Bool} (hlook : peek setup (branchStart block seenElse) s = (tok, s₁))
      (hk : tok.kind = .kwElsif) (hshift : shift tok s₁ = ((), s₂))
      (hcondition : binary setup lowest false fuel s₂ = (condition, s₃)) (hcolon : colon setup s₃ = (c, s₄))
      (hbody : Grammar.body setup ifClosers fuel s₄ = (body, s₅)) (hblock : thenBlock body.1 s₅ = (stmts, t)) :
      Calls setup fuel (.of (.branches node block seenElse)) s (.of (.branches (node.push
        ((((Node.branch .elsifExpr [.leaf .keyword tok]).push condition).push c).push stmts))
        (block || body.2) seenElse)) t
  | elseBody {s s₁ s₂ t : State} {node c : Node} {block seenElse : Bool} {tok : Token}
      (hlook : peek setup (branchStart block seenElse) s = (tok, s₁)) (hk : tok.kind = .kwElse)
      (hshift : shift tok s₁ = ((), s₂)) (hcolon : colon setup s₂ = (c, t)) :
      Calls setup fuel (.of (.branches node block seenElse)) s (.of (.body fnClosers)) t
  | nextElse {s s₁ s₂ s₃ s₄ t : State} {node c stmts : Node} {block seenElse : Bool} {tok : Token}
      {body : List Node × Bool} (hlook : peek setup (branchStart block seenElse) s = (tok, s₁))
      (hk : tok.kind = .kwElse) (hshift : shift tok s₁ = ((), s₂)) (hcolon : colon setup s₂ = (c, s₃))
      (hbody : Grammar.body setup fnClosers fuel s₃ = (body, s₄)) (hblock : thenBlock body.1 s₄ = (stmts, t)) :
      Calls setup fuel (.of (.branches node block seenElse)) s (.of (.branches (node.push
        (((Node.branch .elseExpr [.leaf .keyword tok]).push c).push stmts)) (block || body.2) true)) t
  -- Expressions.
  | left {s : State} : Calls setup fuel (.of .expression) s (.of (.binary lowest true)) s
  | stages {s s₁ t : State} {left : Node} {tok : Token} (hleft : binary setup lowest true fuel s = (left, s₁))
      (hlook : peek setup stageEnd s₁ = (tok, t)) (hk : tok.kind = .pipe) :
      Calls setup fuel (.of .expression) s (.of (.stages (.branch .pipeExpr [left]) tok)) t
  | stage {s t : State} {node : Node} {tok : Token} (hshift : shift tok s = ((), t)) :
      Calls setup fuel (.of (.stages node tok)) s (.of (.binary lowest true)) t
  | nextStage {s s₁ s₂ t : State} {node value : Node} {tok next : Token} (hshift : shift tok s = ((), s₁))
      (hvalue : binary setup lowest true fuel s₁ = (value, s₂)) (hlook : peek setup stageEnd s₂ = (next, t))
      (hk : next.kind = .pipe) :
      Calls setup fuel (.of (.stages node tok)) s (.of (.stages ((node.push (.leaf .operator tok)).push value) next)) t
  | operand {s t : State} {minPrec : Nat} {callable : Bool} {tok : Token} (hlook : peek setup exprStart s = (tok, t)) :
      Calls setup fuel (.of (.binary minPrec callable)) s (.of (.operand tok callable)) t
  | operators {s s₁ t : State} {minPrec : Nat} {callable : Bool} {tok : Token} {left : Node}
      (hlook : peek setup exprStart s = (tok, s₁)) (hleft : Grammar.operand setup tok callable fuel s₁ = (left, t)) :
      Calls setup fuel (.of (.binary minPrec callable)) s (.of (.operators minPrec left)) t
  | right {s s₁ t : State} {minPrec : Nat} {left : Node} {tok : Token}
      (hlook : peek setup (binaryOps ∪ separators) s = (tok, s₁))
      (hprec : ¬ (precedence tok.kind = 0 ∨ precedence tok.kind < minPrec)) (hshift : shift tok s₁ = ((), t)) :
      Calls setup fuel (.of (.operators minPrec left)) s (.of (.binary (precedence tok.kind + 1) false)) t
  | nextOperator {s s₁ s₂ t : State} {minPrec : Nat} {left right : Node} {tok : Token}
      (hlook : peek setup (binaryOps ∪ separators) s = (tok, s₁))
      (hprec : ¬ (precedence tok.kind = 0 ∨ precedence tok.kind < minPrec)) (hshift : shift tok s₁ = ((), s₂))
      (hright : binary setup (precedence tok.kind + 1) false fuel s₂ = (right, t)) :
      Calls setup fuel (.of (.operators minPrec left)) s (.of (.operators minPrec
        (.branch (operatorNode (precedence tok.kind)) [left, .leaf .operator tok, right]))) t
  -- Operands.
  | operandBody {s : State} {tok : Token} {callable : Bool} (hdepth : ¬ setup.maxDepth < (s.depth : Int) + 1) :
      Calls setup fuel (.of (.operand tok callable)) s (.of (.operandBody tok callable)) { s with depth := s.depth + 1 }
  | string {s t : State} {tok : Token} {callable : Bool} (hk : tok.kind = .quote) (hshift : shift tok s = ((), t)) :
      Calls setup fuel (.of (.operandBody tok callable)) s
        (.of (.stringPieces (tok.text.headD 0).toNat { kind := .string, span := tok.span })) t
  | word {s t : State} {tok : Token} {callable : Bool} (hk : tok.kind = .word) (hmove : moveTo tok.start s = ((), t)) :
      Calls setup fuel (.of (.operandBody tok callable)) s
        (.of (.wordPieces { kind := .word, span := .point tok.start })) t
  | call {s t : State} {tok : Token} (hk : tok.kind = .identifier) (hshift : shift tok s = ((), t)) :
      Calls setup fuel (.of (.operandBody tok true)) s (.of (.call (.leaf .identifier tok))) t
  | group {s t : State} {tok : Token} {callable : Bool} (hk : tok.kind = .openParen) (hshift : shift tok s = ((), t)) :
      Calls setup fuel (.of (.operandBody tok callable)) s (.of (.parenBody tok.span)) t
  | function {s : State} {tok : Token} {callable : Bool} (hk : tok.kind = .kwFn) :
      Calls setup fuel (.of (.operandBody tok callable)) s (.of (.functionDef tok)) s
  | conditional {s : State} {tok : Token} {callable : Bool} (hk : tok.kind = .kwIf) :
      Calls setup fuel (.of (.operandBody tok callable)) s (.of (.ifExpr tok)) s
  -- Calls.
  | args {s t : State} {id : Node} {tok : Token} (hglued : ¬ glued setup id = true)
      (hlook : peek setup (argStart ∪ binaryOps ∪ stageEnd) s = (tok, t)) (hk : argStart.has tok.kind = true) :
      Calls setup fuel (.of (.call id)) s (.of (.args (.branch .functionCall [id]) tok)) t
  | arg {s : State} {node : Node} {tok : Token} : Calls setup fuel (.of (.args node tok)) s (.of (.arg tok)) s
  | nextArg {s s₁ t : State} {node a : Node} {tok next : Token} (harg : Grammar.arg setup tok fuel s = (a, s₁))
      (hlook : peek setup (argStart ∪ stageEnd) s₁ = (next, t)) (hk : argStart.has next.kind = true) :
      Calls setup fuel (.of (.args node tok)) s (.of (.args (node.push a) next)) t
  | positional {s : State} {tok : Token} (hk : tok.kind ≠ .argName) :
      Calls setup fuel (.of (.arg tok)) s (.of (.operand tok false)) s
  | named {s s₁ t : State} {tok value : Token} (hk : ¬ tok.kind ≠ .argName) (hshift : shift tok s = ((), s₁))
      (hlook : peek setup (argStart ∪ stageEnd) s₁ = (value, t))
      (hvalue : ¬ (value.start ≠ t.pos ∨ (!exprStart.has value.kind) = true)) :
      Calls setup fuel (.of (.arg tok)) s (.of (.operand value false)) t
  -- Groups, strings and words.
  | inside {s t : State} {opening : Span} {tok : Token}
      (hlook : peek setup (.of [.closeParen]) { s with parens := s.parens + 1 } = (tok, t))
      (hk : ¬ tok.kind = .closeParen) : Calls setup fuel (.of (.parenBody opening)) s (.of .expression) t
  | junk {s s₁ t : State} {opening : Span} {tok : Token} {value : Node}
      (hlook : peek setup (.of [.closeParen]) { s with parens := s.parens + 1 } = (tok, s₁))
      (hk : ¬ tok.kind = .closeParen) (hvalue : expression setup fuel s₁ = (value, t)) :
      Calls setup fuel (.of (.parenBody opening)) s
        (.junk (({ kind := .parenExpr, span := opening } : Node).push value)) t
  | moreJunk {s s₁ t : State} {node bad : Node} {tok : Token} (hlook : peek setup (.of [.closeParen]) s = (tok, s₁))
      (hends : ¬ (tok.kind = .closeParen ∨ tok.kind = .eof ∨ s₁.halted = true))
      (hskip : skipStatement setup (.unexpected tok) s₁ = (bad, t)) :
      Calls setup fuel (.junk node) s (.junk (node.push bad)) t
  | stringText {s t : State} {quote : Nat} {node : Node}
      (hk : (Token.stringPiece setup.src s.pos quote).kind = .fragment)
      (hadvance : advance (Token.stringPiece setup.src s.pos quote) s = ((), t)) :
      Calls setup fuel (.of (.stringPieces quote node)) s
        (.of (.stringPieces quote (node.push (.leaf .stringFragment (Token.stringPiece setup.src s.pos quote))))) t
  | stringPart {s : State} {quote : Nat} {node : Node}
      (hk : (Token.stringPiece setup.src s.pos quote).kind ∉ [Token.Kind.quote, .eof, .fragment]) :
      Calls setup fuel (.of (.stringPieces quote node)) s (.of (.piece (Token.stringPiece setup.src s.pos quote))) s
  | nextStringPart {s t : State} {quote : Nat} {node part : Node}
      (hk : (Token.stringPiece setup.src s.pos quote).kind ∉ [Token.Kind.quote, .eof, .fragment])
      (hpiece : piece setup (Token.stringPiece setup.src s.pos quote) fuel s = (part, t)) :
      Calls setup fuel (.of (.stringPieces quote node)) s (.of (.stringPieces quote (node.push part))) t
  | wordText {s t : State} {node : Node} (hk : (Token.wordPiece setup.src s.pos).kind = .fragment)
      (hadvance : advance (Token.wordPiece setup.src s.pos) s = ((), t)) :
      Calls setup fuel (.of (.wordPieces node)) s
        (.of (.wordPieces (node.push (.leaf .wordFragment (Token.wordPiece setup.src s.pos))))) t
  | wordPart {s : State} {node : Node}
      (hk : (Token.wordPiece setup.src s.pos).kind ∉ [Token.Kind.fragmentEnd, .fragment]) :
      Calls setup fuel (.of (.wordPieces node)) s (.of (.piece (Token.wordPiece setup.src s.pos))) s
  | nextWordPart {s t : State} {node part : Node}
      (hk : (Token.wordPiece setup.src s.pos).kind ∉ [Token.Kind.fragmentEnd, .fragment])
      (hpiece : piece setup (Token.wordPiece setup.src s.pos) fuel s = (part, t)) :
      Calls setup fuel (.of (.wordPieces node)) s (.of (.wordPieces (node.push part))) t
  | interpolated {s t : State} {tok : Token} (hk : tok.kind = .interpOpen) (hadvance : advance tok s = ((), t)) :
      Calls setup fuel (.of (.piece tok)) s (.of (.parenBody ⟨tok.start + 1, tok.stop⟩)) t

/-- An empty line takes one turn of the statements, and the next turn is at the end. -/
example : ∃ t, Calls { src := "\n", policy := .plain } 0 (.of (.statements .empty))
    (.start { src := "\n", policy := .plain }) (.of (.statements .empty)) t ∧ t.pos = 1 :=
  ⟨_, .separator (by decide) rfl rfl (by decide) (by decide) rfl, rfl⟩

/-! ## What an answer depends on -/

/-- With one fuel and with another one, what a task calls answers the same. -/
def CallsAgree (setup : Setup) (fuel fuel' : Nat) (x : Task) (s : State) : Prop :=
  ∀ y t, Calls setup fuel x s y t → y.run setup fuel t = y.run setup fuel' t

section
variable {α β : Type} {s : State}

theorem bind_agrees {x y : Parse α} {f g : α → Parse β} (hx : x s = y s)
    (hf : ∀ a t, x s = (a, t) → f a t = g a t) : (x >>= f) s = (y >>= g) s := by
  change f (x s).1 (x s).2 = g (y s).1 (y s).2
  rw [← hx]
  exact hf _ _ rfl

theorem get_agrees {f g : State → Parse α} (h : f s s = g s s) : (get >>= f) s = (get >>= g) s := h

theorem ite_agrees {c : Prop} [Decidable c] {x y x' y' : Parse α} (hx : c → x s = x' s) (hy : ¬ c → y s = y' s) :
    (if c then x else y) s = (if c then x' else y') s := by
  by_cases hc : c
  · rw [if_pos hc, if_pos hc]
    exact hx hc
  · rw [if_neg hc, if_neg hc]
    exact hy hc

end

variable {setup : Setup} {fuel fuel' : Nat} {s : State}

theorem statements_congr {stop : KindSet} (h : CallsAgree setup fuel fuel' (.of (.statements stop)) s) :
    statements setup stop (fuel + 1) s = statements setup stop (fuel' + 1) s := by
  rw [statements, statements]
  refine get_agrees (ite_agrees (fun _ => rfl) fun hgoing => bind_agrees rfl fun off s₁ hoff => ?_)
  refine ite_agrees (fun _ => rfl) fun hon => ?_
  obtain rfl : off = false := Bool.eq_false_iff.mpr hon
  refine bind_agrees rfl fun tok s₂ hlook => ite_agrees (fun _ => rfl) fun hends => ?_
  refine ite_agrees (fun hk => ?_) fun hk => ?_
  · exact bind_agrees rfl fun _ t hshift => h _ _ (.separator hgoing hoff hlook hends hk hshift)
  · have hcall : Calls setup fuel (.of (.statements stop)) s (.of .statement) s₂ :=
      .statement hgoing hoff hlook hends hk
    refine bind_agrees (h _ _ hcall) fun stmt s₃ hstmt => bind_agrees rfl fun junk t hjunk => ?_
    exact bind_agrees (h _ _ (.nextStatement hcall hstmt hjunk)) fun _ _ _ => rfl

theorem statement_congr (h : CallsAgree setup fuel fuel' (.of .statement) s) :
    statement setup (fuel + 1) s = statement setup (fuel' + 1) s := by
  rw [statement, statement]
  refine bind_agrees rfl fun tok t hlook => ite_agrees (fun hk => h _ _ (.assign hlook hk)) fun hassign => ?_
  refine ite_agrees (fun _ => rfl) fun hk => h _ _ (.evaluate hlook hassign ?_)
  simpa using hk

theorem assign_congr {tok : Token} (h : CallsAgree setup fuel fuel' (.of (.assign tok)) s) :
    assign setup tok (fuel + 1) s = assign setup tok (fuel' + 1) s := by
  rw [assign, assign]
  refine bind_agrees rfl fun _ s₁ hshift => bind_agrees rfl fun eq s₂ hlook => ite_agrees (fun hk => ?_) fun hk => ?_
  · refine bind_agrees rfl fun _ t hshift' => bind_agrees rfl fun op u hop => ?_
    obtain rfl : t = u := congrArg Prod.snd hop
    exact bind_agrees (h _ _ (.value hshift hlook hk hshift')) fun _ _ _ => rfl
  · refine bind_agrees rfl fun bad t hmissing => ?_
    exact bind_agrees (h _ _ (.valueWithoutEq hshift hlook hk hmissing)) fun _ _ _ => rfl

theorem body_congr {closers : KindSet} (h : CallsAgree setup fuel fuel' (.of (.body closers)) s) :
    body setup closers (fuel + 1) s = body setup closers (fuel' + 1) s := by
  rw [body, body]
  refine get_agrees (bind_agrees rfl fun _ s₁ hzero => bind_agrees rfl fun tok t hlook => ?_)
  obtain rfl : s₁ = { s with parens := 0 } := (congrArg Prod.snd hzero).symm
  refine ite_agrees (fun hk => ?_) fun hline => ite_agrees (fun _ => rfl) fun hk => ?_
  · exact bind_agrees (h _ _ (.block hlook hk)) fun _ _ _ => rfl
  · exact bind_agrees (h _ _ (.inlined hlook hline hk)) fun _ _ _ => rfl

theorem inlineBody_congr {closers : KindSet} (h : CallsAgree setup fuel fuel' (.of (.inlineBody closers)) s) :
    inlineBody setup closers (fuel + 1) s = inlineBody setup closers (fuel' + 1) s := by
  rw [inlineBody, inlineBody]
  refine bind_agrees (h _ _ .first) fun first t hfirst => get_agrees ?_
  exact bind_agrees (h _ _ (.rest hfirst)) fun _ _ _ => rfl

theorem inlineRest_congr {closers : KindSet} (h : CallsAgree setup fuel fuel' (.of (.inlineRest closers)) s) :
    inlineRest setup closers (fuel + 1) s = inlineRest setup closers (fuel' + 1) s := by
  rw [inlineRest, inlineRest]
  refine bind_agrees rfl fun tok s₁ hlook => ite_agrees (fun _ => rfl) fun hcloser => ?_
  refine ite_agrees (fun _ => rfl) fun hk => ?_
  refine bind_agrees rfl fun _ s₂ hshift => bind_agrees rfl fun next t hnext => ?_
  refine ite_agrees (fun _ => rfl) fun hopen => ite_agrees (fun _ => rfl) fun hstart => ?_
  have hcall : Calls setup fuel (.of (.inlineRest closers)) s (.of .statement) t :=
    .furtherStatement hlook hcloser hk hshift hnext hopen hstart
  refine bind_agrees (h _ _ hcall) fun stmt u hstmt => ?_
  exact bind_agrees (h _ _ (.furtherRest hcall hstmt)) fun _ _ _ => rfl

theorem functionDef_congr {tok : Token} (h : CallsAgree setup fuel fuel' (.of (.functionDef tok)) s) :
    functionDef setup tok (fuel + 1) s = functionDef setup tok (fuel' + 1) s := by
  rw [functionDef, functionDef]
  refine bind_agrees rfl fun _ s₁ hshift => bind_agrees (h _ _ (.params hshift)) fun list s₂ hlist => get_agrees ?_
  refine bind_agrees rfl fun _ s₃ hreduce => bind_agrees rfl fun c t hcolon => ?_
  exact bind_agrees (h _ _ (.functionBody hshift hlist hreduce hcolon)) fun _ _ _ => rfl

theorem params_congr {node : Node} (h : CallsAgree setup fuel fuel' (.params node) s) :
    params setup (fuel + 1) node s = params setup (fuel' + 1) node s := by
  rw [params, params]
  refine bind_agrees rfl fun tok s₁ hlook => ite_agrees (fun hk => ?_) fun _ => ite_agrees (fun hk => ?_) fun _ => rfl
  · exact bind_agrees rfl fun _ t hshift => h _ _ (.paramName hlook hk hshift)
  · refine bind_agrees rfl fun bad s₂ hbad => bind_agrees rfl fun _ t hmove => ?_
    exact h _ _ (.badParam hlook hk hbad hmove)

theorem ifExpr_congr {tok : Token} (h : CallsAgree setup fuel fuel' (.of (.ifExpr tok)) s) :
    ifExpr setup tok (fuel + 1) s = ifExpr setup tok (fuel' + 1) s := by
  rw [ifExpr, ifExpr]
  refine bind_agrees rfl fun _ s₁ hshift => bind_agrees (h _ _ (.condition hshift)) fun condition s₂ hcondition => ?_
  refine bind_agrees rfl fun c s₃ hcolon => ?_
  refine bind_agrees (h _ _ (.thenBody hshift hcondition hcolon)) fun result s₄ hbody => ?_
  exact bind_agrees rfl fun stmts t hblock => h _ _ (.branches hshift hcondition hcolon hbody hblock)

theorem branches_congr {node : Node} {block seenElse : Bool}
    (h : CallsAgree setup fuel fuel' (.of (.branches node block seenElse)) s) :
    branches setup node block seenElse (fuel + 1) s = branches setup node block seenElse (fuel' + 1) s := by
  rw [branches, branches]
  refine bind_agrees rfl fun tok s₁ hlook => ite_agrees (fun hk => ?_) fun _ => ite_agrees (fun hk => ?_) fun _ => rfl
  · refine bind_agrees rfl fun _ s₂ hshift => ?_
    refine bind_agrees (h _ _ (.elsifCondition hlook hk hshift)) fun condition s₃ hcondition => ?_
    refine bind_agrees rfl fun c s₄ hcolon => ?_
    refine bind_agrees (h _ _ (.elsifBody hlook hk hshift hcondition hcolon)) fun result s₅ hbody => ?_
    exact bind_agrees rfl fun stmts t hblock => h _ _ (.nextElsif hlook hk hshift hcondition hcolon hbody hblock)
  · refine bind_agrees rfl fun _ s₂ hshift => bind_agrees rfl fun c s₃ hcolon => ?_
    refine bind_agrees (h _ _ (.elseBody hlook hk hshift hcolon)) fun result s₄ hbody => ?_
    exact bind_agrees rfl fun stmts t hblock => h _ _ (.nextElse hlook hk hshift hcolon hbody hblock)

theorem expression_congr (h : CallsAgree setup fuel fuel' (.of .expression) s) :
    expression setup (fuel + 1) s = expression setup (fuel' + 1) s := by
  rw [expression, expression]
  refine bind_agrees (h _ _ .left) fun left s₁ hleft => bind_agrees rfl fun tok t hlook => ?_
  exact ite_agrees (fun hk => h _ _ (.stages hleft hlook hk)) fun _ => rfl

theorem stages_congr {node : Node} {tok : Token} (h : CallsAgree setup fuel fuel' (.of (.stages node tok)) s) :
    stages setup node tok (fuel + 1) s = stages setup node tok (fuel' + 1) s := by
  rw [stages, stages]
  refine bind_agrees rfl fun _ s₁ hshift => bind_agrees (h _ _ (.stage hshift)) fun value s₂ hvalue => ?_
  refine bind_agrees rfl fun next t hlook => ?_
  exact ite_agrees (fun hk => h _ _ (.nextStage hshift hvalue hlook hk)) fun _ => rfl

theorem binary_congr {minPrec : Nat} {callable : Bool}
    (h : CallsAgree setup fuel fuel' (.of (.binary minPrec callable)) s) :
    binary setup minPrec callable (fuel + 1) s = binary setup minPrec callable (fuel' + 1) s := by
  rw [binary, binary]
  refine bind_agrees rfl fun tok s₁ hlook => bind_agrees (h _ _ (.operand hlook)) fun left t hleft => ?_
  exact bind_agrees (h _ _ (.operators hlook hleft)) fun _ _ _ => rfl

theorem operators_congr {minPrec : Nat} {left : Node}
    (h : CallsAgree setup fuel fuel' (.of (.operators minPrec left)) s) :
    operators setup minPrec left (fuel + 1) s = operators setup minPrec left (fuel' + 1) s := by
  rw [operators, operators]
  refine bind_agrees rfl fun tok s₁ hlook => ite_agrees (fun _ => rfl) fun hprec => ?_
  refine bind_agrees rfl fun _ s₂ hshift => bind_agrees (h _ _ (.right hlook hprec hshift)) fun right t hright => ?_
  exact bind_agrees (h _ _ (.nextOperator hlook hprec hshift hright)) fun _ _ _ => rfl

theorem operand_congr {tok : Token} {callable : Bool}
    (h : CallsAgree setup fuel fuel' (.of (.operand tok callable)) s) :
    operand setup tok callable (fuel + 1) s = operand setup tok callable (fuel' + 1) s := by
  rw [operand, operand]
  refine get_agrees (ite_agrees (fun _ => rfl) fun hdepth => bind_agrees rfl fun _ t hdeeper => ?_)
  obtain rfl : t = { s with depth := s.depth + 1 } := (congrArg Prod.snd hdeeper).symm
  exact bind_agrees (h _ _ (.operandBody hdepth)) fun _ _ _ => rfl

theorem operandBody_congr {tok : Token} {callable : Bool}
    (h : CallsAgree setup fuel fuel' (.of (.operandBody tok callable)) s) :
    operandBody setup tok callable (fuel + 1) s = operandBody setup tok callable (fuel' + 1) s := by
  rw [operandBody, operandBody]
  cases hk : tok.kind with
  | quote => exact bind_agrees rfl fun _ t hshift => h _ _ (.string hk hshift)
  | word => exact bind_agrees rfl fun _ t hmove => h _ _ (.word hk hmove)
  | identifier =>
    refine bind_agrees rfl fun _ t hshift => ?_
    cases callable with
    | true => exact h _ _ (.call hk hshift)
    | false => rfl
  | openParen => exact bind_agrees rfl fun _ t hshift => h _ _ (.group hk hshift)
  | kwFn => exact h _ _ (.function hk)
  | kwIf => exact h _ _ (.conditional hk)
  | _ => rfl

theorem call_congr {id : Node} (h : CallsAgree setup fuel fuel' (.of (.call id)) s) :
    call setup id (fuel + 1) s = call setup id (fuel' + 1) s := by
  rw [call, call]
  refine ite_agrees (fun _ => rfl) fun hglued => bind_agrees rfl fun tok t hlook => ?_
  exact ite_agrees (fun hk => h _ _ (.args hglued hlook hk)) fun _ => rfl

theorem args_congr {node : Node} {tok : Token} (h : CallsAgree setup fuel fuel' (.of (.args node tok)) s) :
    args setup node tok (fuel + 1) s = args setup node tok (fuel' + 1) s := by
  rw [args, args]
  refine bind_agrees (h _ _ .arg) fun a s₁ harg => bind_agrees rfl fun next t hlook => ?_
  exact ite_agrees (fun hk => h _ _ (.nextArg harg hlook hk)) fun _ => rfl

theorem arg_congr {tok : Token} (h : CallsAgree setup fuel fuel' (.of (.arg tok)) s) :
    arg setup tok (fuel + 1) s = arg setup tok (fuel' + 1) s := by
  rw [arg, arg]
  refine ite_agrees (fun hk => bind_agrees (h _ _ (.positional hk)) fun _ _ _ => rfl) fun hk => ?_
  refine bind_agrees rfl fun _ s₁ hshift => bind_agrees rfl fun value t hlook => get_agrees ?_
  refine ite_agrees (fun _ => rfl) fun hvalue => ?_
  exact bind_agrees (h _ _ (.named hk hshift hlook hvalue)) fun _ _ _ => rfl

theorem parenBody_congr {opening : Span} (h : CallsAgree setup fuel fuel' (.of (.parenBody opening)) s) :
    parenBody setup opening (fuel + 1) s = parenBody setup opening (fuel' + 1) s := by
  rw [parenBody, parenBody]
  refine bind_agrees rfl fun _ s₁ henter => bind_agrees rfl fun tok s₂ hlook => ?_
  obtain rfl : s₁ = { s with parens := s.parens + 1 } := (congrArg Prod.snd henter).symm
  refine ite_agrees (fun _ => rfl) fun hk => ?_
  refine bind_agrees (h _ _ (.inside hlook hk)) fun value t hvalue => ?_
  exact bind_agrees (h _ _ (.junk hlook hk hvalue)) fun _ _ _ => rfl

theorem parenJunk_congr {node : Node} (h : CallsAgree setup fuel fuel' (.junk node) s) :
    parenJunk setup node (fuel + 1) s = parenJunk setup node (fuel' + 1) s := by
  rw [parenJunk, parenJunk]
  refine bind_agrees rfl fun tok s₁ hlook => get_agrees (ite_agrees (fun _ => rfl) fun hends => ?_)
  exact bind_agrees rfl fun bad t hskip => h _ _ (.moreJunk hlook hends hskip)

theorem stringPieces_congr {quote : Nat} {node : Node}
    (h : CallsAgree setup fuel fuel' (.of (.stringPieces quote node)) s) :
    stringPieces setup quote node (fuel + 1) s = stringPieces setup quote node (fuel' + 1) s := by
  rw [stringPieces, stringPieces]
  refine get_agrees ?_
  dsimp only
  cases hk : (Token.stringPiece setup.src s.pos quote).kind with
  | quote | eof => rfl
  | fragment => exact bind_agrees rfl fun _ t hadvance => h _ _ (.stringText hk hadvance)
  | _ =>
    have hpart : (Token.stringPiece setup.src s.pos quote).kind ∉ [Token.Kind.quote, .eof, .fragment] := by
      rw [hk]
      decide
    refine bind_agrees (h _ _ (.stringPart hpart)) fun part t hpiece => ?_
    exact h _ _ (.nextStringPart hpart hpiece)

theorem wordPieces_congr {node : Node} (h : CallsAgree setup fuel fuel' (.of (.wordPieces node)) s) :
    wordPieces setup node (fuel + 1) s = wordPieces setup node (fuel' + 1) s := by
  rw [wordPieces, wordPieces]
  refine get_agrees ?_
  dsimp only
  cases hk : (Token.wordPiece setup.src s.pos).kind with
  | fragmentEnd => rfl
  | fragment => exact bind_agrees rfl fun _ t hadvance => h _ _ (.wordText hk hadvance)
  | _ =>
    have hpart : (Token.wordPiece setup.src s.pos).kind ∉ [Token.Kind.fragmentEnd, .fragment] := by
      rw [hk]
      decide
    refine bind_agrees (h _ _ (.wordPart hpart)) fun part t hpiece => ?_
    exact h _ _ (.nextWordPart hpart hpiece)

theorem piece_congr {tok : Token} (h : CallsAgree setup fuel fuel' (.of (.piece tok)) s) :
    piece setup tok (fuel + 1) s = piece setup tok (fuel' + 1) s := by
  rw [piece, piece]
  refine bind_agrees rfl fun _ t hadvance => ?_
  cases hk : tok.kind with
  | interpOpen => exact bind_agrees (h _ _ (.interpolated hk hadvance)) fun _ _ _ => rfl
  | _ => rfl

/-- What a task answers depends on nothing but what its calls answer. -/
theorem Task.run_congr {x : Task} (h : CallsAgree setup fuel fuel' x s) :
    x.run setup (fuel + 1) s = x.run setup (fuel' + 1) s := by
  cases x with
  | params node => exact params_congr h
  | junk node => exact parenJunk_congr h
  | of p =>
    cases p with
    | statements stop => exact statements_congr h
    | statement => exact statement_congr h
    | assign tok => exact assign_congr h
    | body closers => exact body_congr h
    | inlineBody closers => exact inlineBody_congr h
    | inlineRest closers => exact inlineRest_congr h
    | functionDef tok => exact functionDef_congr h
    | ifExpr tok => exact ifExpr_congr h
    | branches node block seenElse => exact branches_congr h
    | expression => exact expression_congr h
    | stages node tok => exact stages_congr h
    | binary minPrec callable => exact binary_congr h
    | operators minPrec left => exact operators_congr h
    | operand tok callable => exact operand_congr h
    | operandBody tok callable => exact operandBody_congr h
    | call id => exact call_congr h
    | args node tok => exact args_congr h
    | arg tok => exact arg_congr h
    | parenBody opening => exact parenBody_congr h
    | stringPieces quote node => exact stringPieces_congr h
    | wordPieces node => exact wordPieces_congr h
    | piece tok => exact piece_congr h

/-! ## Loops -/

/-- The loops of the parser. -/
inductive Loop where
  | statements
  | inlineRest
  | params
  | branches
  | stages
  | operators
  | args
  | junk
  | stringPieces
  | wordPieces
  deriving DecidableEq, Repr

/-- The loop that a task is a turn of. -/
def Task.loop? : Task → Option Loop
  | of (.statements _) => some .statements
  | of (.inlineRest _) => some .inlineRest
  | params _ => some .params
  | of (.branches _ _ _) => some .branches
  | of (.stages _ _) => some .stages
  | of (.operators _ _) => some .operators
  | of (.args _ _) => some .args
  | junk _ => some .junk
  | of (.stringPieces _ _) => some .stringPieces
  | of (.wordPieces _) => some .wordPieces
  | _ => none

end Bareword.Tree.Grammar
