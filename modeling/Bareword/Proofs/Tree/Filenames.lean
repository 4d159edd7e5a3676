import Bareword.Proofs.Tree.Adequacy

/-! # File names in a parse

The name of the file that a source is from is written into the faults of a parse, and nothing looks at it.

* `Setup.named`: a parse of the same source from another file.
* `Indifferent`: two steps that differ in the file of the faults they record only.
* `indifferent_production`: every production is such a step, with any fuel.
* `parse_named`: the parse of a source from another file.
-/

namespace Bareword
set_option autoImplicit false

def Report.SyntaxFault.named (filename : Text) (e : Report.SyntaxFault) : Report.SyntaxFault :=
  { e with location := { e.location with filename } }

namespace Tree.Parsing

/-- The same parse of a source from another file. -/
def Setup.named (filename : Text) (setup : Setup) : Setup := { setup with filename }

def State.named (filename : Text) (s : State) : State := { s with faults := s.faults.map (·.named filename) }

/-- The second step does what the first one does and records its faults for another file. -/
def Indifferent {α : Type} (filename : Text) (x y : Parse α) : Prop :=
  ∀ s, y (s.named filename) = ((x s).1, (x s).2.named filename)

variable {α β : Type} {filename : Text} {setup : Setup}

namespace Indifferent

theorem pure (a : α) : Indifferent filename (Pure.pure a : Parse α) (Pure.pure a) := fun _ => rfl

theorem bind {x y : Parse α} {f g : α → Parse β} (h : Indifferent filename x y)
    (hrest : ∀ a, Indifferent filename (f a) (g a)) : Indifferent filename (x >>= f) (y >>= g) := by
  intro s
  change g (y (s.named filename)).1 (y (s.named filename)).2 = _
  rw [h s]
  exact hrest (x s).1 (x s).2

theorem get {f g : State → Parse α} (h : ∀ s, Indifferent filename (f s) (g (s.named filename))) :
    Indifferent filename (get >>= f) (get >>= g) :=
  fun s => h s s

theorem ite {c : Prop} [Decidable c] {x x' y y' : Parse α} (hx : Indifferent filename x y)
    (hx' : Indifferent filename x' y') : Indifferent filename (if c then x else x') (if c then y else y') := by
  by_cases hc : c
  · rw [if_pos hc, if_pos hc]
    exact hx
  · rw [if_neg hc, if_neg hc]
    exact hx'

theorem modify {f : State → State} (h : ∀ s, f (s.named filename) = (f s).named filename) :
    Indifferent filename (modify f : Parse Unit) (modify f) :=
  fun s => congrArg (Prod.mk ()) (h s)

end Indifferent

/-! ## Steps -/

theorem indifferent_peek (accept : Token.KindSet) :
    Indifferent filename (peek setup accept) (peek (setup.named filename) accept) := by
  intro s
  -- The source is the same, and the memo holds no faults.
  change (if setup.policy.memoize then _ else _) = Prod.mk (if setup.policy.memoize then _ else _ : Token × State).1
    (State.named filename (if setup.policy.memoize then _ else _ : Token × State).2)
  cases setup.policy.memoize <;> rfl

theorem indifferent_shift (tok : Token) : Indifferent filename (shift tok) (shift tok) := .modify fun _ => rfl

theorem indifferent_advance (tok : Token) : Indifferent filename (advance tok) (advance tok) := .modify fun _ => rfl

theorem indifferent_moveTo (pos : Nat) : Indifferent filename (moveTo pos) (moveTo pos) := .modify fun _ => rfl

theorem indifferent_reduce (kind : Kind) :
    Indifferent filename (reduce setup kind) (reduce (setup.named filename) kind) := .modify fun _ => rfl

theorem indifferent_restore (mark : State) :
    Indifferent filename (restore setup mark) (restore (setup.named filename) (mark.named filename)) := by
  intro s
  change Prod.mk () (if setup.policy.keepScopes then _ else _) =
    Prod.mk () (State.named filename (if setup.policy.keepScopes then _ else _))
  cases setup.policy.keepScopes <;> rfl

/-- The faults after one more. -/
def recorded (filename src : Text) (faults : List Report.SyntaxFault) (c : Complaint) (span : Span) :
    List Report.SyntaxFault :=
  if faults.length < maxFaults then
    faults ++ [Report.SyntaxFault.ofSpan filename src span c.code c.message]
  else faults

theorem recorded_named (src : Text) (faults : List Report.SyntaxFault) (c : Complaint) (span : Span) (old : Text) :
    recorded filename src (faults.map (·.named filename)) c span =
      (recorded old src faults c span).map (·.named filename) := by
  rw [recorded, recorded, List.length_map, apply_ite (List.map _), List.map_append]
  rfl

theorem complain_eq (c : Complaint) (span : Span) (s : State) :
    complain setup c span s = (Node.fault c.code span (span.text setup.src) c.message,
      { s with
        faults := recorded setup.filename setup.src s.faults c span
        halted := s.halted || maxFaults ≤ (recorded setup.filename setup.src s.faults c span).length }) := rfl

theorem indifferent_complain (c : Complaint) (span : Span) :
    Indifferent filename (complain setup c span) (complain (setup.named filename) c span) := by
  intro s
  -- Renaming keeps the number of faults, so both steps stop recording at the same one.
  have hfaults : recorded (setup.named filename).filename (setup.named filename).src (s.named filename).faults c span =
      (recorded setup.filename setup.src s.faults c span).map (·.named filename) := recorded_named ..
  rw [complain_eq, complain_eq, hfaults, List.length_map]
  rfl

theorem indifferent_missing (c : Complaint) :
    Indifferent filename (missing setup c) (missing (setup.named filename) c) :=
  .get fun _ => indifferent_complain _ _

theorem indifferent_unexpected (tok : Token) :
    Indifferent filename (unexpected setup tok) (unexpected (setup.named filename) tok) :=
  (indifferent_moveTo _).bind fun _ => indifferent_complain _ _

theorem indifferent_skipStatement (c : Complaint) :
    Indifferent filename (skipStatement setup c) (skipStatement (setup.named filename) c) :=
  .get fun _ => (indifferent_moveTo _).bind fun _ => indifferent_complain _ _

theorem indifferent_calledOff : Indifferent filename (calledOff setup) (calledOff (setup.named filename)) := by
  refine .get fun s => .bind (fun _ => rfl) fun _ => .ite (.ite (.pure _) ?_) (.pure _)
  exact .bind (indifferent_complain _ _) fun _ => .bind (.modify fun _ => rfl) fun _ => .pure _

end Tree.Parsing

/-! ## Productions without recursion -/

namespace Tree.Grammar
open Token (KindSet)
open Parsing

variable {filename : Text} {setup : Setup} {fuel : Nat}

theorem indifferent_endStatement (stop : KindSet) :
    Indifferent filename (endStatement setup stop) (endStatement (setup.named filename) stop) :=
  (indifferent_peek _).bind fun _ => .get fun _ => .ite (.pure _) (.ite (.pure _)
    ((indifferent_skipStatement _).bind fun _ => .pure _))

theorem indifferent_colon : Indifferent filename (colon setup) (colon (setup.named filename)) :=
  (indifferent_peek _).bind fun _ => .ite ((indifferent_shift _).bind fun _ => .pure _) (indifferent_missing _)

theorem indifferent_closeBody (node : Node) (block : Bool) :
    Indifferent filename (closeBody setup node block) (closeBody (setup.named filename) node block) :=
  (indifferent_peek _).bind fun _ => .ite ((indifferent_shift _).bind fun _ => .pure _)
    (.ite ((indifferent_missing _).bind fun _ => .pure _) (.pure _))

theorem indifferent_thenBlock (stmts : List Node) : Indifferent filename (thenBlock stmts) (thenBlock stmts) :=
  .ite (.get fun _ => .pure _) (.pure _)

theorem indifferent_callOrIdentifier (id : Node) :
    Indifferent filename (callOrIdentifier setup id) (callOrIdentifier (setup.named filename) id) :=
  .get fun _ => .pure _

theorem indifferent_dotGet (tok : Token) :
    Indifferent filename (dotGet setup tok) (dotGet (setup.named filename) tok) := by
  refine (indifferent_shift _).bind fun _ => (indifferent_peek _).bind fun _ =>
    .ite ((indifferent_shift _).bind fun _ => ?_) ?_
  all_goals
    exact (indifferent_peek _).bind fun _ => .get fun _ => .ite ((indifferent_shift _).bind fun _ => .pure _)
      ((indifferent_missing _).bind fun _ => .pure _)

theorem indifferent_params (fuel : Nat) (node : Node) :
    Indifferent filename (params setup fuel node) (params (setup.named filename) fuel node) := by
  induction fuel generalizing node with
  | zero => exact .pure _
  | succ fuel ih =>
    exact (indifferent_peek _).bind fun _ => .ite ((indifferent_shift _).bind fun _ => ih _)
      (.ite ((indifferent_complain _ _).bind fun _ => (indifferent_moveTo _).bind fun _ => ih _) (.pure _))

theorem indifferent_parenJunk (fuel : Nat) (node : Node) :
    Indifferent filename (parenJunk setup node fuel) (parenJunk (setup.named filename) node fuel) := by
  induction fuel generalizing node with
  | zero => exact .pure _
  | succ fuel ih =>
    rw [parenJunk, parenJunk]
    exact (indifferent_peek _).bind fun _ => .get fun _ => .ite (.pure _)
      ((indifferent_skipStatement _).bind fun _ => ih _)

/-! ## Productions -/

/-- Every production is indifferent with some fuel. -/
def AllIndifferent (filename : Text) (setup : Setup) (fuel : Nat) : Prop :=
  ∀ p : Production, Indifferent filename (parserOf setup p fuel) (parserOf (setup.named filename) p fuel)

theorem indifferent_statements (ih : AllIndifferent filename setup fuel) (stop : KindSet) :
    Indifferent filename (statements setup stop (fuel + 1)) (statements (setup.named filename) stop (fuel + 1)) := by
  rw [statements, statements]
  refine .get fun _ => .ite (.pure _) (indifferent_calledOff.bind fun _ => .ite (.pure _) ?_)
  refine (indifferent_peek _).bind fun _ => .ite (.pure _) (.ite ?_ ?_)
  · exact (indifferent_shift _).bind fun _ => ih (.statements stop)
  · exact (ih .statement).bind fun _ => (indifferent_endStatement _).bind fun _ =>
      (ih (.statements stop)).bind fun _ => .pure _

theorem indifferent_statement (ih : AllIndifferent filename setup fuel) :
    Indifferent filename (statement setup (fuel + 1)) (statement (setup.named filename) (fuel + 1)) := by
  rw [statement, statement]
  exact (indifferent_peek _).bind fun tok => .ite (ih (.assign tok)) (.ite (indifferent_skipStatement _) (ih .expression))

theorem indifferent_assign (ih : AllIndifferent filename setup fuel) (tok : Token) :
    Indifferent filename (assign setup tok (fuel + 1)) (assign (setup.named filename) tok (fuel + 1)) := by
  rw [assign, assign]
  refine (indifferent_shift _).bind fun _ => (indifferent_peek _).bind fun _ =>
    .ite ((indifferent_shift _).bind fun _ => .bind (.pure _) fun _ => ?_) ((indifferent_missing _).bind fun _ => ?_)
  all_goals exact (ih .expression).bind fun _ => (indifferent_reduce _).bind fun _ => .pure _

theorem indifferent_body (ih : AllIndifferent filename setup fuel) (closers : KindSet) :
    Indifferent filename (body setup closers (fuel + 1)) (body (setup.named filename) closers (fuel + 1)) := by
  rw [body, body]
  refine .get fun s => .bind (.modify fun _ => rfl) fun _ => (indifferent_peek _).bind fun _ => ?_
  refine .ite ((ih (.statements closers)).bind fun _ => .bind (.pure _) fun _ => ?_) (.ite (.bind (.pure _) fun _ => ?_)
    ((ih (.inlineBody closers)).bind fun _ => .bind (.pure _) fun _ => ?_))
  all_goals exact .bind (.modify fun _ => rfl) fun _ => .pure _

theorem indifferent_inlineBody (ih : AllIndifferent filename setup fuel) (closers : KindSet) :
    Indifferent filename (inlineBody setup closers (fuel + 1)) (inlineBody (setup.named filename) closers (fuel + 1)) := by
  rw [inlineBody, inlineBody]
  refine (ih .statement).bind fun _ => .get fun mark => (ih (.inlineRest closers)).bind fun rest => ?_
  cases rest with
  | some rest => exact .pure _
  | none => exact (indifferent_restore _).bind fun _ => .pure _

theorem indifferent_inlineRest (ih : AllIndifferent filename setup fuel) (closers : KindSet) :
    Indifferent filename (inlineRest setup closers (fuel + 1)) (inlineRest (setup.named filename) closers (fuel + 1)) := by
  rw [inlineRest, inlineRest]
  refine (indifferent_peek _).bind fun _ => .ite (.pure _) (.ite (.pure _) ?_)
  refine (indifferent_shift _).bind fun _ => (indifferent_peek _).bind fun _ => .ite (.pure _) (.ite (.pure _) ?_)
  exact (ih .statement).bind fun _ => (ih (.inlineRest closers)).bind fun _ => .pure _

theorem indifferent_functionDef (ih : AllIndifferent filename setup fuel) (tok : Token) :
    Indifferent filename (functionDef setup tok (fuel + 1)) (functionDef (setup.named filename) tok (fuel + 1)) := by
  rw [functionDef, functionDef]
  refine (indifferent_shift _).bind fun _ => (indifferent_params _ _).bind fun _ => .get fun _ => ?_
  refine (indifferent_reduce _).bind fun _ => indifferent_colon.bind fun _ => (ih (.body fnClosers)).bind fun _ => ?_
  exact (indifferent_closeBody _ _).bind fun _ => (indifferent_reduce _).bind fun _ => .pure _

theorem indifferent_ifExpr (ih : AllIndifferent filename setup fuel) (tok : Token) :
    Indifferent filename (ifExpr setup tok (fuel + 1)) (ifExpr (setup.named filename) tok (fuel + 1)) := by
  rw [ifExpr, ifExpr]
  refine (indifferent_shift _).bind fun _ => (ih (.binary lowest false)).bind fun _ => indifferent_colon.bind fun _ => ?_
  exact (ih (.body ifClosers)).bind fun _ => (indifferent_thenBlock _).bind fun _ => ih (.branches _ _ _)

theorem indifferent_branches (ih : AllIndifferent filename setup fuel) (node : Node) (block seenElse : Bool) :
    Indifferent filename (branches setup node block seenElse (fuel + 1))
      (branches (setup.named filename) node block seenElse (fuel + 1)) := by
  rw [branches, branches]
  refine (indifferent_peek _).bind fun _ => .ite ?_ (.ite ?_ (indifferent_closeBody _ _))
  · refine (indifferent_shift _).bind fun _ => (ih (.binary lowest false)).bind fun _ =>
      indifferent_colon.bind fun _ => ?_
    exact (ih (.body ifClosers)).bind fun _ => (indifferent_thenBlock _).bind fun _ => ih (.branches _ _ _)
  · refine (indifferent_shift _).bind fun _ => indifferent_colon.bind fun _ => ?_
    exact (ih (.body fnClosers)).bind fun _ => (indifferent_thenBlock _).bind fun _ => ih (.branches _ _ _)

theorem indifferent_expression (ih : AllIndifferent filename setup fuel) :
    Indifferent filename (expression setup (fuel + 1)) (expression (setup.named filename) (fuel + 1)) := by
  rw [expression, expression]
  exact (ih (.binary lowest true)).bind fun _ => (indifferent_peek _).bind fun _ => .ite (ih (.stages _ _)) (.pure _)

theorem indifferent_stages (ih : AllIndifferent filename setup fuel) (node : Node) (tok : Token) :
    Indifferent filename (stages setup node tok (fuel + 1)) (stages (setup.named filename) node tok (fuel + 1)) := by
  rw [stages, stages]
  exact (indifferent_shift _).bind fun _ => (ih (.binary lowest true)).bind fun _ =>
    (indifferent_peek _).bind fun _ => .ite (ih (.stages _ _)) (.pure _)

theorem indifferent_binary (ih : AllIndifferent filename setup fuel) (minPrec : Nat) (callable : Bool) :
    Indifferent filename (binary setup minPrec callable (fuel + 1))
      (binary (setup.named filename) minPrec callable (fuel + 1)) := by
  rw [binary, binary]
  refine (indifferent_peek _).bind fun tok => (ih (.operand tok callable)).bind fun left =>
    (ih (.operators minPrec left)).bind fun node => ?_
  cases node with
  | some node => exact .pure _
  | none => exact .ite (indifferent_callOrIdentifier _) (.pure _)

theorem indifferent_operators (ih : AllIndifferent filename setup fuel) (minPrec : Nat) (left : Node) :
    Indifferent filename (operators setup minPrec left (fuel + 1))
      (operators (setup.named filename) minPrec left (fuel + 1)) := by
  rw [operators, operators]
  refine (indifferent_peek _).bind fun _ => .ite (.pure _) ?_
  exact (indifferent_shift _).bind fun _ => (ih (.binary _ false)).bind fun _ =>
    (ih (.operators minPrec _)).bind fun _ => .pure _

theorem indifferent_operand (ih : AllIndifferent filename setup fuel) (tok : Token) (callable : Bool) :
    Indifferent filename (operand setup tok callable (fuel + 1))
      (operand (setup.named filename) tok callable (fuel + 1)) := by
  rw [operand, operand]
  refine .get fun s => .ite (indifferent_skipStatement _) ?_
  exact .bind (.modify fun _ => rfl) fun _ => (ih (.operandBody tok callable)).bind fun _ =>
    .bind (.modify fun _ => rfl) fun _ => .pure _

theorem indifferent_operandBody (ih : AllIndifferent filename setup fuel) (tok : Token) (callable : Bool) :
    Indifferent filename (operandBody setup tok callable (fuel + 1))
      (operandBody (setup.named filename) tok callable (fuel + 1)) := by
  have hother (k : Token.Kind) : Indifferent filename
      (if isBoundary k then missing setup .noExpression else unexpected setup tok)
      (if isBoundary k then missing (setup.named filename) .noExpression else unexpected (setup.named filename) tok) :=
    .ite (indifferent_missing _) (indifferent_unexpected _)
  rw [operandBody, operandBody]
  cases tok.kind with
  | number | boolean | regex => exact (indifferent_shift _).bind fun _ => .pure _
  | quote => exact (indifferent_shift _).bind fun _ => ih (.stringPieces _ _)
  | word => exact (indifferent_moveTo _).bind fun _ => ih (.wordPieces _)
  | identifier => exact (indifferent_shift _).bind fun _ => .ite (ih (.call _)) (.pure _)
  | beforeDot => exact indifferent_dotGet tok
  | openParen => exact (indifferent_shift _).bind fun _ => ih (.parenBody _)
  | kwFn => exact ih (.functionDef tok)
  | kwIf => exact ih (.ifExpr tok)
  | _ => exact hother _

theorem indifferent_call (ih : AllIndifferent filename setup fuel) (id : Node) :
    Indifferent filename (call setup id (fuel + 1)) (call (setup.named filename) id (fuel + 1)) := by
  rw [call, call]
  exact .ite (.pure _) ((indifferent_peek _).bind fun _ => .ite (ih (.args _ _)) (.pure _))

theorem indifferent_args (ih : AllIndifferent filename setup fuel) (node : Node) (tok : Token) :
    Indifferent filename (args setup node tok (fuel + 1)) (args (setup.named filename) node tok (fuel + 1)) := by
  rw [args, args]
  exact (ih (.arg tok)).bind fun _ => (indifferent_peek _).bind fun _ => .ite (ih (.args _ _)) (.pure _)

theorem indifferent_arg (ih : AllIndifferent filename setup fuel) (tok : Token) :
    Indifferent filename (arg setup tok (fuel + 1)) (arg (setup.named filename) tok (fuel + 1)) := by
  rw [arg, arg]
  refine .ite ((ih (.operand tok false)).bind fun _ => .pure _) ?_
  refine (indifferent_shift _).bind fun _ => (indifferent_peek _).bind fun value => .get fun _ => .ite ?_ ?_
  · exact (indifferent_missing _).bind fun _ => .pure _
  · exact (ih (.operand value false)).bind fun _ => .pure _

theorem indifferent_parenBody (ih : AllIndifferent filename setup fuel) (opening : Span) :
    Indifferent filename (parenBody setup opening (fuel + 1)) (parenBody (setup.named filename) opening (fuel + 1)) := by
  rw [parenBody, parenBody]
  refine .bind (.modify fun _ => rfl) fun _ => (indifferent_peek _).bind fun _ => .ite (.bind (.pure _) fun _ => ?_)
    ((ih .expression).bind fun _ => (indifferent_parenJunk _ _).bind fun _ => ?_)
  all_goals
    refine (indifferent_peek _).bind fun _ => .ite ((indifferent_shift _).bind fun _ => .bind (.pure _) fun _ => ?_)
      ((indifferent_missing _).bind fun _ => .bind (.pure _) fun _ => ?_)
    all_goals exact .bind (.modify fun _ => rfl) fun _ => .pure _

theorem indifferent_stringPieces (ih : AllIndifferent filename setup fuel) (quote : Nat) (node : Node) :
    Indifferent filename (stringPieces setup quote node (fuel + 1))
      (stringPieces (setup.named filename) quote node (fuel + 1)) := by
  rw [stringPieces, stringPieces]
  refine .get fun s => ?_
  have hsame : Token.stringPiece (setup.named filename).src (s.named filename).pos quote =
      Token.stringPiece setup.src s.pos quote := rfl
  dsimp only
  rw [hsame]
  generalize Token.stringPiece setup.src s.pos quote = tok
  cases tok.kind with
  | quote => exact (indifferent_advance _).bind fun _ => .pure _
  | eof => exact (indifferent_complain _ _).bind fun _ => (indifferent_moveTo _).bind fun _ => .pure _
  | fragment => exact (indifferent_advance _).bind fun _ => ih (.stringPieces _ _)
  | _ => exact (ih (.piece tok)).bind fun _ => ih (.stringPieces _ _)

theorem indifferent_wordPieces (ih : AllIndifferent filename setup fuel) (node : Node) :
    Indifferent filename (wordPieces setup node (fuel + 1)) (wordPieces (setup.named filename) node (fuel + 1)) := by
  rw [wordPieces, wordPieces]
  refine .get fun s => ?_
  have hsame : Token.wordPiece (setup.named filename).src (s.named filename).pos =
      Token.wordPiece setup.src s.pos := rfl
  dsimp only
  rw [hsame]
  generalize Token.wordPiece setup.src s.pos = tok
  cases tok.kind with
  | fragmentEnd => exact .pure _
  | fragment => exact (indifferent_advance _).bind fun _ => ih (.wordPieces _)
  | _ => exact (ih (.piece tok)).bind fun _ => ih (.wordPieces _)

theorem indifferent_piece (ih : AllIndifferent filename setup fuel) (tok : Token) :
    Indifferent filename (piece setup tok (fuel + 1)) (piece (setup.named filename) tok (fuel + 1)) := by
  rw [piece, piece]
  refine (indifferent_advance _).bind fun _ => ?_
  cases tok.kind with
  | escape | interpName => exact .pure _
  | interpOpen => exact (ih (.parenBody _)).bind fun _ => .pure _
  | _ => exact indifferent_complain _ _

/-- No production looks at the name of the file. -/
theorem allIndifferent (filename : Text) (setup : Setup) (fuel : Nat) : AllIndifferent filename setup fuel := by
  induction fuel with
  | zero =>
    intro p
    cases p with
    | statement | assign | functionDef | ifExpr | expression | binary | operand | operandBody | arg | piece =>
      exact indifferent_missing _
    | _ => exact .pure _
  | succ fuel ih =>
    intro p
    cases p with
    | statements stop => exact indifferent_statements ih stop
    | statement => exact indifferent_statement ih
    | assign tok => exact indifferent_assign ih tok
    | body closers => exact indifferent_body ih closers
    | inlineBody closers => exact indifferent_inlineBody ih closers
    | inlineRest closers => exact indifferent_inlineRest ih closers
    | functionDef tok => exact indifferent_functionDef ih tok
    | ifExpr tok => exact indifferent_ifExpr ih tok
    | branches node block seenElse => exact indifferent_branches ih node block seenElse
    | expression => exact indifferent_expression ih
    | stages node tok => exact indifferent_stages ih node tok
    | binary minPrec callable => exact indifferent_binary ih minPrec callable
    | operators minPrec left => exact indifferent_operators ih minPrec left
    | operand tok callable => exact indifferent_operand ih tok callable
    | operandBody tok callable => exact indifferent_operandBody ih tok callable
    | call id => exact indifferent_call ih id
    | args node tok => exact indifferent_args ih node tok
    | arg tok => exact indifferent_arg ih tok
    | parenBody opening => exact indifferent_parenBody ih opening
    | stringPieces quote node => exact indifferent_stringPieces ih quote node
    | wordPieces node => exact indifferent_wordPieces ih node
    | piece tok => exact indifferent_piece ih tok

/-! ## Parses -/

theorem indifferent_program : Indifferent filename (program setup) (program (setup.named filename)) := by
  rw [program, program]
  refine .bind (allIndifferent filename setup (fuelFor setup.src.length) (.statements .empty)) fun _ => .get fun _ => ?_
  refine .ite ?_ ?_
  · exact (indifferent_moveTo _).bind fun _ => .bind (.pure _) fun _ => .pure _
  · exact .bind (.pure _) fun _ => .pure _

end Tree.Grammar

/-- The parse of a source from another file is the same, its faults apart, which name that file. -/
theorem Tree.parse_named (filename : Text) (setup : Parsing.Setup) :
    parse (setup.named filename) =
      { parse setup with faults := (parse setup).faults.map (·.named filename) } := by
  have h : (Grammar.program (setup.named filename)).run (.start (setup.named filename)) =
      (((Grammar.program setup).run (.start setup)).1, ((Grammar.program setup).run (.start setup)).2.named filename) :=
    Grammar.indifferent_program (.start setup)
  rw [parse, h]
  rfl

end Bareword
