import Bareword.Proofs.Tree.Adequacy

/-! # What a parse remembers

A parse remembers scanned tokens, and it keeps the scopes of attempts that it gave up. Neither can be
told from its answer: exact looks leave the grammar one way to go, so a parse that remembers nothing goes
the same way.

* `Setup.remembering`: a parse that remembers other things.
* `Reads.unique`: productions that start alike end alike.
* `parse_remembering`: a parse with and without memory.
-/

namespace Bareword.Tree.Parsing
set_option autoImplicit false

/-- The same parse with other things to remember. -/
def Setup.remembering (setup : Setup) (policy : Policy) : Setup := { setup with policy }

end Bareword.Tree.Parsing

namespace Bareword.Tree.Grammar
set_option autoImplicit false
open Token (KindSet)
open Parsing

variable {setup : Setup} {policy : Policy} {s t t' : Snapshot} {tok tok' : Token}

/-! ## What memory has no part in -/

@[grind =] theorem src_remembering : (setup.remembering policy).src = setup.src := rfl

@[grind =] theorem maxDepth_remembering : (setup.remembering policy).maxDepth = setup.maxDepth := rfl

@[grind =] theorem isOff_remembering (n : Nat) : (setup.remembering policy).isOff n = setup.isOff n := rfl

@[grind =] theorem faultNode_remembering (c : Complaint) (span : Span) :
    faultNode (setup.remembering policy) c span = faultNode setup c span := rfl

@[grind =] theorem here_remembering : s.here (setup.remembering policy) = s.here setup := rfl

@[grind =] theorem junk_remembering : s.junk (setup.remembering policy) = s.junk setup := rfl

@[grind =] theorem complain_remembering (c : Complaint) (span : Span) :
    s.complain (setup.remembering policy) c span = s.complain setup c span := rfl

@[grind =] theorem skip_remembering (c : Complaint) : s.skip (setup.remembering policy) c = s.skip setup c := rfl

@[grind =] theorem callOff_remembering : s.callOff (setup.remembering policy) = s.callOff setup := rfl

@[grind =] theorem loneName_remembering (names : Scope.Names) (id : Node) :
    loneName (setup.remembering policy) names id = loneName setup names id := rfl

@[grind =] theorem glued_remembering (id : Node) : glued (setup.remembering policy) id = glued setup id := rfl

/-! ## Productions without recursion -/

/-- The bound names leave one token to see. -/
@[grind →] theorem Looks.unique {accept : KindSet} (h : Looks setup True s accept tok)
    (h' : Looks (setup.remembering policy) True s accept tok') : tok = tok' := by
  obtain ⟨bound, -, hbound, rfl⟩ := h
  obtain ⟨bound', -, hbound', rfl⟩ := h'
  rw [hbound trivial, hbound' trivial]
  rfl

@[grind →] theorem Expects.unique {accept : KindSet} {k : Token.Kind} {leaf : Kind} {c : Complaint}
    {node node' : Node} (h : Expects setup True s accept k leaf c node t)
    (h' : Expects (setup.remembering policy) True s accept k leaf c node' t') : node = node' ∧ t = t' := by
  cases h <;> cases h' <;> grind

@[grind →] theorem EndStatement.unique {stop : KindSet} {junk junk' : Option Node}
    (h : EndStatement setup True s stop junk t)
    (h' : EndStatement (setup.remembering policy) True s stop junk' t') : junk = junk' ∧ t = t' := by
  cases h <;> cases h' <;> grind

@[grind →] theorem CloseBody.unique {node whole whole' : Node} {block : Bool}
    (h : CloseBody setup True s node block whole t)
    (h' : CloseBody (setup.remembering policy) True s node block whole' t') : whole = whole' ∧ t = t' := by
  cases h <;> cases h' <;> grind

@[grind →] theorem DotGet.unique {node node' : Node} (h : DotGet setup True s tok node t)
    (h' : DotGet (setup.remembering policy) True s tok node' t') : node = node' ∧ t = t' := by
  cases h <;> cases h' <;> grind

@[grind →] theorem Params.unique {node list list' : Node} (h : Params setup True s node list t)
    (h' : Params (setup.remembering policy) True s node list' t') : list = list' ∧ t = t' := by
  induction h <;> cases h' <;> grind

@[grind →] theorem CloseParen.unique {node whole whole' : Node} (h : CloseParen setup True s node whole t)
    (h' : CloseParen (setup.remembering policy) True s node whole' t') : whole = whole' ∧ t = t' := by
  cases h <;> cases h' <;> grind

@[grind →] theorem Junk.unique {node whole whole' : Node} (h : Junk setup True s node whole t)
    (h' : Junk (setup.remembering policy) True s node whole' t') : whole = whole' ∧ t = t' := by
  induction h <;> cases h' <;> grind

/-! ## Productions -/

@[grind →] theorem literalKind?_eq_some {k : Token.Kind} {kind : Kind} (h : literalKind? k = some kind) :
    k = .number ∨ k = .boolean ∨ k = .regex := by
  cases k <;> simp_all [literalKind?]

@[grind →] theorem not_exprStart {k : Token.Kind} (h : exprStart.has k = false) :
    literalKind? k = none ∧ k ∉ [Token.Kind.quote, .word, .identifier, .beforeDot, .openParen, .kwFn, .kwIf] := by
  revert h
  cases k <;> decide

@[grind →] theorem Reads.piece_kind {a : Node} (h : Reads setup True (.piece tok) s a t) :
    tok.kind ∈ [Token.Kind.escape, .interpName, .interpOpen] := by
  cases h <;> simp [*]

/-- The next token decides between the ways through a production, so there is only one. -/
theorem Reads.unique {p : Production} {a : p.Answer} (h : Reads setup True p s a t) :
    ∀ {a' : p.Answer} {t' : Snapshot}, Reads (setup.remembering policy) True p s a' t' → a = a' ∧ t = t' := by
  induction h with
  | halted | off | noMore | separator | next => intro a' t' h'; cases h' <;> grind
  | assignment | noStatement | evaluate | assign => intro a' t' h'; cases h' <;> grind
  | block | noBody | inlined | several | single => intro a' t' h'; cases h' <;> grind
  | restClosed | restOpen | restClosedNext | restOpenNext | restMore => intro a' t' h'; cases h' <;> grind
  | functionDef | ifExpr | elsif | otherwise | endIf => intro a' t' h'; cases h' <;> grind
  | pipe | alone | stage | lastStage => intro a' t' h'; cases h' <;> grind
  | operation | lone | justOperand | noOperator | operator => intro a' t' h'; cases h' <;> grind
  | tooDeep | operand => intro a' t' h'; cases h' <;> grind
  | literal | string | word | callee | name | dotGet | group | function | conditional | noOperand | badOperand =>
    intro a' t' h'; cases h' <;> grind [isBoundary]
  | glued | withArgs | noArgs | moreArgs | lastArg => intro a' t' h'; cases h' <;> grind
  | positional | named | noValue => intro a' t' h'; cases h' <;> grind
  | emptyGroup | fullGroup => intro a' t' h'; cases h' <;> grind
  | closeQuote | unterminated | stringText | stringPart => intro a' t' h'; cases h' <;> grind
  | endWord | wordText | wordPart => intro a' t' h'; cases h' <;> grind
  | escape | interpolatedName | interpolated => intro a' t' h'; cases h' <;> grind

/-! ## Parses -/

theorem wholeTree_remembering {stmts : List Node} :
    wholeTree (setup.remembering policy) stmts t = wholeTree setup stmts t := rfl

/-- Unless fingerprints of scopes collide, a parse that remembers tokens and keeps the scopes of attempts
that it gave up answers what one answers that scans every token anew and goes back to where it was. -/
theorem parse_remembering (setup : Setup)
    (hfree : (parse (setup.remembering .standard)).scope.arena.CollisionFree setup.hasher) :
    (parse (setup.remembering .standard)).tree = (parse (setup.remembering .plain)).tree ∧
      (parse (setup.remembering .standard)).faults = (parse (setup.remembering .plain)).faults ∧
      (parse (setup.remembering .standard)).tokens = (parse (setup.remembering .plain)).tokens ∧
      (parse (setup.remembering .standard)).scope.names = (parse (setup.remembering .plain)).scope.names := by
  obtain ⟨stmts, t, h⟩ := parse_outcome (setup.remembering .standard) True fun _ _ => ⟨rfl, hfree⟩
  obtain ⟨stmts', t', h'⟩ := parse_outcome (setup.remembering .plain) True nofun
  have hplain : Reads ((setup.remembering .standard).remembering .plain) True (.statements .empty) .origin stmts' t' :=
    h'.reads
  obtain ⟨rfl, rfl⟩ := h.reads.unique hplain
  refine ⟨?_, ?_, ?_, ?_⟩
  · rw [h.tree_eq, h'.tree_eq, wholeTree_remembering, wholeTree_remembering]
  · rw [h.faults_eq, h'.faults_eq]
  · rw [h.tokens_eq, h'.tokens_eq]
  · rw [h.names_eq, h'.names_eq]

/-- The body of the function is not closed after the assignment, which is given up and read again outside of it.
The scope that it made in the body is kept. -/
theorem parse_remembering_inline_body :
    let setup : Setup := { src := "fn: 1; x = 2" }
    (parse (setup.remembering .standard)).scope.arena.CollisionFree setup.hasher ∧
      (parse (setup.remembering .standard)).tree = (parse (setup.remembering .plain)).tree ∧
      (parse (setup.remembering .standard)).faults = (parse (setup.remembering .plain)).faults ∧
      (parse (setup.remembering .standard)).tokens = (parse (setup.remembering .plain)).tokens ∧
      (parse (setup.remembering .standard)).scope.names = (parse (setup.remembering .plain)).scope.names := by
  intro setup
  have harena : (parse (setup.remembering .standard)).scope.arena =
      ⟨#[⟨none, [], 3244421341483603138⟩, ⟨some 0, [], 8457958033024989148⟩, ⟨some 0, ["x"], 6003075388015906804⟩,
        ⟨none, ["x"], 11999568128206417325⟩]⟩ := by cbv
  have hfree : (parse (setup.remembering .standard)).scope.arena.CollisionFree setup.hasher := by
    rw [harena]
    show Scope.Arena.CollisionFree Digest.fingerprint _
    decide +kernel
  exact ⟨hfree, parse_remembering setup hfree⟩

end Bareword.Tree.Grammar
