import Bareword.Proofs.Tree.Shapes
import Bareword.Proofs.Tree.Spans

/-! # Precedence

Operators that bind more tightly stand below those that do not, and equal ones group from the left. Operators
are read by descent: a call that gives up an operator leaves it to the loop around it, which looks at the same
place. What it sees there does not depend on bound names, so it sees the same operator.

* `Node.tightness`: how tightly the operator of an operation binds.
* `Node.Grouped`: an operation with the operands that it may have.
* `Looks.operator_unique`: all looks for an operator see the same token.
* `Reads.groups`: what every production answers is grouped.
* `parse_groups`: the operations of a parse.
-/

namespace Bareword.Token
set_option autoImplicit false

/-- Bound names matter only where a property access may start. -/
theorem scan_bound {src : Text} {pos : Nat} {accept : KindSet} (h : accept.has .beforeDot = false)
    (bound bound' : Option (Text → Bool)) : scan src pos accept bound = scan src pos accept bound' := by
  have hclassify (r : Rune) (s : Text) : classify accept bound r s = classify accept bound' r s := by
    rw [classify, classify]
    simp only [h, Bool.false_eq_true, if_false]
  rw [scan, scan]
  simp only [hclassify]

end Bareword.Token

namespace Bareword.Tree
set_option autoImplicit false
open Token (KindSet)

/-! ## Operations -/

/-- Whether a node has an operator with an operand on each side. -/
def Kind.isOperation : Kind → Bool
  | .binOp | .conditionalOp => true
  | _ => false

namespace Node

/-- The operators of arithmetic. -/
def arithmeticSigns : List Text := ["+", "-", "*", "/"]

/-- The operators of conditions. -/
def conditionSigns : List Text := ["and", "or", "=", "!=", "<", ">", "<=", ">="]

/-- How tightly operators bind: logic least of all, then comparisons, sums and products. -/
def bindings : List (Text × Nat) :=
  [("and", 2), ("or", 2), ("=", 3), ("!=", 3), ("<", 3), (">", 3), ("<=", 3), (">=", 3), ("+", 4), ("-", 4),
    ("*", 5), ("/", 5)]

/-- How tightly the operator of an operation binds. -/
def tightness (n : Node) : Nat := ((n.children[1]?.bind fun op => bindings.lookup op.text).getD 0)

/-- An operation has an operator between its operands. On the left of it no operator binds less tightly, and
on the right all bind more tightly. -/
def Grouped (n : Node) : Prop :=
  ∃ left op right, n.children = [left, op, right] ∧ op.kind = .operator ∧
    (n.kind = .binOp ↔ op.text ∈ arithmeticSigns) ∧ (n.kind = .conditionalOp ↔ op.text ∈ conditionSigns) ∧
    (left.kind.isOperation = true → n.tightness ≤ left.tightness) ∧
    (right.kind.isOperation = true → n.tightness < right.tightness)

/-- All operations in a tree are grouped. -/
def Graded (n : Node) : Prop := ∀ m ∈ n.preorder, m.kind.isOperation = true → m.Grouped

/-- If the node is an operation, its operator binds at least as tightly as a bound. -/
def Tight (k : Nat) (n : Node) : Prop := n.kind.isOperation = true → k ≤ n.tightness

/-- A node that is no operation itself. -/
structure Operand (n : Node) : Prop where
  kind : n.kind.isOperation = false
  graded : n.Graded

section
variable {n c : Node} {cs : List Node} {kind : Kind}

theorem graded_iff : n.Graded ↔ (n.kind.isOperation = true → n.Grouped) ∧ ∀ c ∈ n.children, c.Graded :=
  forall_preorder

namespace Operand

theorem of_children (hkind : n.kind.isOperation = false) (h : ∀ c ∈ n.children, c.Graded) : n.Operand :=
  ⟨hkind, graded_iff.mpr ⟨fun hop => absurd hop (by rw [hkind]; decide), h⟩⟩

theorem children (h : n.Operand) : ∀ c ∈ n.children, c.Graded := (graded_iff.mp h.graded).2

theorem tight (h : n.Operand) (k : Nat) : n.Tight k := fun hop => absurd hop (by rw [h.kind]; decide)

theorem push (hn : n.Operand) (hc : c.Graded) : (n.push c).Operand :=
  .of_children hn.kind (List.forall_mem_append.mpr ⟨hn.children, List.forall_mem_singleton.mpr hc⟩)

theorem append (hn : n.Operand) (hcs : ∀ c ∈ cs, c.Graded) : (n.append cs).Operand := by
  refine .of_children ?_ ?_
  · rw [append_kind]
    exact hn.kind
  · rw [append_children]
    exact List.forall_mem_append.mpr ⟨hn.children, hcs⟩

theorem withSpan (hn : n.Operand) (span : Span) : ({ n with span } : Node).Operand := .of_children hn.kind hn.children

theorem leaf (hkind : kind.isOperation = false) (tok : Token) : (Node.leaf kind tok).Operand := .of_children hkind nofun

theorem single (hkind : kind.isOperation = false) (hc : c.Graded) : (branch kind [c]).Operand :=
  .of_children hkind (List.forall_mem_singleton.mpr hc)

end Operand
end
end Node

namespace Grammar
open Node
open Parsing

section
variable {setup : Setup} {exact : Prop} {s t : Snapshot} {tok tok' : Token} {n : Node} {accept : KindSet}

/-! ## Looks for operators -/

/-- All looks for an operator from one place see the same token. -/
theorem Looks.operator_unique (h : Looks setup exact s (binaryOps ∪ separators) tok)
    (h' : Looks setup exact s (binaryOps ∪ separators) tok') : tok = tok' := by
  obtain ⟨bound, -, -, rfl⟩ := h
  obtain ⟨bound', -, -, rfl⟩ := h'
  refine Token.scan_bound ?_ _ _
  rw [s.has_accepted _ (by decide)]
  decide

/-- The next operator, if there is one, binds less tightly than a bound. -/
def Loose (setup : Setup) (exact : Prop) (s : Snapshot) (k : Nat) : Prop :=
  ∀ tok, Looks setup exact s (binaryOps ∪ separators) tok → precedence tok.kind = 0 ∨ precedence tok.kind < k

/-- The next operator, if there is one, may get an operation as its left operand. -/
def Follows (setup : Setup) (exact : Prop) (s : Snapshot) (left : Node) : Prop :=
  left.kind.isOperation = true → Loose setup exact s (left.tightness + 1)

theorem Looks.loose {k : Nat} (h : Looks setup exact s (binaryOps ∪ separators) tok)
    (hprec : precedence tok.kind = 0 ∨ precedence tok.kind < k) : Loose setup exact s k :=
  fun _ h' => h.operator_unique h' ▸ hprec

/-! ## Operations that are read -/

/-- The spelling of an operator tells how tightly it binds and which node it makes. -/
theorem bindings_of_precedence {k : Token.Kind} {text : Text} (hadmits : k.Admits text) (hprec : precedence k ≠ 0) :
    bindings.lookup text = some (precedence k) ∧
      (operatorNode (precedence k) = .binOp ↔ text ∈ arithmeticSigns) ∧
      (operatorNode (precedence k) = .conditionalOp ↔ text ∈ conditionSigns) := by
  have hoperator : ∀ p ∈ Token.Kind.operators, precedence p.2 ≠ 0 → bindings.lookup p.1 = some (precedence p.2) ∧
      (operatorNode (precedence p.2) = .binOp ↔ p.1 ∈ arithmeticSigns) ∧
      (operatorNode (precedence p.2) = .conditionalOp ↔ p.1 ∈ conditionSigns) := by decide
  have hkeyword : ∀ p ∈ Token.Kind.keywords, precedence p.2 ≠ 0 → bindings.lookup p.1 = some (precedence p.2) ∧
      (operatorNode (precedence p.2) = .binOp ↔ p.1 ∈ arithmeticSigns) ∧
      (operatorNode (precedence p.2) = .conditionalOp ↔ p.1 ∈ conditionSigns) := by decide
  exact (spelled_of_precedence hadmits hprec).elim (fun h => hoperator _ h hprec) fun h => hkeyword _ h hprec

section
variable {left right : Node}

theorem tightness_operation (hadmits : tok.kind.Admits tok.text) (hprec : precedence tok.kind ≠ 0) (kind : Kind) :
    (branch kind [left, .leaf .operator tok, right]).tightness = precedence tok.kind := by
  show ((bindings.lookup tok.text).getD 0) = _
  rw [(bindings_of_precedence hadmits hprec).1]
  rfl

/-- The operation of an operator that was seen behind its left operand. -/
theorem graded_operation (hadmits : tok.kind.Admits tok.text) (hprec : precedence tok.kind ≠ 0)
    (hleft : left.Graded) (hright : right.Graded)
    (hbelow : left.kind.isOperation = true → precedence tok.kind ≤ left.tightness)
    (habove : right.Tight (precedence tok.kind + 1)) :
    (branch (operatorNode (precedence tok.kind)) [left, .leaf .operator tok, right]).Graded := by
  obtain ⟨-, harithmetic, hcondition⟩ := bindings_of_precedence hadmits hprec
  refine graded_iff.mpr ⟨fun _ => ⟨left, _, right, rfl, rfl, harithmetic, hcondition, ?_, ?_⟩, ?_⟩
  · rwa [tightness_operation hadmits hprec]
  · rwa [tightness_operation hadmits hprec]
  · have hsign : (Node.leaf .operator tok).Graded := (Operand.leaf rfl tok).graded
    exact List.forall_mem_cons.mpr ⟨hleft, List.forall_mem_cons.mpr ⟨hsign, List.forall_mem_singleton.mpr hright⟩⟩

end

/-! ## Productions without recursion -/

theorem operand_faultNode (c : Complaint) (span : Span) : (faultNode setup c span).Operand := .of_children rfl nofun

theorem Expects.operand {k : Token.Kind} {kind : Kind} {c : Complaint} (hkind : kind.isOperation = false)
    (h : Expects setup exact s accept k kind c n t) : n.Operand := by
  cases h with
  | found => exact .leaf hkind _
  | absent => exact operand_faultNode _ _

theorem Colon.operand (h : Colon setup exact s n t) : n.Operand := Expects.operand rfl h

theorem EndStatement.operands {stop : KindSet} {junk : Option Node} (h : EndStatement setup exact s stop junk t) :
    ∀ c ∈ junk.toList, c.Graded := by
  cases h with
  | clean => exact nofun
  | junk => exact List.forall_mem_singleton.mpr (operand_faultNode _ _).graded

theorem CloseBody.operand {node : Node} {block : Bool} (h : CloseBody setup exact s node block n t)
    (hnode : node.Operand) : n.Operand := by
  cases h with
  | closed => exact hnode.push (Operand.leaf rfl _).graded
  | missing => exact hnode.push (operand_faultNode _ _).graded
  | without => exact hnode

theorem CloseParen.operand {node : Node} (h : CloseParen setup exact s node n t) (hnode : node.Operand) : n.Operand := by
  cases h with
  | closed => exact hnode.withSpan _
  | missing => exact hnode.push (operand_faultNode _ _).graded

theorem Junk.operand {node : Node} (h : Junk setup exact s node n t) (hnode : node.Operand) : n.Operand := by
  induction h with
  | done => exact hnode
  | more _ _ _ ih => exact ih (hnode.push (operand_faultNode _ _).graded)

theorem Params.operand {node : Node} (h : Params setup exact s node n t) (hnode : node.Operand) : n.Operand := by
  induction h with
  | name _ _ _ ih => exact ih (hnode.push (Operand.leaf rfl _).graded)
  | bad _ _ _ ih => exact ih (hnode.push (operand_faultNode _ _).graded)
  | done => exact hnode

theorem operand_paramList (h : n.Operand) (pos : Nat) : (paramList n pos).Operand := by
  rw [paramList]
  split
  · exact h.withSpan _
  · exact h

theorem DotGet.operand (h : DotGet setup exact s tok n t) : n.Operand := by
  have hbase : (branch .dotGet [.leaf .identifier tok]).Operand := .single rfl (Operand.leaf rfl tok).graded
  cases h with
  | found => exact hbase.push (Operand.leaf rfl _).graded
  | absent => exact hbase.push (operand_faultNode _ _).graded

theorem operand_blockNode {stmts : List Node} (h : ∀ c ∈ stmts, c.Graded) (pos : Nat) : (blockNode pos stmts).Operand := by
  rw [blockNode]
  split
  · exact .of_children rfl (List.forall_mem_nil _)
  · exact .of_children rfl h

theorem operand_loneName (names : Scope.Names) (h : n.Graded) : (loneName setup names n).Operand := by
  rw [loneName]
  split <;> split <;> exact .single rfl h

theorem isOperation_literal {k : Token.Kind} {kind : Kind} (h : literalKind? k = some kind) :
    kind.isOperation = false := by
  cases k <;> cases h <;> rfl

/-! ## Productions -/

/-- What is known of the answer of a production. -/
@[reducible]
def Production.Groups (setup : Setup) (exact : Prop) : (p : Production) → Snapshot → p.Answer → Snapshot → Prop
  | .statements _, _, stmts, _ | .inlineBody _, _, stmts, _ => ∀ c ∈ stmts, c.Graded
  | .body _, _, (stmts, _), _ => ∀ c ∈ stmts, c.Graded
  | .inlineRest _, _, rest, _ => ∀ stmts, rest = some stmts → ∀ c ∈ stmts, c.Graded
  | .statement, _, node, _ | .expression, _, node, _ => node.Graded
  | .binary minPrec _, _, node, t => node.Graded ∧ node.Tight minPrec ∧ Loose setup exact t minPrec
  | .operators minPrec left, s, more, t => left.Graded → left.Tight minPrec → Follows setup exact s left →
    (more.getD left).Graded ∧ (more.getD left).Tight minPrec ∧ Loose setup exact t minPrec
  | .branches node _ _, _, whole, _ | .stages node _, _, whole, _ | .call node, _, whole, _
  | .args node _, _, whole, _ | .stringPieces _ node, _, whole, _ | .wordPieces node, _, whole, _ =>
    node.Operand → whole.Operand
  | .assign _, _, node, _ | .functionDef _, _, node, _ | .ifExpr _, _, node, _ | .operand _ _, _, node, _
  | .operandBody _ _, _, node, _ | .arg _, _, node, _ | .parenBody _, _, node, _ | .piece _, _, node, _ =>
    node.Operand

/-- A production answers operations that are grouped. What carries the loop over operators is that the next
one binds no more tightly than the last one, which the operand after that one has left. -/
theorem Reads.groups {p : Production} {a : p.Answer} (h : Reads setup exact p s a t) : p.Groups setup exact s a t := by
  induction h with
  | halted | off | noMore | noBody => exact nofun
  | separator _ _ _ _ _ _ ih => exact ih
  | next _ _ _ _ _ _ hjunk _ ihstmt ihrest =>
    exact List.forall_mem_append.mpr ⟨List.forall_mem_cons.mpr ⟨ihstmt, hjunk.operands⟩, ihrest⟩
  | assignment _ _ _ ih => exact ih.graded
  | evaluate _ _ _ _ ih | block _ _ _ ih | inlined _ _ _ _ ih => exact ih
  | noStatement => exact (operand_faultNode _ _).graded
  | tooDeep | noOperand | badOperand => exact operand_faultNode _ _
  | @assign s s₁ t tok op value _ _ hop _ ih =>
    have htarget : (branch .assign [.leaf .assignable tok]).Operand := .single rfl (Operand.leaf rfl tok).graded
    exact (htarget.push (hop.operand rfl).graded).push ih
  | several _ _ ihfirst ihrest => exact List.forall_mem_cons.mpr ⟨ihfirst, ihrest _ rfl⟩
  | single _ _ ihfirst => exact List.forall_mem_singleton.mpr ihfirst
  | restClosed | restClosedNext =>
    rintro _ ⟨⟩
    exact nofun
  | restOpen | restOpenNext => rintro _ ⟨⟩
  | restMore _ _ _ _ _ _ _ _ ihstmt ihrest =>
    intro stmts hstmts
    obtain ⟨rest, hrest, rfl⟩ := Option.map_eq_some_iff.mp hstmts
    exact List.forall_mem_cons.mpr ⟨ihstmt, ihrest rest hrest⟩
  | @functionDef s s₁ s₂ s₃ t tok list c node stmts block _ _ hparams hcolon _ hclose ih =>
    have hkeyword : (branch .functionDef [.leaf .keyword tok]).Operand := .single rfl (Operand.leaf rfl tok).graded
    have hlist := operand_paramList (hparams.operand (.of_children rfl nofun)) s₁.pos
    exact hclose.operand (((hkeyword.push hlist.graded).push hcolon.operand.graded).append ih)
  | @ifExpr s s₁ s₂ s₃ t tok _ _ _ _ _ _ _ _ hcolon _ _ ihcondition ihbody ihbranches =>
    have hkeyword : (branch .ifExpr [.leaf .keyword tok]).Operand := .single rfl (Operand.leaf rfl tok).graded
    exact ihbranches (((hkeyword.push ihcondition.1).push hcolon.operand.graded).push
      (operand_blockNode ihbody s₃.pos).graded)
  | @elsif s s₁ s₂ s₃ t tok _ _ _ _ _ _ _ _ _ _ _ hcolon _ _ ihcondition ihbody ihbranches =>
    intro hnode
    have hkeyword : (branch .elsifExpr [.leaf .keyword tok]).Operand := .single rfl (Operand.leaf rfl tok).graded
    exact ihbranches (hnode.push (((hkeyword.push ihcondition.1).push hcolon.operand.graded).push
      (operand_blockNode ihbody s₃.pos).graded).graded)
  | @otherwise s s₂ s₃ t tok _ _ _ _ _ _ _ _ _ hcolon _ _ ihbody ihbranches =>
    intro hnode
    have hkeyword : (branch .elseExpr [.leaf .keyword tok]).Operand := .single rfl (Operand.leaf rfl tok).graded
    exact ihbranches (hnode.push ((hkeyword.push hcolon.operand.graded).push
      (operand_blockNode ihbody s₃.pos).graded).graded)
  | endIf _ _ _ hclose => exact hclose.operand
  | pipe _ _ _ _ ihleft ihstages => exact (ihstages (.single rfl ihleft.1)).graded
  | alone _ _ _ ih => exact ih.1
  | stage _ _ _ _ _ _ ihvalue ihrest =>
    exact fun hnode => ihrest ((hnode.push (Operand.leaf rfl _).graded).push ihvalue.1)
  | lastStage _ _ _ _ _ ih => exact fun hnode => (hnode.push (Operand.leaf rfl _).graded).push ih.1
  | operation _ _ _ ihleft ihops | justOperand _ _ _ _ ihleft ihops =>
    exact ihops ihleft.graded (ihleft.tight _) fun hop => absurd hop (by rw [ihleft.kind]; decide)
  | @lone s _ t _ _ _ left _ _ _ _ ihleft ihops =>
    obtain ⟨-, -, hloose⟩ := ihops ihleft.graded (ihleft.tight _) fun hop => absurd hop (by rw [ihleft.kind]; decide)
    have hname : (loneName setup t.names left).Operand := operand_loneName _ ihleft.graded
    exact ⟨hname.graded, hname.tight _, hloose⟩
  | noOperator hlook hprec => exact fun hleft htight _ => ⟨hleft, htight, hlook.loose hprec⟩
  | @operator s s₁ t tok minPrec left right more hlook hprec _ _ ihright ihmore =>
    intro hleft _ hfollows
    obtain ⟨hne, hle⟩ := not_or.mp hprec
    have hadmits := hlook.admits_of_precedence hne
    obtain ⟨hright, habove, hloose⟩ := ihright
    have htightness : (branch (operatorNode (precedence tok.kind)) [left, .leaf .operator tok, right]).tightness =
        precedence tok.kind := tightness_operation hadmits hne _
    have hbelow (hop : left.kind.isOperation = true) : precedence tok.kind ≤ left.tightness :=
      Nat.le_of_lt_succ ((hfollows hop tok hlook).resolve_left hne)
    refine ihmore (graded_operation hadmits hne hleft hright hbelow habove) (fun _ => ?_) fun _ => ?_
    · rw [htightness]
      exact Nat.le_of_not_lt hle
    · rwa [htightness]
  | operand _ _ _ ih => exact ih
  | literal _ hk => exact .leaf (isOperation_literal hk) _
  | string _ _ _ ih | word _ _ _ ih => exact ih (.of_children rfl nofun)
  | callee _ _ _ ih => exact ih (.leaf rfl _)
  | group _ _ _ ih | function _ _ ih | conditional _ _ ih => exact ih
  | name => exact .leaf rfl _
  | dotGet _ _ h => exact h.operand
  | glued | noArgs | endWord => exact fun hnode => hnode
  | withArgs _ _ _ _ ih => exact fun hid => ih (.single rfl hid.graded)
  | moreArgs _ _ _ _ iharg ihrest => exact fun hnode => ihrest (hnode.push iharg.graded)
  | lastArg _ _ _ ih => exact fun hnode => hnode.push ih.graded
  | positional _ _ ih => exact .single rfl ih.graded
  | @named s t tok _ _ _ _ _ _ _ ih =>
    have hname : (branch .namedArg [.leaf .argName tok]).Operand := .single rfl (Operand.leaf rfl tok).graded
    exact hname.push ih.graded
  | @noValue s tok =>
    have hname : (branch .namedArg [.leaf .argName tok]).Operand := .single rfl (Operand.leaf rfl tok).graded
    exact hname.push (operand_faultNode _ _).graded
  | emptyGroup _ _ hclose => exact hclose.operand (.of_children rfl nofun)
  | @fullGroup s _ _ _ opening _ _ _ _ _ _ _ hjunk hclose ih =>
    have hopen : ({ kind := .parenExpr, span := opening } : Node).Operand := .of_children rfl nofun
    exact hclose.operand (hjunk.operand (hopen.push ih))
  | closeQuote => exact fun hnode => hnode.withSpan _
  | unterminated => exact fun hnode => hnode.push (operand_faultNode _ _).graded
  | stringText _ _ ih | wordText _ _ ih => exact fun hnode => ih (hnode.push (Operand.leaf rfl _).graded)
  | stringPart _ _ ihpiece ih | wordPart _ _ ihpiece ih => exact fun hnode => ih (hnode.push ihpiece.graded)
  | escape => exact .leaf rfl _
  | @interpolatedName s tok =>
    have hname : ({ kind := .identifier, span := ⟨tok.start + 1, tok.stop⟩, text := tok.text } : Node).Operand :=
      .of_children rfl nofun
    exact .of_children rfl (List.forall_mem_singleton.mpr hname.graded)
  | interpolated _ _ _ ih => exact .of_children rfl (List.forall_mem_singleton.mpr ih.graded)

end

/-! ## Parses -/

/-- Whatever the source, the operators of a tree group as they should, also where an operand is missing. Every
operation has an operator between its operands, one of arithmetic or one of conditions as its kind says.
If its left operand is an operation too, that one binds at least as tightly, and if its right operand is
one, that one binds more tightly. -/
theorem parse_groups (setup : Setup) :
    ∀ n ∈ (parse setup).tree.preorder, n.kind = .binOp ∨ n.kind = .conditionalOp → n.Grouped := by
  obtain ⟨stmts, t, h⟩ := parse_outcome setup False fun hfalse => hfalse.elim
  have hstmts : ∀ c ∈ stmts, c.Graded := h.reads.groups
  have hunread : ∀ c ∈ unread setup t, c.Graded := by
    rw [unread]
    split
    · exact List.forall_mem_singleton.mpr (operand_faultNode _ _).graded
    · exact List.forall_mem_nil _
  have htree : (wholeTree setup stmts t).Operand :=
    .of_children rfl (List.forall_mem_append.mpr ⟨hstmts, hunread⟩)
  rw [h.tree_eq]
  intro n hn hkind
  refine htree.graded n hn ?_
  rcases hkind with hkind | hkind <;> rw [hkind] <;> rfl

/-- A comparison of a difference, without its second operand. -/
theorem parse_groups_comparison :
    let setup : Setup := { src := "1 - 2 <" }
    ∃ n ∈ (parse setup).tree.preorder, n.kind = .conditionalOp ∧ n.Grouped := by
  intro setup
  have hkind : ((parse setup).tree.children.head?).map (·.kind) = some .conditionalOp := by cbv
  obtain ⟨n, hn, hkind⟩ := Option.map_eq_some_iff.mp hkind
  have hmem : n ∈ (parse setup).tree.preorder :=
    mem_preorder.mpr (.inr ⟨n, List.mem_of_mem_head? hn, n.mem_preorder_self⟩)
  exact ⟨n, hmem, hkind, parse_groups setup n hmem (.inr hkind)⟩

end Grammar
end Bareword.Tree
