import Bareword.Expr.OfTree
import Bareword.Proofs.Tree.Reports

/-! # The shapes of trees

What the grammar puts below a node of each kind. A tree without error nodes has no other shapes, so
whoever walks it may rely on them.

* `Node.Fits`: the children of a node are those that its kind asks for.
* `Node.Shaped`: a node fits, and so does every node below it.
* `Reads.shaped`: without error nodes, what a production answers is shaped.
-/

namespace Bareword.Tree

namespace Kind
set_option autoImplicit false

/-- The kinds of nodes that statements are, those of expressions among them. -/
def isStatement : Kind → Bool
  | .number | .boolean | .regex | .string | .word | .identifier | .dotGet | .binOp | .conditionalOp | .assign
  | .parenExpr | .pipeExpr | .functionDef | .functionCall | .callOrIdentifier | .ifExpr => true
  | _ => false

/-- The kinds of pieces of strings and words. -/
def isPiece : Kind → Bool
  | .stringFragment | .wordFragment | .escape | .interpolation => true
  | _ => false

/-- The kinds of arguments. -/
def isArg : Kind → Bool
  | .positionalArg | .namedArg => true
  | _ => false

/-- The kinds of the further branches of conditionals. -/
def isBranch : Kind → Bool
  | .elsifExpr | .elseExpr => true
  | _ => false

theorem isPunctuation_of_isStatement {k : Kind} (h : k.isStatement = true) : k.isPunctuation = false := by
  cases k <;> first | rfl | cases h

theorem ne_operator_of_isStatement {k : Kind} (h : k.isStatement = true) : k ≠ .operator := by
  rintro rfl
  cases h

end Kind

namespace Node
set_option autoImplicit false

/-! ## Shapes -/

/-- The children of a pipe that are no pipes themselves. -/
def stages (n : Node) : List Node := n.children.filter (·.kind != .operator)

/-- The node has two operands and an operator between them. -/
def Infix (n : Node) (spells : Text → Prop) : Prop :=
  ∃ left operator right, n.children = [left, operator, right] ∧ left.kind.isStatement = true ∧
    operator.kind = .operator ∧ spells operator.text ∧ right.kind.isStatement = true

/-- The text of a node is a regular expression that is closed. -/
def ClosesRegex (n : Node) : Prop := (Text.findLast? "//" (Text.dropLead "//" n.text)).isSome = true

/-- The children of a node are those that its kind asks for. -/
def Fits (n : Node) : Prop :=
  match n.kind with
  | .regex => n.ClosesRegex
  | .string | .word => ∀ c ∈ n.children, c.kind.isPiece = true
  | .interpolation => ∃ c, n.children = [c] ∧ c.kind.isStatement = true
  | .dotGet => ∃ base field, n.children = [base, field] ∧ base.kind = .identifier ∧ field.kind = .identifier
  | .binOp => n.Infix fun t => (OfTree.arithmetic? t).isSome = true
  | .conditionalOp => n.Infix fun t => t = "and" ∨ t = "or" ∨ (OfTree.comparison? t).isSome = true
  | .assign =>
    ∃ name operator value, n.children = [name, operator, value] ∧ name.kind = .assignable ∧
      operator.kind = .operator ∧ value.kind.isStatement = true
  | .parenExpr => n.children = [] ∨ ∃ c, n.children = [c] ∧ c.kind.isStatement = true
  | .pipeExpr => 2 ≤ n.stages.length ∧ ∀ c ∈ n.stages, c.kind.isStatement = true
  | .functionDef =>
    ∃ params body, n.significant = params :: body ∧ params.kind = .params ∧ ∀ c ∈ body, c.kind.isStatement = true
  | .params => ∀ c ∈ n.children, c.kind = .identifier
  | .functionCall =>
    ∃ name args, n.children = name :: args ∧ name.kind = .identifier ∧ ∀ c ∈ args, c.kind.isArg = true
  | .callOrIdentifier => ∃ name, n.children = [name] ∧ name.kind = .identifier
  | .positionalArg => ∃ value, n.children = [value] ∧ value.kind.isStatement = true
  | .namedArg =>
    ∃ name value, n.children = [name, value] ∧ name.kind = .argName ∧ value.kind.isStatement = true
  | .ifExpr =>
    ∃ condition block rest, n.significant = condition :: block :: rest ∧ condition.kind.isStatement = true ∧
      block.kind = .thenBlock ∧ ∀ c ∈ rest, c.kind.isBranch = true
  | .elsifExpr =>
    ∃ condition block, n.significant = [condition, block] ∧ condition.kind.isStatement = true ∧
      block.kind = .thenBlock
  | .elseExpr => ∃ block, n.significant = [block] ∧ block.kind = .thenBlock
  | .thenBlock | .program => ∀ c ∈ n.children, c.kind.isStatement = true
  | _ => True

/-- The node and all nodes below it fit. -/
inductive Shaped : Node → Prop where
  | intro {n : Node} (fits : n.Fits) (parts : ∀ c ∈ n.children, Shaped c) : Shaped n

theorem Shaped.fits {n : Node} (h : n.Shaped) : n.Fits := by
  cases h
  assumption

theorem Shaped.parts {n : Node} (h : n.Shaped) : ∀ c ∈ n.children, c.Shaped := by
  cases h
  assumption

/-- What fits does not depend on where it stands. -/
theorem Shaped.withSpan {n : Node} (h : n.Shaped) (span : Span) : { n with span }.Shaped := by
  obtain ⟨hfits, hparts⟩ := h
  exact ⟨hfits, hparts⟩

theorem shaped_leaf {kind : Kind} {tok : Token} (h : (leaf kind tok).Fits) : (leaf kind tok).Shaped :=
  .intro h fun _ hc => nomatch hc

theorem push_children (n c : Node) : (n.push c).children = n.children ++ [c] := rfl

theorem branch_children (kind : Kind) (cs : List Node) : (branch kind cs).children = cs := rfl

theorem parts_push {n c : Node} (hn : ∀ d ∈ n.children, d.Shaped) (hc : c.Shaped) :
    ∀ d ∈ (n.push c).children, d.Shaped := by
  intro d hd
  rcases List.mem_append.mp hd with hd | hd
  · exact hn d hd
  · rw [List.mem_singleton.mp hd]
    exact hc

theorem significant_push (n c : Node) :
    (n.push c).significant = n.significant ++ if c.kind.isPunctuation then [] else [c] := by
  rw [significant, push_children, List.filter_append, significant]
  cases h : c.kind.isPunctuation <;> simp [h]

theorem stages_push (n c : Node) : (n.push c).stages = n.stages ++ if c.kind = .operator then [] else [c] := by
  rw [stages, push_children, List.filter_append, stages]
  by_cases h : c.kind = .operator <;> simp [h]

theorem errors_push_eq_nil {n c : Node} (h : ¬ n.kind = .error) :
    (n.push c).errors = [] ↔ n.errors = [] ∧ c.errors = [] := by
  rw [errors_push h, List.append_eq_nil_iff]

theorem flatMap_errors_eq_nil {cs : List Node} : cs.flatMap errors = [] ↔ ∀ c ∈ cs, c.errors = [] :=
  List.flatMap_eq_nil_iff

/-- Without error nodes a node has one of the kinds and is shaped. -/
def Yields (kinds : Kind → Bool) (n : Node) : Prop := n.errors = [] → kinds n.kind = true ∧ n.Shaped

/-- A node that is still to get children has its kind, and without error nodes it is shaped. -/
structure Grows (kind : Kind) (n : Node) : Prop where
  kind_eq : n.kind = kind
  shaped : n.errors = [] → n.Shaped

theorem Grows.ne_error {kind : Kind} {n : Node} (h : n.Grows kind) (hkind : kind ≠ .error) : ¬ n.kind = .error :=
  h.kind_eq ▸ hkind

theorem Grows.yields {kind : Kind} {kinds : Kind → Bool} {n : Node} (h : n.Grows kind) (hkind : kinds kind = true) :
    n.Yields kinds :=
  fun herrors => ⟨h.kind_eq.symm ▸ hkind, h.shaped herrors⟩

/-- One more child keeps a node shaped if the node still fits. -/
theorem Grows.push {kind : Kind} {n c : Node} (kinds : Kind → Bool) (h : n.Grows kind) (hkind : kind ≠ .error)
    (hc : c.Yields kinds) (hfits : n.Fits → kinds c.kind = true → (n.push c).Fits) : (n.push c).Grows kind := by
  refine ⟨h.kind_eq, fun herrors => ?_⟩
  obtain ⟨hn, hcerrors⟩ := (errors_push_eq_nil (h.ne_error hkind)).mp herrors
  have hshaped := h.shaped hn
  obtain ⟨hckind, hcshaped⟩ := hc hcerrors
  exact ⟨hfits hshaped.fits hckind, parts_push hshaped.parts hcshaped⟩

theorem Grows.of_children {kind : Kind} {n : Node} (cs : List Node) (hk : n.kind = kind) (hkind : kind ≠ .error)
    (hcs : n.children = cs) (h : (∀ c ∈ cs, c.errors = []) → n.Fits ∧ ∀ c ∈ cs, c.Shaped) : n.Grows kind := by
  subst hcs
  refine ⟨hk, fun herrors => ?_⟩
  rw [errors_of_kind (hk ▸ hkind), flatMap_errors_eq_nil] at herrors
  obtain ⟨hfits, hparts⟩ := h herrors
  exact ⟨hfits, hparts⟩

/-- A pipe of some stages at least. -/
structure Pipes (count : Nat) (n : Node) : Prop where
  kind_eq : n.kind = .pipeExpr
  shaped : n.errors = [] →
    count ≤ n.stages.length ∧ (∀ c ∈ n.stages, c.kind.isStatement = true) ∧ ∀ c ∈ n.children, c.Shaped

theorem Pipes.grows {n : Node} (h : n.Pipes 2) : n.Grows .pipeExpr := by
  refine ⟨h.kind_eq, fun herrors => ?_⟩
  obtain ⟨hcount, hstages, hparts⟩ := h.shaped herrors
  refine ⟨?_, hparts⟩
  rw [Fits, h.kind_eq]
  exact ⟨hcount, hstages⟩

theorem Pipes.mono {k m : Nat} {n : Node} (h : n.Pipes m) (hle : k ≤ m) : n.Pipes k := by
  refine ⟨h.kind_eq, fun herrors => ?_⟩
  obtain ⟨hcount, hstages⟩ := h.shaped herrors
  exact ⟨Nat.le_trans hle hcount, hstages⟩

end Node
namespace Grammar
set_option autoImplicit false
open Token (KindSet)
open Parsing
open Node

section
variable {setup : Setup} {exact : Prop} {s t : Snapshot} {tok : Token}

/-! ## Productions without recursion -/

theorem yields_faultNode (kinds : Kind → Bool) (c : Complaint) (span : Span) :
    (faultNode setup c span).Yields kinds := by
  intro herrors
  rw [errors_faultNode] at herrors
  cases herrors

theorem Expects.yields {accept : KindSet} {k : Token.Kind} {kind : Kind} {c : Complaint} {node : Node}
    (hfits : ∀ tok, (leaf kind tok).Fits) (h : Expects setup exact s accept k kind c node t) :
    node.Yields (· == kind) := by
  cases h with
  | found => exact fun _ => ⟨beq_self_eq_true kind, shaped_leaf (hfits _)⟩
  | absent => exact yields_faultNode _ _ _

theorem EndStatement.yields {stop : KindSet} {junk : Option Node} (h : EndStatement setup exact s stop junk t) :
    ∀ c ∈ junk.toList, c.Yields Kind.isStatement := by
  cases h with
  | clean => exact nofun
  | junk => exact List.forall_mem_singleton.mpr (yields_faultNode _ _ _)

theorem Colon.yields {node : Node} (h : Colon setup exact s node t) : node.Yields Kind.isPunctuation := by
  intro herrors
  have hfits (tok : Token) : (leaf .colon tok).Fits := trivial
  obtain ⟨hkind, hshaped⟩ := Expects.yields hfits h herrors
  rw [eq_of_beq hkind]
  exact ⟨rfl, hshaped⟩

/-- Punctuation does not count in functions and conditionals. -/
theorem fits_push_punctuation {n c : Node} (hn : n.kind = .functionDef ∨ n.kind = .ifExpr) (h : n.Fits)
    (hc : c.kind.isPunctuation = true) : (n.push c).Fits := by
  have hsame : (n.push c).significant = n.significant := by
    rw [significant_push, if_pos hc, List.append_nil]
  rcases hn with hk | hk <;> rw [Fits, hk] at h <;> rw [Fits, push_kind, hk, hsame] <;> exact h

theorem CloseBody.grows {node whole : Node} {block : Bool} {kind : Kind} (hk : kind = .functionDef ∨ kind = .ifExpr)
    (hnode : node.Grows kind) (h : CloseBody setup exact s node block whole t) : whole.Grows kind := by
  have hne : kind ≠ .error := by
    rcases hk with rfl | rfl <;> exact Kind.noConfusion
  have hfits (c : Node) : node.Fits → c.kind.isPunctuation = true → (node.push c).Fits :=
    fits_push_punctuation (hnode.kind_eq.symm ▸ hk)
  cases h with
  | closed => exact hnode.push Kind.isPunctuation hne (fun _ => ⟨rfl, shaped_leaf trivial⟩) (hfits _)
  | missing => exact hnode.push Kind.isPunctuation hne (yields_faultNode _ _ _) (hfits _)
  | without => exact hnode

theorem DotGet.yields {node : Node} (h : DotGet setup exact s tok node t) : node.Yields Kind.isStatement := by
  have hname (tok : Token) : (leaf .identifier tok).Shaped := shaped_leaf trivial
  cases h with
  | @found dot prop =>
    intro _
    refine ⟨rfl, ⟨_, _, rfl, rfl, rfl⟩, parts_push ?_ (hname prop)⟩
    intro c hc
    rw [List.mem_singleton.mp hc]
    exact hname tok
  | absent =>
    intro herrors
    rw [errors_push_eq_nil Kind.noConfusion, errors_faultNode] at herrors
    cases herrors.2

theorem Params.grows {node list : Node} (h : Params setup exact s node list t) (hnode : node.Grows .params) :
    list.Grows .params := by
  induction h with
  | @name s t node list tok _ _ _ ih =>
    refine ih (hnode.push (· == .identifier) Kind.noConfusion (fun _ => ⟨rfl, shaped_leaf trivial⟩) ?_)
    intro hfits hkind
    rw [Fits, hnode.kind_eq] at hfits
    rw [Fits, push_kind, hnode.kind_eq]
    simp only [push_children, List.forall_mem_append, List.forall_mem_singleton]
    exact ⟨hfits, eq_of_beq hkind⟩
  | bad _ _ _ ih => exact ih (hnode.push (fun _ => false) Kind.noConfusion (yields_faultNode _ _ _) fun _ h => nomatch h)
  | done => exact hnode

theorem grows_paramList {list : Node} (h : list.Grows .params) (pos : Nat) : (paramList list pos).Grows .params := by
  rw [paramList]
  split
  · refine ⟨h.kind_eq, fun herrors => (h.shaped ?_).withSpan _⟩
    rwa [errors_span (h.ne_error Kind.noConfusion)] at herrors
  · exact h

theorem CloseParen.grows {node whole : Node} (hnode : node.Grows .parenExpr)
    (h : CloseParen setup exact s node whole t) : whole.Grows .parenExpr := by
  cases h with
  | closed =>
    refine ⟨hnode.kind_eq, fun herrors => (hnode.shaped ?_).withSpan _⟩
    rwa [errors_span (hnode.ne_error Kind.noConfusion)] at herrors
  | missing => exact hnode.push (fun _ => false) Kind.noConfusion (yields_faultNode _ _ _) fun _ h => nomatch h

theorem Junk.grows {node whole : Node} (h : Junk setup exact s node whole t) (hnode : node.Grows .parenExpr) :
    whole.Grows .parenExpr := by
  induction h with
  | done => exact hnode
  | more _ _ _ ih => exact ih (hnode.push (fun _ => false) Kind.noConfusion (yields_faultNode _ _ _) fun _ h => nomatch h)

theorem yields_blockNode {stmts : List Node} (h : ∀ c ∈ stmts, c.Yields Kind.isStatement) (pos : Nat) :
    (blockNode pos stmts).Yields (· == .thenBlock) := by
  intro herrors
  rw [errors_blockNode, flatMap_errors_eq_nil] at herrors
  have hkinds : ∀ c ∈ stmts, c.kind.isStatement = true := fun c hc => (h c hc (herrors c hc)).1
  have hshaped : ∀ c ∈ stmts, c.Shaped := fun c hc => (h c hc (herrors c hc)).2
  rw [blockNode]
  split
  · exact ⟨rfl, ⟨List.forall_mem_nil _, List.forall_mem_nil _⟩⟩
  · exact ⟨rfl, ⟨hkinds, hshaped⟩⟩

/-- A lone name is called or not. -/
theorem yields_loneName {id : Node} (names : Scope.Names) (hkind : id.kind = .identifier)
    (h : id.Yields Kind.isStatement) : (loneName setup names id).Yields Kind.isStatement := by
  intro herrors
  rw [errors_loneName] at herrors
  have hparts : ∀ c ∈ [id], c.Shaped := List.forall_mem_singleton.mpr (h herrors).2
  have hcall : (branch .functionCall [id]).Shaped := ⟨⟨id, [], rfl, hkind, nofun⟩, hparts⟩
  have hname : (branch .callOrIdentifier [id]).Shaped := ⟨⟨id, rfl, hkind⟩, hparts⟩
  rw [loneName]
  split <;> split
  all_goals first | exact ⟨rfl, hcall⟩ | exact ⟨rfl, hname⟩

/-- A binary operator has one of the spellings of operators and keywords. -/
theorem spelled_of_precedence {k : Token.Kind} {text : Text} (hadmits : k.Admits text) (hprec : precedence k ≠ 0) :
    (text, k) ∈ Token.Kind.operators ∨ (text, k) ∈ Token.Kind.keywords := by
  have hspelled : k.isOperator = true ∨ k.isKeyword = true := by
    revert hprec
    cases k <;> decide
  exact hspelled.imp (fun h => Token.mem_of_lookup (hadmits.operator (.inl h))) fun h =>
    Token.mem_of_lookup (hadmits.keyword (.inl h))

/-- What a binary operator spells is one that its node may have. -/
theorem spells_of_precedence {k : Token.Kind} {text : Text} (hadmits : k.Admits text) (hprec : precedence k ≠ 0) :
    (precedence k ≤ 3 ∧ (text = "and" ∨ text = "or" ∨ (OfTree.comparison? text).isSome = true)) ∨
      (¬ precedence k ≤ 3 ∧ (OfTree.arithmetic? text).isSome = true) := by
  have hoperator : ∀ p ∈ Token.Kind.operators, precedence p.2 ≠ 0 →
      (precedence p.2 ≤ 3 ∧ (OfTree.comparison? p.1).isSome = true) ∨
        (¬ precedence p.2 ≤ 3 ∧ (OfTree.arithmetic? p.1).isSome = true) := by decide
  have hkeyword : ∀ p ∈ Token.Kind.keywords, precedence p.2 ≠ 0 →
      precedence p.2 ≤ 3 ∧ (p.1 = ("and" : Text) ∨ p.1 = ("or" : Text)) := by decide
  rcases spelled_of_precedence hadmits hprec with h | h
  · rcases hoperator _ h hprec with ⟨hlow, hspells⟩ | hhigh
    · exact .inl ⟨hlow, .inr (.inr hspells)⟩
    · exact .inr hhigh
  · obtain ⟨hlow, hspells⟩ := hkeyword _ h hprec
    exact .inl ⟨hlow, hspells.elim .inl fun h => .inr (.inl h)⟩

theorem Looks.admits_of_precedence {accept : KindSet} (h : Looks setup exact s accept tok)
    (hprec : precedence tok.kind ≠ 0) : tok.kind.Admits tok.text := by
  refine (h.stands ?_).admits
  intro heof
  rw [heof] at hprec
  exact hprec rfl

theorem yields_operatorNode {left right : Node} (hadmits : tok.kind.Admits tok.text)
    (hprec : precedence tok.kind ≠ 0) (hleft : left.Yields Kind.isStatement) (hright : right.Yields Kind.isStatement) :
    (Node.branch (operatorNode (precedence tok.kind)) [left, .leaf .operator tok, right]).Yields Kind.isStatement := by
  intro herrors
  rw [errors_branch (operatorNode_ne_error _), flatMap_errors_eq_nil] at herrors
  obtain ⟨hleftKind, hleftShaped⟩ := hleft (herrors left (by simp))
  obtain ⟨hrightKind, hrightShaped⟩ := hright (herrors right (by simp))
  have hparts : ∀ c ∈ [left, leaf .operator tok, right], c.Shaped := by
    simp only [List.forall_mem_cons]
    exact ⟨hleftShaped, shaped_leaf trivial, hrightShaped, nofun⟩
  rw [operatorNode]
  rcases spells_of_precedence hadmits hprec with ⟨hlow, hspells⟩ | ⟨hhigh, hspells⟩
  · rw [if_pos hlow]
    exact ⟨rfl, ⟨⟨left, _, right, rfl, hleftKind, rfl, hspells, hrightKind⟩, hparts⟩⟩
  · rw [if_neg hhigh]
    exact ⟨rfl, ⟨⟨left, _, right, rfl, hleftKind, rfl, hspells, hrightKind⟩, hparts⟩⟩

end

/-! ## Productions -/

/-- What a production is given to add to. -/
def Production.Given : Production → Prop
  | .branches node _ _ => node.Grows .ifExpr
  | .stages node _ => node.Pipes 1
  | .operators _ left => left.Yields Kind.isStatement
  | .call id => id.kind = .identifier ∧ id.Shaped
  | .args node _ => node.Grows .functionCall
  | .stringPieces _ node => node.Grows .string
  | .wordPieces node => node.Grows .word
  | _ => True

/-- The shape of what a production answers. -/
def Production.Shapes : (p : Production) → p.Answer → Prop
  | .statements _, stmts | .inlineBody _, stmts => ∀ c ∈ stmts, c.Yields Kind.isStatement
  | .body _, (stmts, _) => ∀ c ∈ stmts, c.Yields Kind.isStatement
  | .inlineRest _, rest => ∀ stmts, rest = some stmts → ∀ c ∈ stmts, c.Yields Kind.isStatement
  | .operators _ _, more => ∀ node, more = some node → node.Yields Kind.isStatement
  | .arg _, node => node.Yields Kind.isArg
  | .piece _, node => node.Yields Kind.isPiece
  | .statement, node | .assign _, node | .functionDef _, node | .ifExpr _, node | .branches _ _ _, node
  | .expression, node | .stages _ _, node | .binary _ _, node | .operand _ _, node | .operandBody _ _, node
  | .call _, node | .args _ _, node | .parenBody _, node | .stringPieces _ _, node | .wordPieces _, node =>
    node.Yields Kind.isStatement

variable {setup : Setup} {exact : Prop}

/-- What counts among a keyword, some parts that count, a colon and some more parts that count. -/
theorem significant_eq {n colon : Node} {tok : Token} (parts more : List Node)
    (hn : n.children = leaf .keyword tok :: parts ++ colon :: more)
    (hparts : ∀ c ∈ parts, c.kind.isPunctuation = false) (hcolon : colon.kind.isPunctuation = true)
    (hmore : ∀ c ∈ more, c.kind.isPunctuation = false) : n.significant = parts ++ more := by
  have hall {cs : List Node} (h : ∀ c ∈ cs, c.kind.isPunctuation = false) :
      cs.filter (fun c => !c.kind.isPunctuation) = cs :=
    List.filter_eq_self.mpr fun c hc => by rw [h c hc]; rfl
  rw [significant, hn, List.cons_append, List.filter_cons_of_neg (by simp [Kind.isPunctuation]), List.filter_append,
    List.filter_cons_of_neg (by simp [hcolon]), hall hparts, hall hmore]

/-- A condition and a block, as conditionals start and go on. -/
theorem condition_block {n condition c block : Node} {tok : Token}
    (hn : n.children = [leaf .keyword tok, condition, c, block]) (hcondition : condition.Yields Kind.isStatement)
    (hc : c.Yields Kind.isPunctuation) (hblock : block.Yields (· == .thenBlock))
    (herrors : ∀ c ∈ n.children, c.errors = []) :
    n.significant = [condition, block] ∧ condition.kind.isStatement = true ∧ block.kind = .thenBlock ∧
      ∀ c ∈ n.children, c.Shaped := by
  rw [hn] at herrors
  simp only [List.forall_mem_cons] at herrors
  obtain ⟨-, hcondition', hc', hblock', -⟩ := herrors
  obtain ⟨hconditionKind, hconditionShaped⟩ := hcondition hcondition'
  obtain ⟨hcKind, hcShaped⟩ := hc hc'
  obtain ⟨hblockKind, hblockShaped⟩ := hblock hblock'
  have hthen : block.kind = .thenBlock := eq_of_beq hblockKind
  refine ⟨?_, hconditionKind, hthen, ?_⟩
  · refine significant_eq [condition] [block] hn ?_ hcKind ?_
    · exact List.forall_mem_singleton.mpr (Kind.isPunctuation_of_isStatement hconditionKind)
    · exact List.forall_mem_singleton.mpr (by rw [hthen]; rfl)
  · rw [hn]
    simp only [List.forall_mem_cons]
    exact ⟨shaped_leaf trivial, hconditionShaped, hcShaped, hblockShaped, nofun⟩

theorem grows_ifExpr {condition c block : Node} (tok : Token) (hcondition : condition.Yields Kind.isStatement)
    (hc : c.Yields Kind.isPunctuation) (hblock : block.Yields (· == .thenBlock)) :
    ((((branch .ifExpr [leaf .keyword tok]).push condition).push c).push block).Grows .ifExpr := by
  refine .of_children _ rfl Kind.noConfusion rfl fun herrors => ?_
  obtain ⟨hsignificant, hconditionKind, hblockKind, hparts⟩ := condition_block rfl hcondition hc hblock herrors
  exact ⟨⟨condition, block, [], hsignificant, hconditionKind, hblockKind, nofun⟩, hparts⟩

theorem yields_elsifExpr {condition c block : Node} (tok : Token) (hcondition : condition.Yields Kind.isStatement)
    (hc : c.Yields Kind.isPunctuation) (hblock : block.Yields (· == .thenBlock)) :
    ((((branch .elsifExpr [leaf .keyword tok]).push condition).push c).push block).Yields Kind.isBranch := by
  refine (Grows.of_children _ rfl Kind.noConfusion rfl fun herrors => ?_).yields rfl
  obtain ⟨hsignificant, hconditionKind, hblockKind, hparts⟩ := condition_block rfl hcondition hc hblock herrors
  exact ⟨⟨condition, block, hsignificant, hconditionKind, hblockKind⟩, hparts⟩

theorem yields_elseExpr {c block : Node} (tok : Token) (hc : c.Yields Kind.isPunctuation)
    (hblock : block.Yields (· == .thenBlock)) :
    (((branch .elseExpr [leaf .keyword tok]).push c).push block).Yields Kind.isBranch := by
  refine (Grows.of_children [leaf .keyword tok, c, block] rfl Kind.noConfusion rfl fun herrors => ?_).yields rfl
  simp only [List.forall_mem_cons] at herrors ⊢
  obtain ⟨hcKind, hcShaped⟩ := hc herrors.2.1
  obtain ⟨hblockKind, hblockShaped⟩ := hblock herrors.2.2.1
  have hthen : block.kind = .thenBlock := eq_of_beq hblockKind
  refine ⟨⟨block, ?_, hthen⟩, shaped_leaf trivial, hcShaped, hblockShaped, nofun⟩
  refine significant_eq [] [block] rfl nofun hcKind ?_
  exact List.forall_mem_singleton.mpr (by rw [hthen]; rfl)

theorem Grows.push_branch {node b : Node} (hnode : node.Grows .ifExpr) (hb : b.Yields Kind.isBranch) :
    (node.push b).Grows .ifExpr := by
  refine hnode.push Kind.isBranch Kind.noConfusion hb fun hfits hkind => ?_
  rw [Fits, hnode.kind_eq] at hfits
  rw [Fits, push_kind, hnode.kind_eq]
  obtain ⟨condition, block, rest, hsignificant, hconditionKind, hblockKind, hrest⟩ := hfits
  have hb : b.kind.isPunctuation = false := by
    cases h : b.kind <;> rw [h] at hkind <;> first | rfl | cases hkind
  refine ⟨condition, block, rest ++ [b], ?_, hconditionKind, hblockKind, ?_⟩
  · rw [significant_push, hsignificant, hb]
    rfl
  · exact List.forall_mem_append.mpr ⟨hrest, List.forall_mem_singleton.mpr hkind⟩

theorem grows_functionDef {list c : Node} {stmts : List Node} (tok : Token) (hlist : list.Grows .params)
    (hc : c.Yields Kind.isPunctuation) (hstmts : ∀ c ∈ stmts, c.Yields Kind.isStatement) :
    ((((branch .functionDef [leaf .keyword tok]).push list).push c).append stmts).Grows .functionDef := by
  have hchildren := append_children (((branch .functionDef [leaf .keyword tok]).push list).push c) stmts
  refine .of_children _ (append_kind ..) Kind.noConfusion hchildren fun herrors => ?_
  simp only [push_children, branch_children, List.forall_mem_append, List.forall_mem_singleton] at herrors ⊢
  obtain ⟨⟨⟨-, hlistErrors⟩, hcErrors⟩, hstmtsErrors⟩ := herrors
  obtain ⟨hcKind, hcShaped⟩ := hc hcErrors
  have hkinds : ∀ c ∈ stmts, c.kind.isStatement = true := fun c hc => (hstmts c hc (hstmtsErrors c hc)).1
  refine ⟨?_, ⟨⟨shaped_leaf trivial, hlist.shaped hlistErrors⟩, hcShaped⟩,
    fun c hc => (hstmts c hc (hstmtsErrors c hc)).2⟩
  rw [Fits, append_kind]
  refine ⟨list, stmts, ?_, hlist.kind_eq, hkinds⟩
  refine significant_eq [list] stmts hchildren ?_ hcKind fun c hc => Kind.isPunctuation_of_isStatement (hkinds c hc)
  exact List.forall_mem_singleton.mpr (by rw [hlist.kind_eq]; rfl)

theorem yields_assign {op value : Node} (tok : Token) (hop : op.Yields (· == .operator))
    (hvalue : value.Yields Kind.isStatement) :
    (((branch .assign [leaf .assignable tok]).push op).push value).Yields Kind.isStatement := by
  refine (Grows.of_children [leaf .assignable tok, op, value] rfl Kind.noConfusion rfl fun herrors => ?_).yields rfl
  simp only [List.forall_mem_cons] at herrors ⊢
  obtain ⟨hopKind, hopShaped⟩ := hop herrors.2.1
  obtain ⟨hvalueKind, hvalueShaped⟩ := hvalue herrors.2.2.1
  exact ⟨⟨_, op, value, rfl, rfl, eq_of_beq hopKind, hvalueKind⟩, shaped_leaf trivial, hopShaped, hvalueShaped, nofun⟩

theorem pipes_first {left : Node} (h : left.Yields Kind.isStatement) : (branch .pipeExpr [left]).Pipes 1 := by
  refine ⟨rfl, fun herrors => ?_⟩
  rw [errors_branch Kind.noConfusion, flatMap_errors_eq_nil, List.forall_mem_singleton] at herrors
  obtain ⟨hleft, hshaped⟩ := h herrors
  have hstages : (branch .pipeExpr [left]).stages = [left] :=
    List.filter_eq_self.mpr (List.forall_mem_singleton.mpr (by simpa using Kind.ne_operator_of_isStatement hleft))
  rw [hstages]
  exact ⟨Nat.le_refl _, List.forall_mem_singleton.mpr hleft, List.forall_mem_singleton.mpr hshaped⟩

theorem pipes_push {k : Nat} {node value : Node} (tok : Token) (h : node.Pipes k)
    (hvalue : value.Yields Kind.isStatement) : ((node.push (leaf .operator tok)).push value).Pipes (k + 1) := by
  have hne : ¬ node.kind = .error := h.kind_eq ▸ Kind.noConfusion
  refine ⟨h.kind_eq, fun herrors => ?_⟩
  have hne' : ¬ (node.push (leaf .operator tok)).kind = .error := hne
  rw [errors_push_eq_nil hne', errors_push_eq_nil hne] at herrors
  obtain ⟨hcount, hstages, hparts⟩ := h.shaped herrors.1.1
  obtain ⟨hkind, hshaped⟩ := hvalue herrors.2
  have hall : ((node.push (leaf .operator tok)).push value).stages = node.stages ++ [value] := by
    rw [stages_push, stages_push, if_neg (Kind.ne_operator_of_isStatement hkind)]
    exact congrArg (· ++ [value]) (List.append_nil _)
  rw [hall]
  refine ⟨?_, List.forall_mem_append.mpr ⟨hstages, List.forall_mem_singleton.mpr hkind⟩, ?_⟩
  · rw [List.length_append]
    exact Nat.succ_le_succ hcount
  · exact parts_push (parts_push hparts (shaped_leaf trivial)) hshaped

/-! ## Calls and groups -/

theorem Grows.push_arg {node a : Node} (hnode : node.Grows .functionCall) (ha : a.Yields Kind.isArg) :
    (node.push a).Grows .functionCall := by
  refine hnode.push Kind.isArg Kind.noConfusion ha fun hfits hkind => ?_
  rw [Fits, hnode.kind_eq] at hfits
  rw [Fits, push_kind, hnode.kind_eq]
  obtain ⟨name, args, hchildren, hname, hargs⟩ := hfits
  refine ⟨name, args ++ [a], ?_, hname, List.forall_mem_append.mpr ⟨hargs, List.forall_mem_singleton.mpr hkind⟩⟩
  rw [push_children, hchildren]
  rfl

theorem Grows.push_piece {kind : Kind} {node part : Node} (hk : kind = .string ∨ kind = .word)
    (hnode : node.Grows kind) (hpart : part.Yields Kind.isPiece) : (node.push part).Grows kind := by
  have hne : kind ≠ .error := by
    rcases hk with rfl | rfl <;> exact Kind.noConfusion
  refine hnode.push Kind.isPiece hne hpart fun hfits hkind => ?_
  have hsame : (node.push part).kind = kind := hnode.kind_eq
  have hall (h : ∀ c ∈ node.children, c.kind.isPiece = true) : ∀ c ∈ (node.push part).children, c.kind.isPiece = true :=
    List.forall_mem_append.mpr ⟨h, List.forall_mem_singleton.mpr hkind⟩
  rcases hk with rfl | rfl <;> rw [Fits, hnode.kind_eq] at hfits <;> rw [Fits, hsame] <;> exact hall hfits

theorem yields_piece {kind : Kind} (hk : kind.isPiece = true) {tok : Token} (hfits : (leaf kind tok).Fits) :
    (leaf kind tok).Yields Kind.isPiece :=
  fun _ => ⟨hk, shaped_leaf hfits⟩

theorem grows_empty {kind : Kind} (span : Span) (hfits : ({ kind, span } : Node).Fits) :
    ({ kind, span } : Node).Grows kind :=
  ⟨rfl, fun _ => ⟨hfits, nofun⟩⟩

theorem grows_group {value : Node} (opening : Span) (h : value.Yields Kind.isStatement) :
    (({ kind := .parenExpr, span := opening } : Node).push value).Grows .parenExpr := by
  have hempty : ({ kind := .parenExpr, span := opening } : Node).Grows .parenExpr := grows_empty opening (Or.inl rfl)
  exact hempty.push Kind.isStatement Kind.noConfusion h fun _ hkind => Or.inr ⟨value, rfl, hkind⟩

theorem yields_around (kind : Kind) {kinds : Kind → Bool} {n value : Node} (hk : n.kind = kind) (hkind : kind ≠ .error)
    (hn : n.children = [value]) (hkinds : kinds kind = true) (h : value.Yields Kind.isStatement)
    (hfits : value.kind.isStatement = true → n.Fits) : n.Yields kinds := by
  refine (Grows.of_children [value] hk hkind hn fun herrors => ?_).yields hkinds
  obtain ⟨hvalue, hshaped⟩ := h (herrors value (List.mem_singleton_self value))
  exact ⟨hfits hvalue, List.forall_mem_singleton.mpr hshaped⟩

theorem yields_namedArg {value : Node} (tok : Token) (h : value.Yields Kind.isStatement) :
    ((branch .namedArg [leaf .argName tok]).push value).Yields Kind.isArg := by
  refine (Grows.of_children [leaf .argName tok, value] rfl Kind.noConfusion rfl fun herrors => ?_).yields rfl
  simp only [List.forall_mem_cons] at herrors ⊢
  obtain ⟨hkind, hshaped⟩ := h herrors.2.1
  exact ⟨⟨_, value, rfl, rfl, hkind⟩, shaped_leaf trivial, hshaped, nofun⟩

theorem yields_literal {tok : Token} {kind : Kind} (hadmits : tok.kind.Admits tok.text)
    (hk : literalKind? tok.kind = some kind) : (leaf kind tok).Yields Kind.isStatement := by
  unfold literalKind? at hk
  split at hk <;> cases hk
  · exact fun _ => ⟨rfl, shaped_leaf trivial⟩
  · exact fun _ => ⟨rfl, shaped_leaf trivial⟩
  · rename_i hregex
    exact fun _ => ⟨rfl, shaped_leaf (hadmits.regex hregex)⟩

/-! ## All productions -/

/-- Without error nodes, what is read has the shape that its production gives it. -/
theorem Reads.shaped {p : Production} {s t : Snapshot} {a : p.Answer} (h : Reads setup exact p s a t) :
    p.Given → p.Shapes a := by
  induction h with
  | halted | off | noMore => exact fun _ => nofun
  | separator _ _ _ _ _ _ ih => exact ih
  | next _ _ _ _ _ _ hjunk _ ihstmt ihrest =>
    rintro -
    exact List.forall_mem_append.mpr ⟨List.forall_mem_cons.mpr ⟨ihstmt trivial, hjunk.yields⟩, ihrest trivial⟩
  | assignment _ _ _ ih | evaluate _ _ _ _ ih | function _ _ ih | conditional _ _ ih | alone _ _ _ ih
  | operand _ _ _ ih => exact ih
  | noStatement | tooDeep | noOperand | badOperand => exact fun _ => yields_faultNode _ _ _
  | assign _ _ hop _ ih =>
    have hfits (tok : Token) : (leaf .operator tok).Fits := trivial
    exact fun _ => yields_assign _ (hop.yields hfits) (ih trivial)
  | block _ _ _ ih | inlined _ _ _ _ ih => exact fun _ => ih trivial
  | noBody => exact fun _ => nofun
  | several _ _ ihfirst ihrest => exact fun _ => List.forall_mem_cons.mpr ⟨ihfirst trivial, ihrest trivial _ rfl⟩
  | single _ _ ihfirst _ => exact fun _ => List.forall_mem_singleton.mpr (ihfirst trivial)
  | restClosed | restClosedNext =>
    rintro - _ ⟨⟩
    exact nofun
  | restOpen | restOpenNext =>
    rintro - _ ⟨⟩
  | restMore _ _ _ _ _ _ _ _ ihstmt ihrest =>
    intro _ stmts hstmts
    obtain ⟨rest, hrest, rfl⟩ := Option.map_eq_some_iff.mp hstmts
    exact List.forall_mem_cons.mpr ⟨ihstmt trivial, ihrest trivial rest hrest⟩
  | functionDef _ _ hparams hcolon _ hclose ih =>
    rintro -
    have hlist := hparams.grows (grows_empty _ nofun)
    exact (hclose.grows (.inl rfl)
      (grows_functionDef _ (grows_paramList hlist _) hcolon.yields (ih trivial))).yields rfl
  | ifExpr _ _ _ hcolon _ _ ihcondition ihbody ihbranches =>
    rintro -
    exact ihbranches (grows_ifExpr _ (ihcondition trivial) hcolon.yields (yields_blockNode (ihbody trivial) _))
  | elsif _ _ _ hcolon _ _ ihcondition ihbody ihbranches =>
    intro hnode
    exact ihbranches (Grows.push_branch hnode
      (yields_elsifExpr _ (ihcondition trivial) hcolon.yields (yields_blockNode (ihbody trivial) _)))
  | otherwise _ _ hcolon _ _ ihbody ihbranches =>
    intro hnode
    exact ihbranches (Grows.push_branch hnode (yields_elseExpr _ hcolon.yields (yields_blockNode (ihbody trivial) _)))
  | endIf _ _ _ hclose =>
    intro hnode
    exact (hclose.grows (.inr rfl) hnode).yields rfl
  | pipe _ _ _ _ ihleft ihstages => exact fun _ => ihstages (pipes_first (ihleft trivial))
  | stage _ _ _ _ _ _ ihvalue ihrest =>
    intro hnode
    exact ihrest ((pipes_push _ hnode (ihvalue trivial)).mono (by decide))
  | lastStage _ _ _ _ _ ih =>
    intro hnode
    exact (pipes_push _ hnode (ih trivial)).grows.yields rfl
  | operation _ _ _ ihleft ihops => exact fun _ => ihops (ihleft trivial) _ rfl
  | lone _ _ _ hlone ihleft _ =>
    rintro -
    rw [Bool.and_eq_true, beq_iff_eq] at hlone
    exact yields_loneName _ hlone.2 (ihleft trivial)
  | justOperand _ _ _ _ ihleft _ => exact fun _ => ihleft trivial
  | noOperator =>
    rintro - _ ⟨⟩
  | operator hlook hprec _ _ ihright ihmore =>
    rintro hleft _ ⟨⟩
    rw [not_or] at hprec
    have hadmits := hlook.admits_of_precedence hprec.1
    have hnode := yields_operatorNode hadmits hprec.1 hleft (ihright trivial)
    rename_i more _ _
    cases more with
    | none => exact hnode
    | some node => exact ihmore hnode node rfl
  | literal hheld hk =>
    rintro -
    obtain ⟨accept, hlook⟩ := hheld.looks
    exact yields_literal (hlook.stands (literalKind?_ne_eof hk)).admits hk
  | string _ _ _ ih => exact fun _ => ih (grows_empty _ nofun)
  | word _ _ _ ih => exact fun _ => ih (grows_empty _ nofun)
  | callee _ _ _ ih => exact fun _ => ih ⟨rfl, shaped_leaf trivial⟩
  | name => exact fun _ _ => ⟨rfl, shaped_leaf trivial⟩
  | dotGet _ _ h => exact fun _ => h.yields
  | group _ _ _ ih => exact fun _ => ih trivial
  | glued | noArgs =>
    rintro ⟨hkind, hshaped⟩ -
    exact ⟨hkind ▸ rfl, hshaped⟩
  | withArgs _ _ _ _ ih =>
    rintro ⟨hkind, hshaped⟩
    refine ih (.of_children [_] rfl Kind.noConfusion rfl fun _ => ⟨?_, List.forall_mem_singleton.mpr hshaped⟩)
    exact ⟨_, [], rfl, hkind, nofun⟩
  | moreArgs _ _ _ _ iharg ihrest => exact fun hnode => ihrest (Grows.push_arg hnode (iharg trivial))
  | lastArg _ _ _ ih => exact fun hnode => (Grows.push_arg hnode (ih trivial)).yields rfl
  | positional _ _ ih =>
    rintro -
    exact yields_around .positionalArg rfl Kind.noConfusion rfl rfl (ih trivial) fun hkind => ⟨_, rfl, hkind⟩
  | named _ _ _ _ _ ih => exact fun _ => yields_namedArg _ (ih trivial)
  | noValue => exact fun _ => yields_namedArg _ (yields_faultNode _ _ _)
  | emptyGroup _ _ hclose =>
    rintro -
    exact (hclose.grows (grows_empty _ (Or.inl rfl))).yields rfl
  | fullGroup _ _ _ hjunk hclose ih =>
    rintro -
    exact (hclose.grows (hjunk.grows (grows_group _ (ih trivial)))).yields rfl
  | closeQuote =>
    intro hnode herrors
    have hnode : Grows .string _ := hnode
    rw [errors_span (hnode.ne_error Kind.noConfusion)] at herrors
    exact ⟨hnode.kind_eq ▸ rfl, (hnode.shaped herrors).withSpan _⟩
  | unterminated =>
    intro hnode
    exact (Grows.push_piece (.inl rfl) hnode (yields_faultNode _ _ _)).yields rfl
  | stringText _ _ ih => exact fun hnode => ih (Grows.push_piece (.inl rfl) hnode (yields_piece rfl trivial))
  | stringPart _ _ ihpiece ih => exact fun hnode => ih (Grows.push_piece (.inl rfl) hnode (ihpiece trivial))
  | endWord => exact fun hnode => Grows.yields hnode rfl
  | wordText _ _ ih => exact fun hnode => ih (Grows.push_piece (.inr rfl) hnode (yields_piece rfl trivial))
  | wordPart _ _ ihpiece ih => exact fun hnode => ih (Grows.push_piece (.inr rfl) hnode (ihpiece trivial))
  | escape => exact fun _ => yields_piece rfl trivial
  | interpolatedName =>
    rintro -
    exact yields_around .interpolation rfl Kind.noConfusion rfl rfl (fun _ => ⟨rfl, ⟨trivial, nofun⟩⟩)
      fun hkind => ⟨_, rfl, hkind⟩
  | interpolated _ _ _ ih =>
    rintro -
    exact yields_around .interpolation rfl Kind.noConfusion rfl rfl (ih trivial) fun hkind => ⟨_, rfl, hkind⟩

/-- A tree without error nodes is shaped. -/
theorem Outcome.shaped {stmts : List Node} {t : Snapshot} (h : Outcome setup exact stmts t)
    (herrors : (parse setup).tree.errors = []) : (parse setup).tree.kind = .program ∧ (parse setup).tree.Shaped := by
  rw [h.tree_eq] at herrors ⊢
  have hunread : unread setup t = [] := by
    rw [errors_wholeTree, List.append_eq_nil_iff] at herrors
    exact herrors.2
  rw [errors_wholeTree, hunread, List.append_nil, flatMap_errors_eq_nil] at herrors
  have hstmts : ∀ c ∈ stmts, c.Yields Kind.isStatement := h.reads.shaped trivial
  have hchildren : (wholeTree setup stmts t).children = stmts := by
    rw [wholeTree, hunread]
    exact List.append_nil _
  refine ⟨rfl, ?_, ?_⟩
  · change ∀ c ∈ (wholeTree setup stmts t).children, c.kind.isStatement = true
    rw [hchildren]
    exact fun c hc => (hstmts c hc (herrors c hc)).1
  · rw [hchildren]
    exact fun c hc => (hstmts c hc (herrors c hc)).2

end Grammar
end Bareword.Tree
