import Bareword.Proofs.Tree.Shapes
import Bareword.Proofs.Tree.Spans

/-! # Where names are called

A name by itself reads the same whether it is meant or called. Which of the two it is follows from where it
stands: a statement, the value of an assignment, a stage of a pipe and what stands in parentheses may be a call,
an operand, a condition and the value of an argument may not.

* `Role`: what a child is to the node that it belongs to.
* `Node.Orderly`: the children of a node suit their roles, and a call without arguments calls a command.
* `Reads.ready`: what every production answers may stand where it is put.
* `parse_places_calls`: the names of a parse.
-/

namespace Bareword.Tree
set_option autoImplicit false

/-! ## Roles -/

/-- What a child is to the node that it belongs to. -/
inductive Role where
  /-- A statement of a program, of the body of a function or of a block. -/
  | statement
  /-- The value of an assignment. -/
  | assigned
  /-- A stage of a pipe. -/
  | stage
  /-- What stands in parentheses. -/
  | grouped
  /-- What an operator is applied to. -/
  | operand
  /-- The condition of a branch. -/
  | condition
  /-- The value of an argument. -/
  | argument
  /-- The name that is called. -/
  | callee
  /-- A parameter of a function. -/
  | parameter
  /-- A name before or after a dot. -/
  | part
  /-- What an interpolation shows. -/
  | interpolated
  /-- Anything else, such as a keyword or a further branch. -/
  | other
  deriving DecidableEq

namespace Role

/-- Where a name by itself may be called. -/
def calling : List Role := [.statement, .assigned, .stage, .grouped]

/-- Where a name by itself is only meant. -/
def naming : List Role := [.operand, .condition, .argument, .callee, .parameter, .part, .interpolated]

end Role

/-- What the child with an index is to a node of a kind. -/
def Kind.role : Kind → Nat → Role
  | .program, _ | .thenBlock, _ | .functionDef, _ + 3 => .statement
  | .assign, 2 => .assigned
  | .pipeExpr, _ => .stage
  | .parenExpr, _ => .grouped
  | .binOp, 0 | .binOp, 2 | .conditionalOp, 0 | .conditionalOp, 2 => .operand
  | .ifExpr, 1 | .elsifExpr, 1 => .condition
  | .positionalArg, 0 | .namedArg, 1 => .argument
  | .functionCall, 0 | .callOrIdentifier, 0 => .callee
  | .params, _ => .parameter
  | .dotGet, 0 | .dotGet, 1 => .part
  | .interpolation, 0 => .interpolated
  | _, _ => .other

theorem Kind.role_functionDef {i : Nat} (h : 3 ≤ i) : Kind.role .functionDef i = .statement := by
  obtain ⟨k, rfl⟩ := Nat.exists_eq_add_of_le' h
  rfl

namespace Node

/-- A node may have a role: calls stand only where names may be called, and names only where they are meant. -/
structure Suits (r : Role) (n : Node) : Prop where
  call : n.kind = .callOrIdentifier → r ∈ Role.calling
  name : n.kind = .identifier → r ∈ Role.naming

/-- The children of a node suit their roles. A call has a name and arguments; if it has no arguments, its name is
that of a command. -/
structure Orderly (commands : Option (Text → Bool)) (n : Node) : Prop where
  roles : ∀ (i : Nat) (c : Node), n.children[i]? = some c → c.Suits (n.kind.role i)
  call : n.kind = .functionCall → ∃ callee args, n.children = callee :: args ∧ callee.kind = .identifier ∧
    (∀ a ∈ args, a.kind.isArg = true) ∧
      (args = [] → ∃ isCommand, commands = some isCommand ∧ isCommand callee.text = true)

/-- A node that may have a role, with nothing out of order in it. -/
structure Ready (commands : Option (Text → Bool)) (r : Role) (n : Node) : Prop where
  suits : n.Suits r
  orderly : ∀ m ∈ n.preorder, m.Orderly commands

variable {commands : Option (Text → Bool)} {r r' : Role} {kind : Kind} {n c : Node} {cs ds : List Node} {k : Nat}

/-! ## Nodes that may have a role -/

theorem Suits.mono (h : n.Suits r) (hcalls : r ∈ Role.calling → r' ∈ Role.calling)
    (hnames : r ∈ Role.naming → r' ∈ Role.naming) : n.Suits r' :=
  ⟨fun hk => hcalls (h.call hk), fun hk => hnames (h.name hk)⟩

namespace Ready

/-- What may have a role of no name may have all roles. -/
theorem any (h : n.Ready commands .other) (r : Role) : n.Ready commands r :=
  ⟨h.suits.mono (fun hmem => absurd hmem (by decide)) fun hmem => absurd hmem (by decide), h.orderly⟩

/-- What may be a statement may stand wherever names may be called. -/
theorem called (h : n.Ready commands .statement) (hr : r ∈ Role.calling) : n.Ready commands r :=
  ⟨h.suits.mono (fun _ => hr) fun hmem => absurd hmem (by decide), h.orderly⟩

/-- What may be an operand may stand wherever names are meant. -/
theorem named (h : n.Ready commands .operand) (hr : r ∈ Role.naming) : n.Ready commands r :=
  ⟨h.suits.mono (fun hmem => absurd hmem (by decide)) fun _ => hr, h.orderly⟩

/-- An operand that is no name may be a statement. -/
theorem of_operand (h : n.Ready commands .operand) (hk : n.kind ≠ .identifier) : n.Ready commands .other :=
  ⟨⟨fun hcall => absurd (h.suits.call hcall) (by decide), fun hname => absurd hname hk⟩, h.orderly⟩

theorem withSpan (h : n.Ready commands r) (span : Span) : ({ n with span } : Node).Ready commands r := by
  obtain ⟨hself, hparts⟩ := forall_preorder.mp h.orderly
  exact ⟨⟨h.suits.call, h.suits.name⟩, forall_preorder.mpr ⟨⟨hself.roles, hself.call⟩, hparts⟩⟩

end Ready

/-! ## Children in their places -/

/-- Some children of a node of a kind, the first of which has the index `k`, may have their roles. -/
def Seated (commands : Option (Text → Bool)) (kind : Kind) : Nat → List Node → Prop
  | _, [] => True
  | k, c :: cs => c.Ready commands (kind.role k) ∧ Seated commands kind (k + 1) cs

theorem Seated.append (hcs : Seated commands kind k cs) (hds : Seated commands kind (k + cs.length) ds) :
    Seated commands kind k (cs ++ ds) := by
  induction cs generalizing k with
  | nil => exact hds
  | cons c cs ih =>
    refine ⟨hcs.1, ih hcs.2 ?_⟩
    rwa [Nat.add_assoc, Nat.add_comm 1]

theorem Seated.of_forall (h : ∀ c ∈ cs, ∀ i, k ≤ i → c.Ready commands (kind.role i)) : Seated commands kind k cs := by
  induction cs generalizing k with
  | nil => exact trivial
  | cons c cs ih =>
    obtain ⟨hc, hcs⟩ := List.forall_mem_cons.mp h
    exact ⟨hc k (Nat.le_refl k), ih fun d hd i hi => hcs d hd i (Nat.le_of_succ_le hi)⟩

theorem Seated.get (h : Seated commands kind k cs) {i : Nat} (hi : cs[i]? = some c) :
    c.Ready commands (kind.role (k + i)) := by
  induction cs generalizing k i with
  | nil => cases hi
  | cons d cs ih =>
    cases i with
    | zero =>
      cases hi
      exact h.1
    | succ i =>
      rw [Nat.add_comm i 1, ← Nat.add_assoc]
      exact ih h.2 hi

/-- A node of a kind whose children so far are in their places. -/
structure Frame (commands : Option (Text → Bool)) (kind : Kind) (n : Node) : Prop where
  kind_eq : n.kind = kind
  seated : Seated commands kind 0 n.children

/-- The kinds of names and calls. -/
def nameKinds : List Kind := [.identifier, .callOrIdentifier, .functionCall]

namespace Frame

theorem push (h : n.Frame commands kind) (hc : c.Ready commands (kind.role n.children.length)) :
    (n.push c).Frame commands kind :=
  ⟨h.kind_eq, h.seated.append ⟨by rwa [Nat.zero_add], trivial⟩⟩

theorem pushOther (h : n.Frame commands kind) (hc : c.Ready commands .other) : (n.push c).Frame commands kind :=
  h.push (hc.any _)

theorem withSpan (h : n.Frame commands kind) (span : Span) : ({ n with span } : Node).Frame commands kind :=
  ⟨h.kind_eq, h.seated⟩

theorem orderly (h : n.Frame commands kind) (hcall : kind = .functionCall → ∃ callee args,
      n.children = callee :: args ∧ callee.kind = .identifier ∧ (∀ a ∈ args, a.kind.isArg = true) ∧
        (args = [] → ∃ isCommand, commands = some isCommand ∧ isCommand callee.text = true)) :
    ∀ m ∈ n.preorder, m.Orderly commands := by
  have hseat (i : Nat) (c : Node) (hi : n.children[i]? = some c) : c.Ready commands (n.kind.role i) := by
    have hready := h.seated.get hi
    rwa [Nat.zero_add, ← h.kind_eq] at hready
  refine forall_preorder.mpr ⟨⟨fun i c hi => (hseat i c hi).suits, fun hk => hcall (h.kind_eq ▸ hk)⟩, fun c hc => ?_⟩
  obtain ⟨i, hi⟩ := List.mem_iff_getElem?.mp hc
  exact (hseat i c hi).orderly

/-- A node of another kind than names and calls have may stand anywhere. -/
theorem ready (h : n.Frame commands kind) (hkind : kind ∉ nameKinds) : n.Ready commands .other := by
  have hne {k : Kind} (hk : k ∈ nameKinds) : n.kind ≠ k := by
    rw [h.kind_eq]
    rintro rfl
    exact hkind hk
  refine ⟨⟨fun hk => absurd hk (hne (by decide)), fun hk => absurd hk (hne (by decide))⟩, h.orderly fun hk => ?_⟩
  exact absurd (h.kind_eq.trans hk) (hne (by decide))

end Frame

theorem ready_leaf (hkind : kind ∉ nameKinds) (tok : Token) : (leaf kind tok).Ready commands .other :=
  Frame.ready ⟨rfl, trivial⟩ hkind

theorem Frame.pushStage (h : n.Frame commands .pipeExpr) (hc : c.Ready commands .statement) (tok : Token) :
    ((n.push (leaf .operator tok)).push c).Frame commands .pipeExpr :=
  (h.pushOther (ready_leaf (by decide) tok)).push (hc.called (r := .stage) (by decide))

/-- A name may stand where names are meant. -/
theorem ready_name (hkind : n.kind = .identifier) (hchildren : n.children = []) : n.Ready commands .operand := by
  refine ⟨⟨fun hk => ?_, fun _ => by decide⟩, Frame.orderly ⟨hkind, hchildren ▸ trivial⟩ Kind.noConfusion⟩
  rw [hkind] at hk
  cases hk

/-! ## Calls -/

/-- A call with its name and the arguments so far. -/
structure Calls (commands : Option (Text → Bool)) (n : Node) : Prop where
  frame : n.Frame commands .functionCall
  call : ∃ callee args, n.children = callee :: args ∧ callee.kind = .identifier ∧ ∀ a ∈ args, a.kind.isArg = true

namespace Calls

theorem single (hkind : c.kind = .identifier) (hc : c.Ready commands .operand) :
    (branch .functionCall [c]).Calls commands :=
  ⟨⟨rfl, hc.named (by decide), trivial⟩, c, [], rfl, hkind, List.forall_mem_nil _⟩

theorem push (h : n.Calls commands) (hkind : c.kind.isArg = true) (hc : c.Ready commands .other) :
    (n.push c).Calls commands := by
  obtain ⟨callee, args, hchildren, hcallee, hargs⟩ := h.call
  refine ⟨h.frame.pushOther hc, callee, args ++ [c], ?_, hcallee, ?_⟩
  · rw [push_children, hchildren]
    rfl
  · exact List.forall_mem_append.mpr ⟨hargs, List.forall_mem_singleton.mpr hkind⟩

/-- A call with an argument may stand anywhere. -/
theorem ready_push (h : n.Calls commands) (hkind : c.kind.isArg = true) (hc : c.Ready commands .other) :
    (n.push c).Ready commands .other := by
  obtain ⟨callee, args, hchildren, hcallee, hargs⟩ := (h.push hkind hc).call
  have hk : (n.push c).kind = .functionCall := h.frame.kind_eq
  refine ⟨⟨fun hcall => ?_, fun hname => ?_⟩, (h.push hkind hc).frame.orderly fun _ => ?_⟩
  · rw [hk] at hcall
    cases hcall
  · rw [hk] at hname
    cases hname
  · refine ⟨callee, args, hchildren, hcallee, hargs, ?_⟩
    rintro rfl
    -- There were a name and an argument.
    have hlength := congrArg List.length hchildren
    obtain ⟨callee', args', hchildren', -⟩ := h.call
    rw [push_children, hchildren'] at hlength
    simp at hlength

end Calls
end Node

namespace Grammar
open Token (KindSet)
open Parsing
open Node

variable {setup : Setup} {exact : Prop} {s t : Snapshot} {tok : Token} {n : Node} {accept : KindSet}
  {commands : Option (Text → Bool)}

/-! ## Productions without recursion -/

theorem ready_faultNode (c : Complaint) (span : Span) : (faultNode setup c span).Ready commands .other := by
  have hfault : (faultNode setup c span).Frame commands .error := ⟨rfl, trivial⟩
  exact hfault.ready (by decide)

theorem Expects.ready {k : Token.Kind} {kind : Kind} {c : Complaint} (hkind : kind ∉ nameKinds)
    (h : Expects setup exact s accept k kind c n t) : n.Ready commands .other := by
  cases h with
  | found => exact ready_leaf hkind _
  | absent => exact ready_faultNode _ _

theorem Colon.ready (h : Colon setup exact s n t) : n.Ready commands .other := Expects.ready (by decide) h

theorem EndStatement.ready {stop : KindSet} {junk : Option Node} (h : EndStatement setup exact s stop junk t) :
    ∀ c ∈ junk.toList, c.Ready commands .statement := by
  cases h with
  | clean => exact nofun
  | junk => exact List.forall_mem_singleton.mpr ((ready_faultNode _ _).any _)

theorem CloseBody.frame {kind : Kind} {node : Node} {block : Bool} (h : CloseBody setup exact s node block n t)
    (hnode : node.Frame commands kind) : n.Frame commands kind := by
  cases h with
  | closed => exact hnode.pushOther (ready_leaf (by decide) _)
  | missing => exact hnode.pushOther (ready_faultNode _ _)
  | without => exact hnode

theorem CloseParen.frame {node : Node} (h : CloseParen setup exact s node n t)
    (hnode : node.Frame commands .parenExpr) : n.Frame commands .parenExpr := by
  cases h with
  | closed => exact hnode.withSpan _
  | missing => exact hnode.pushOther (ready_faultNode _ _)

theorem Junk.frame {node : Node} (h : Junk setup exact s node n t) (hnode : node.Frame commands .parenExpr) :
    n.Frame commands .parenExpr := by
  induction h with
  | done => exact hnode
  | more _ _ _ ih => exact ih (hnode.pushOther (ready_faultNode _ _))

theorem Params.frame {node : Node} (h : Params setup exact s node n t) (hnode : node.Frame commands .params) :
    n.Frame commands .params := by
  induction h with
  | name _ _ _ ih => exact ih (hnode.push ((ready_name rfl rfl).named (r := .parameter) (by decide)))
  | bad _ _ _ ih => exact ih (hnode.pushOther (ready_faultNode _ _))
  | done => exact hnode

theorem frame_paramList (h : n.Frame commands .params) (pos : Nat) : (paramList n pos).Frame commands .params := by
  rw [paramList]
  split
  · exact h.withSpan _
  · exact h

theorem DotGet.ready (h : DotGet setup exact s tok n t) : n.Ready commands .other := by
  have hname (tok : Token) : (leaf .identifier tok).Ready commands .part := (ready_name rfl rfl).named (by decide)
  have hbase : (branch .dotGet [leaf .identifier tok]).Frame commands .dotGet := ⟨rfl, hname tok, trivial⟩
  cases h with
  | found => exact (hbase.push (hname _)).ready (by decide)
  | absent => exact (hbase.pushOther (ready_faultNode _ _)).ready (by decide)

theorem ready_interpolation (h : n.Ready commands .interpolated) (span : Span) :
    ({ kind := .interpolation, span := span, children := [n] } : Node).Ready commands .other := by
  have hnode : ({ kind := .interpolation, span := span, children := [n] } : Node).Frame commands .interpolation :=
    ⟨rfl, h, trivial⟩
  exact hnode.ready (by decide)

theorem ready_blockNode {stmts : List Node} (h : ∀ c ∈ stmts, c.Ready commands .statement) (pos : Nat) :
    (blockNode pos stmts).Ready commands .other := by
  have hnode : (blockNode pos stmts).Frame commands .thenBlock := by
    rw [blockNode]
    split
    · exact ⟨rfl, trivial⟩
    · exact ⟨rfl, Seated.of_forall fun c hc _ _ => h c hc⟩
  exact hnode.ready (by decide)

/-- A lone name is a call only if it names a command, and otherwise it may stand only where it may be called. -/
theorem ready_loneName {id : Node} (names : Scope.Names) (hkind : id.kind = .identifier)
    (h : id.Ready setup.isCommand .operand) : (loneName setup names id).Ready setup.isCommand .statement := by
  have hbare : (branch .callOrIdentifier [id]).Ready setup.isCommand .statement :=
    ⟨⟨fun _ => by decide, Kind.noConfusion⟩,
      Frame.orderly ⟨rfl, h.named (r := .callee) (by decide), trivial⟩ Kind.noConfusion⟩
  rw [loneName]
  cases hcommands : setup.isCommand with
  | none =>
    rw [hcommands] at hbare
    exact hbare
  | some isCommand =>
    rw [hcommands] at hbare h
    dsimp only
    split
    · rename_i hcalls
      have hcommand : isCommand id.text = true := (Bool.and_eq_true _ _ ▸ hcalls).2
      have hcall := Calls.single hkind h
      refine ⟨⟨Kind.noConfusion, Kind.noConfusion⟩, hcall.frame.orderly fun _ => ?_⟩
      exact ⟨id, [], rfl, hkind, List.forall_mem_nil _, fun _ => ⟨isCommand, rfl, hcommand⟩⟩
    · exact hbare

theorem not_nameKinds_literal {k : Token.Kind} {kind : Kind} (h : literalKind? k = some kind) : kind ∉ nameKinds := by
  cases k <;> cases h <;> decide

/-! ## Productions -/

/-- What the answer of a production may be put to. -/
@[reducible]
def Production.Readies (commands : Option (Text → Bool)) : (p : Production) → p.Answer → Prop
  | .statements _, stmts | .inlineBody _, stmts => ∀ c ∈ stmts, c.Ready commands .statement
  | .body _, (stmts, _) => ∀ c ∈ stmts, c.Ready commands .statement
  | .inlineRest _, rest => ∀ stmts, rest = some stmts → ∀ c ∈ stmts, c.Ready commands .statement
  | .statement, node | .expression, node => node.Ready commands .statement
  | .binary _ callable, node => node.Ready commands (if callable then .statement else .operand)
  | .operators _ left, more => left.Ready commands .operand → ∀ node, more = some node → node.Ready commands .other
  | .operand _ _, node | .operandBody _ _, node => node.Ready commands .operand
  | .call id, node => id.kind = .identifier → id.Ready commands .operand → node.Ready commands .operand
  | .args node _, whole => node.Calls commands → whole.Ready commands .other
  | .branches node _ _, whole => node.Frame commands .ifExpr → whole.Ready commands .other
  | .stages node _, whole => node.Frame commands .pipeExpr → whole.Ready commands .other
  | .stringPieces _ node, whole => node.Frame commands .string → whole.Ready commands .other
  | .wordPieces node, whole => node.Frame commands .word → whole.Ready commands .other
  | .arg _, node => node.kind.isArg = true ∧ node.Ready commands .other
  | .assign _, node | .functionDef _, node | .ifExpr _, node | .parenBody _, node | .piece _, node =>
    node.Ready commands .other

/-- What a production answers may stand where it is put. -/
theorem Reads.ready {p : Production} {a : p.Answer} (h : Reads setup exact p s a t) : p.Readies setup.isCommand a := by
  induction h with
  | halted | off | noMore | noBody => exact nofun
  | separator _ _ _ _ _ _ ih => exact ih
  | next _ _ _ _ _ _ hjunk _ ihstmt ihrest =>
    exact List.forall_mem_append.mpr ⟨List.forall_mem_cons.mpr ⟨ihstmt, hjunk.ready⟩, ihrest⟩
  | assignment _ _ _ ih => exact ih.any _
  | evaluate _ _ _ _ ih | block _ _ _ ih | inlined _ _ _ _ ih => exact ih
  | noStatement | tooDeep | noOperand | badOperand => exact (ready_faultNode _ _).any _
  | @assign s s₁ t tok op value _ _ hop _ ih =>
    have htarget : (branch .assign [leaf .assignable tok]).Frame setup.isCommand .assign :=
      ⟨rfl, (ready_leaf (by decide) tok).any _, trivial⟩
    exact ((htarget.pushOther (hop.ready (by decide))).push (ih.called (r := .assigned) (by decide))).ready (by decide)
  | several _ _ ihfirst ihrest => exact List.forall_mem_cons.mpr ⟨ihfirst, ihrest _ rfl⟩
  | single _ _ ihfirst => exact List.forall_mem_singleton.mpr ihfirst
  | restClosed | restClosedNext =>
    rintro _ ⟨⟩
    exact nofun
  | restOpen | restOpenNext => rintro _ ⟨⟩
  | restMore _ _ _ _ _ _ _ _ ihstmt ihrest =>
    intro stmts hstmts
    obtain ⟨rest, hrest, rfl⟩ := Option.map_eq_some_iff.mp hstmts
    exact List.forall_mem_cons.mpr ⟨ihstmt, ihrest rest hrest⟩
  | @functionDef s s₁ s₂ s₃ t tok list c node stmts block _ _ hparams hcolon _ hclose ih =>
    have hlist : (paramList list s₁.pos).Frame setup.isCommand .params :=
      frame_paramList (hparams.frame ⟨rfl, trivial⟩) s₁.pos
    have hhead : (((branch .functionDef [leaf .keyword tok]).push (paramList list s₁.pos)).push c).Frame
        setup.isCommand .functionDef :=
      Frame.pushOther (Frame.pushOther ⟨rfl, (ready_leaf (by decide) tok).any _, trivial⟩ (hlist.ready (by decide)))
        hcolon.ready
    refine (hclose.frame ⟨(append_kind ..).trans hhead.kind_eq, ?_⟩).ready (by decide)
    rw [append_children]
    refine hhead.seated.append (Seated.of_forall fun c hc i hi => ?_)
    have hi : 3 ≤ i := hi
    rw [Kind.role_functionDef hi]
    exact ih c hc
  | @ifExpr s s₁ s₂ s₃ t tok _ _ _ _ _ _ _ _ hcolon _ _ ihcondition ihbody ihbranches =>
    have hkeyword : (branch .ifExpr [leaf .keyword tok]).Frame setup.isCommand .ifExpr :=
      ⟨rfl, (ready_leaf (by decide) tok).any _, trivial⟩
    have hcondition := hkeyword.push (ihcondition.named (r := .condition) (by decide))
    exact ihbranches ((hcondition.pushOther hcolon.ready).pushOther (ready_blockNode ihbody s₃.pos))
  | @elsif s s₁ s₂ s₃ t tok _ _ _ _ _ _ _ _ _ _ _ hcolon _ _ ihcondition ihbody ihbranches =>
    intro hnode
    have hkeyword : (branch .elsifExpr [leaf .keyword tok]).Frame setup.isCommand .elsifExpr :=
      ⟨rfl, (ready_leaf (by decide) tok).any _, trivial⟩
    have hcondition := hkeyword.push (ihcondition.named (r := .condition) (by decide))
    have hbranch := (hcondition.pushOther hcolon.ready).pushOther (ready_blockNode ihbody s₃.pos)
    exact ihbranches (hnode.pushOther (hbranch.ready (by decide)))
  | @otherwise s s₂ s₃ t tok _ _ _ _ _ _ _ _ _ hcolon _ _ ihbody ihbranches =>
    intro hnode
    have hkeyword : (branch .elseExpr [leaf .keyword tok]).Frame setup.isCommand .elseExpr :=
      ⟨rfl, (ready_leaf (by decide) tok).any _, trivial⟩
    have hbranch := (hkeyword.pushOther hcolon.ready).pushOther (ready_blockNode ihbody s₃.pos)
    exact ihbranches (hnode.pushOther (hbranch.ready (by decide)))
  | endIf _ _ _ hclose => exact fun hnode => (hclose.frame hnode).ready (by decide)
  | pipe _ _ _ _ ihleft ihstages => exact (ihstages ⟨rfl, ihleft.called (by decide), trivial⟩).any _
  | alone _ _ _ ih => exact ih
  | stage _ _ _ _ _ _ ihvalue ihrest => exact fun hnode => ihrest (hnode.pushStage ihvalue _)
  | lastStage _ _ _ _ _ ih => exact fun hnode => (hnode.pushStage ih _).ready (by decide)
  | operation _ _ _ ihleft ihops => exact (ihops ihleft _ rfl).any _
  | lone _ _ _ hlone ihleft _ =>
    rw [Bool.and_eq_true, beq_iff_eq] at hlone
    obtain ⟨rfl, hkind⟩ := hlone
    exact ready_loneName _ hkind ihleft
  | @justOperand _ _ _ _ _ callable left _ _ _ hlone ihleft _ =>
    cases callable with
    | false => exact ihleft
    | true => exact (ihleft.of_operand (beq_eq_false_iff_ne.mp hlone)).any _
  | noOperator => exact fun _ => nofun
  | @operator s s₁ t tok minPrec left right more hlook hprec _ _ ihright ihmore =>
    rintro hleft _ ⟨⟩
    have hkind : operatorNode (precedence tok.kind) ∉ nameKinds := by
      rw [operatorNode]
      split <;> decide
    have hnode : (branch (operatorNode (precedence tok.kind)) [left, leaf .operator tok, right]).Ready
        setup.isCommand .other := by
      refine Frame.ready ⟨rfl, ?_⟩ hkind
      rw [operatorNode]
      split <;>
        exact ⟨hleft.named (r := .operand) (by decide), (ready_leaf (by decide) tok).any _,
          ihright.named (r := .operand) (by decide), trivial⟩
    cases more with
    | none => exact hnode
    | some node => exact ihmore (hnode.any _) node rfl
  | operand _ _ _ ih => exact ih
  | literal _ hk => exact (ready_leaf (not_nameKinds_literal hk) _).any _
  | string _ _ _ ih | word _ _ _ ih => exact (ih ⟨rfl, trivial⟩).any _
  | callee _ _ _ ih => exact ih rfl (ready_name rfl rfl)
  | group _ _ _ ih | function _ _ ih | conditional _ _ ih => exact ih.any _
  | name => exact ready_name rfl rfl
  | dotGet _ _ h => exact h.ready.any _
  | glued | noArgs => exact fun _ hid => hid
  | withArgs _ _ _ _ ih => exact fun hkind hid => (ih (.single hkind hid)).any _
  | moreArgs _ _ _ _ iharg ihrest => exact fun hnode => ihrest (hnode.push iharg.1 iharg.2)
  | lastArg _ _ _ ih => exact fun hnode => hnode.ready_push ih.1 ih.2
  | @positional s t tok value _ _ ih =>
    have harg : (branch .positionalArg [value]).Frame setup.isCommand .positionalArg :=
      ⟨rfl, ih.named (r := .argument) (by decide), trivial⟩
    exact ⟨rfl, harg.ready (by decide)⟩
  | @named s t tok _ _ _ _ _ _ _ ih =>
    have hname : (branch .namedArg [leaf .argName tok]).Frame setup.isCommand .namedArg :=
      ⟨rfl, (ready_leaf (by decide) tok).any _, trivial⟩
    exact ⟨rfl, (hname.push (ih.named (r := .argument) (by decide))).ready (by decide)⟩
  | @noValue s tok =>
    have hname : (branch .namedArg [leaf .argName tok]).Frame setup.isCommand .namedArg :=
      ⟨rfl, (ready_leaf (by decide) tok).any _, trivial⟩
    exact ⟨rfl, (hname.pushOther (ready_faultNode _ _)).ready (by decide)⟩
  | emptyGroup _ _ hclose => exact (hclose.frame ⟨rfl, trivial⟩).ready (by decide)
  | @fullGroup s _ _ _ opening _ _ _ _ _ _ _ hjunk hclose ih =>
    have hopen : ({ kind := .parenExpr, span := opening } : Node).Frame setup.isCommand .parenExpr := ⟨rfl, trivial⟩
    exact (hclose.frame (hjunk.frame (hopen.push (ih.called (r := .grouped) (by decide))))).ready (by decide)
  | closeQuote => exact fun hnode => (hnode.withSpan _).ready (by decide)
  | endWord => exact fun hnode => hnode.ready (by decide)
  | unterminated => exact fun hnode => (hnode.pushOther (ready_faultNode _ _)).ready (by decide)
  | stringText _ _ ih | wordText _ _ ih => exact fun hnode => ih (hnode.pushOther (ready_leaf (by decide) _))
  | stringPart _ _ ihpiece ih | wordPart _ _ ihpiece ih => exact fun hnode => ih (hnode.pushOther ihpiece)
  | escape => exact ready_leaf (by decide) _
  | interpolatedName => exact ready_interpolation ((ready_name rfl rfl).named (by decide)) _
  | interpolated _ _ _ ih => exact ready_interpolation (ih.any _) _

/-! ## Parses -/

/-- Whatever the source and the commands, a lone name that may be called when the program runs stands only as a
statement, as the value of an assignment, as a stage of a pipe or in parentheses, and a plain name never stands there.
A call without arguments is one of a name that names a command. -/
theorem parse_places_calls (setup : Setup) :
    (parse setup).tree.kind = .program ∧ ∀ n ∈ (parse setup).tree.preorder, n.Orderly setup.isCommand := by
  obtain ⟨stmts, t, h⟩ := parse_outcome setup False fun hfalse => hfalse.elim
  have hstmts : ∀ c ∈ stmts, c.Ready setup.isCommand .statement := h.reads.ready
  have hunread : ∀ c ∈ unread setup t, c.Ready setup.isCommand .statement := by
    rw [unread]
    split
    · exact List.forall_mem_singleton.mpr ((ready_faultNode _ _).any _)
    · exact List.forall_mem_nil _
  have htree : (wholeTree setup stmts t).Frame setup.isCommand .program :=
    ⟨rfl, Seated.of_forall fun c hc _ _ => List.forall_mem_append.mpr ⟨hstmts, hunread⟩ c hc⟩
  rw [h.tree_eq]
  exact ⟨rfl, (htree.ready (by decide)).orderly⟩

end Grammar
end Bareword.Tree
