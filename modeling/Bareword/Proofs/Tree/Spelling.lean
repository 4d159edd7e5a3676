import Bareword.Proofs.Token.Contract
import Bareword.Proofs.Tree.Shapes

/-! # How names are spelled

Wherever the grammar takes a name, its text is a name as a whole. Only behind the dollar sign of an
interpolation other texts may stand as well, which name values of the host.

* `Node.Spelled`: the names at and below a node are names, except in interpolations.
* `Node.Named`, `Node.Holder`: a node that may stand anywhere, and one that may get more children.
* `Reads.spelled`: what every production answers.
* `Outcome.spelled`: the tree of a parse.
-/

namespace Bareword.Tree

/-- The kinds of nodes that are single tokens, or stand where nothing fits. -/
def Kind.isLeaf : Kind → Bool
  | .error | .number | .boolean | .regex | .stringFragment | .wordFragment | .escape | .identifier | .assignable
  | .argName | .keyword | .operator | .colon => true
  | _ => false

namespace Node
set_option autoImplicit false

/-! ## Names in trees -/

/-- A node whose text is the name of a variable. -/
def IsName (n : Node) : Prop := n.kind = .identifier ∨ n.kind = .assignable

/-- Single tokens have no parts, and names are spelled as such unless they are interpolated. -/
inductive Spelled : Node → Prop where
  | intro {n : Node} (leaf : n.kind.isLeaf = true → n.children = [])
      (names : n.kind ≠ .interpolation → ∀ c ∈ n.children, c.IsName → Token.isName c.text = true)
      (parts : ∀ c ∈ n.children, Spelled c) : Spelled n

namespace Spelled
variable {n : Node}

theorem leaf (h : n.Spelled) (hk : n.kind.isLeaf = true) : n.children = [] := by
  obtain ⟨hleaf, -, -⟩ := h
  exact hleaf hk

theorem parts (h : n.Spelled) : ∀ c ∈ n.children, c.Spelled := by
  obtain ⟨-, -, hparts⟩ := h
  exact hparts

theorem names (h : n.Spelled) (hk : n.kind ≠ .interpolation) :
    ∀ c ∈ n.children, c.IsName → Token.isName c.text = true := by
  obtain ⟨-, hnames, -⟩ := h
  exact hnames hk

end Spelled

/-- A node that may stand anywhere: if it is a name, it is spelled as one. -/
structure Named (n : Node) : Prop where
  spelled : n.Spelled
  name : n.IsName → Token.isName n.text = true

/-- A node that may get more children: it is no single token and no interpolation. -/
structure Holder (n : Node) : Prop where
  kind : n.kind.isLeaf = false ∧ n.kind ≠ .interpolation
  named : n.Named

section
variable {n c : Node} {cs : List Node} {kind : Kind}

theorem not_isName_of_isLeaf (h : n.kind.isLeaf = false) : ¬ n.IsName := by
  rintro (hk | hk) <;> rw [hk] at h <;> cases h

theorem Named.leaf {tok : Token} (hname : kind = .identifier ∨ kind = .assignable → Token.isName tok.text = true) :
    (leaf kind tok).Named :=
  ⟨⟨fun _ => rfl, fun _ => List.forall_mem_nil _, List.forall_mem_nil _⟩, hname⟩

theorem Named.token (kind : Kind) {tok : Token} (hname : kind ≠ .identifier ∧ kind ≠ .assignable) :
    (Node.leaf kind tok).Named :=
  .leaf fun h => absurd h (not_or.mpr hname)

theorem Named.of_children (hk : n.kind.isLeaf = false) (h : ∀ c ∈ n.children, c.Named) : n.Named := by
  refine ⟨⟨fun hleaf => ?_, fun _ c hc => (h c hc).name, fun c hc => (h c hc).spelled⟩,
    fun hname => absurd hname (not_isName_of_isLeaf hk)⟩
  rw [hk] at hleaf
  cases hleaf

theorem Named.around {kind : Kind} (hk : kind.isLeaf = false) (hc : c.Named) : (branch kind [c]).Named :=
  .of_children hk (List.forall_mem_singleton.mpr hc)

theorem Holder.empty (kind : Kind) (span : Span) (hk : kind.isLeaf = false ∧ kind ≠ .interpolation) :
    ({ kind, span } : Node).Holder :=
  ⟨hk, .of_children hk.1 (List.forall_mem_nil _)⟩

theorem Holder.around (kind : Kind) (hk : kind.isLeaf = false ∧ kind ≠ .interpolation) (hc : c.Named) :
    (branch kind [c]).Holder :=
  ⟨hk, .around hk.1 hc⟩

/-- One more child. An interpolation is no holder, as its child may be no name. -/
theorem Holder.push (hn : n.Holder) (hc : c.Named) : (n.push c).Holder := by
  refine ⟨hn.kind, .of_children hn.kind.1 ?_⟩
  refine List.forall_mem_append.mpr ⟨fun d hd => ?_, List.forall_mem_singleton.mpr hc⟩
  exact ⟨hn.named.spelled.parts d hd, hn.named.spelled.names hn.kind.2 d hd⟩

theorem Holder.append (hn : n.Holder) (hcs : ∀ c ∈ cs, c.Named) : (n.append cs).Holder := by
  induction cs generalizing n with
  | nil => exact hn
  | cons c cs ih =>
    obtain ⟨hc, hcs⟩ := List.forall_mem_cons.mp hcs
    exact ih (hn.push hc) hcs

theorem Holder.withSpan (hn : n.Holder) (span : Span) : { n with span }.Holder := by
  obtain ⟨hk, ⟨hleaf, hnames, hparts⟩, hname⟩ := hn
  exact ⟨hk, ⟨hleaf, hnames, hparts⟩, hname⟩

/-- What starts with a keyword, a part and a colon, as functions and conditionals do. -/
theorem Holder.headed (kind : Kind) {tok : Token} {first colon : Node} (hk : kind.isLeaf = false ∧ kind ≠ .interpolation)
    (hfirst : first.Named) (hcolon : colon.Named) :
    (((branch kind [Node.leaf .keyword tok]).push first).push colon).Holder :=
  ((Holder.around kind hk (.token .keyword (by decide))).push hfirst).push hcolon

end

end Node

namespace Grammar
set_option autoImplicit false
open Token (KindSet)
open Parsing
open Node

section
variable {setup : Setup} {exact : Prop} {s t : Snapshot} {tok : Token} {accept : KindSet}

/-! ## Productions without recursion -/

theorem Looks.isName (h : Looks setup exact s accept tok)
    (hk : tok.kind = .identifier ∨ tok.kind = .assignable ∨ tok.kind = .beforeDot) : Token.isName tok.text = true := by
  obtain ⟨bound, -, hscanned⟩ := h.scanned
  refine hscanned.isName (.inl ?_)
  rcases hk with hk | hk | hk <;> simp [hk]

theorem Held.isName (h : Held setup exact s tok)
    (hk : tok.kind = .identifier ∨ tok.kind = .assignable ∨ tok.kind = .beforeDot) : Token.isName tok.text = true := by
  obtain ⟨accept, hlook⟩ := h.looks
  exact hlook.isName hk

theorem named_faultNode (c : Complaint) (span : Span) : (faultNode setup c span).Named :=
  ⟨⟨fun _ => rfl, fun _ => List.forall_mem_nil _, List.forall_mem_nil _⟩, by rintro (h | h) <;> cases h⟩

theorem Expects.named {k : Token.Kind} {kind : Kind} {c : Complaint} {node : Node}
    (h : Expects setup exact s accept k kind c node t) (hname : kind ≠ .identifier ∧ kind ≠ .assignable) :
    node.Named := by
  cases h with
  | found => exact .token _ hname
  | absent => exact named_faultNode _ _

theorem Colon.named {node : Node} (h : Colon setup exact s node t) : node.Named :=
  Expects.named h (by decide)

theorem EndStatement.named {stop : KindSet} {junk : Option Node} (h : EndStatement setup exact s stop junk t) :
    ∀ c ∈ junk.toList, c.Named := by
  cases h with
  | clean => exact List.forall_mem_nil _
  | junk => exact List.forall_mem_singleton.mpr (named_faultNode _ _)

theorem CloseBody.holder {node whole : Node} {block : Bool} (h : CloseBody setup exact s node block whole t)
    (hnode : node.Holder) : whole.Holder := by
  cases h with
  | closed => exact hnode.push (.token .keyword (by decide))
  | missing => exact hnode.push (named_faultNode _ _)
  | without => exact hnode

theorem DotGet.named {node : Node} (h : DotGet setup exact s tok node t) (hname : Token.isName tok.text = true) :
    node.Named := by
  have hbase : (branch .dotGet [leaf .identifier tok]).Holder := .around .dotGet (by decide) (.leaf fun _ => hname)
  cases h with
  | found _ hprop hk => exact (hbase.push (.leaf fun _ => hprop.isName (.inl hk))).named
  | absent => exact (hbase.push (named_faultNode _ _)).named

theorem Params.holder {node list : Node} (h : Params setup exact s node list t) (hnode : node.Holder)
    : list.Holder := by
  induction h with
  | name hlook hk _ ih => exact ih (hnode.push (.leaf fun _ => hlook.isName (.inl hk)))
  | bad _ _ _ ih => exact ih (hnode.push (named_faultNode _ _))
  | done => exact hnode

theorem holder_paramList {list : Node} (h : list.Holder) (pos : Nat) : (paramList list pos).Holder := by
  rw [paramList]
  split
  · exact h.withSpan _
  · exact h

theorem CloseParen.holder {node whole : Node} (h : CloseParen setup exact s node whole t) (hnode : node.Holder)
    : whole.Holder := by
  cases h with
  | closed => exact hnode.withSpan _
  | missing => exact hnode.push (named_faultNode _ _)

theorem Junk.holder {node whole : Node} (h : Junk setup exact s node whole t) (hnode : node.Holder) :
    whole.Holder := by
  induction h with
  | done => exact hnode
  | more _ _ _ ih => exact ih (hnode.push (named_faultNode _ _))

theorem named_blockNode {stmts : List Node} (h : ∀ c ∈ stmts, c.Named) (pos : Nat) : (blockNode pos stmts).Named := by
  rw [blockNode]
  split
  · exact (Holder.empty .thenBlock _ (by decide)).named
  · exact .of_children rfl h

theorem named_loneName {id : Node} (names : Scope.Names) (h : id.Named) : (loneName setup names id).Named := by
  rw [loneName]
  refine .around ?_ h
  split <;> split <;> rfl

theorem holder_namedArg : (branch .namedArg [leaf .argName tok]).Holder :=
  .around .namedArg (by decide) (.token .argName (by decide))

theorem not_name_of_literalKind? {k : Token.Kind} {kind : Kind} (h : literalKind? k = some kind) :
    kind ≠ .identifier ∧ kind ≠ .assignable := by
  unfold literalKind? at h
  split at h <;> cases h <;> exact (by decide)

end

/-! ## Productions -/

/-- What a production is given: a node that it adds to, or one that it puts in another. -/
def Production.Fed : Production → Prop
  | .branches node _ _ | .stages node _ | .args node _ | .stringPieces _ node | .wordPieces node => node.Holder
  | .operators _ left | .call left => left.Named
  | _ => True

/-- The names in what a production answers. -/
def Production.Spells : (p : Production) → p.Answer → Prop
  | .statements _, stmts | .inlineBody _, stmts => ∀ c ∈ stmts, c.Named
  | .body _, (stmts, _) => ∀ c ∈ stmts, c.Named
  | .inlineRest _, rest => ∀ stmts, rest = some stmts → ∀ c ∈ stmts, c.Named
  | .operators _ _, more => ∀ node, more = some node → node.Named
  | .statement, node | .assign _, node | .functionDef _, node | .ifExpr _, node | .branches _ _ _, node
  | .expression, node | .stages _ _, node | .binary _ _, node | .operand _ _, node | .operandBody _ _, node
  | .call _, node | .args _ _, node | .arg _, node | .parenBody _, node | .stringPieces _ _, node
  | .wordPieces _, node | .piece _, node => node.Named

variable {setup : Setup} {exact : Prop}

/-- Every production spells names as such. -/
theorem Reads.spelled {p : Production} {s t : Snapshot} {a : p.Answer} (h : Reads setup exact p s a t) :
    p.Fed → p.Spells a := by
  induction h with
  | halted | off | noMore => exact fun _ => List.forall_mem_nil _
  | separator _ _ _ _ _ _ ih => exact ih
  | next _ _ _ _ _ _ hjunk _ ihstmt ihrest =>
    rintro -
    exact List.forall_mem_append.mpr ⟨List.forall_mem_cons.mpr ⟨ihstmt trivial, hjunk.named⟩, ihrest trivial⟩
  | assignment _ _ _ ih | evaluate _ _ _ _ ih | function _ _ ih | conditional _ _ ih | alone _ _ _ ih
  | operand _ _ _ ih => exact ih
  | noStatement | tooDeep | noOperand | badOperand => exact fun _ => named_faultNode _ _
  | assign hheld hk hop _ ih =>
    rintro -
    have htarget : (leaf .assignable _).Named := .leaf fun _ => hheld.isName (.inr (.inl hk))
    exact (((Holder.around .assign (by decide) htarget).push (hop.named (by decide))).push (ih trivial)).named
  | block _ _ _ ih | inlined _ _ _ _ ih => exact fun _ => ih trivial
  | noBody => exact fun _ => List.forall_mem_nil _
  | several _ _ ihfirst ihrest => exact fun _ => List.forall_mem_cons.mpr ⟨ihfirst trivial, ihrest trivial _ rfl⟩
  | single _ _ ihfirst _ => exact fun _ => List.forall_mem_singleton.mpr (ihfirst trivial)
  | restClosed | restClosedNext =>
    rintro - _ ⟨⟩
    exact List.forall_mem_nil _
  | restOpen | restOpenNext =>
    rintro - _ ⟨⟩
  | restMore _ _ _ _ _ _ _ _ ihstmt ihrest =>
    intro _ stmts hstmts
    obtain ⟨rest, hrest, rfl⟩ := Option.map_eq_some_iff.mp hstmts
    exact List.forall_mem_cons.mpr ⟨ihstmt trivial, ihrest trivial rest hrest⟩
  | functionDef _ _ hparams hcolon _ hclose ih =>
    rintro -
    have hlist := holder_paramList (hparams.holder (.empty .params _ (by decide)))
    exact (hclose.holder ((Holder.headed .functionDef (by decide) (hlist _).named hcolon.named).append (ih trivial))).named
  | ifExpr _ _ _ hcolon _ _ ihcondition ihbody ihbranches =>
    rintro -
    have hblock := named_blockNode (ihbody trivial)
    exact ihbranches ((Holder.headed .ifExpr (by decide) (ihcondition trivial) hcolon.named).push (hblock _))
  | elsif _ _ _ hcolon _ _ ihcondition ihbody ihbranches =>
    intro hnode
    have hblock := named_blockNode (ihbody trivial)
    exact ihbranches (Holder.push hnode
      ((Holder.headed .elsifExpr (by decide) (ihcondition trivial) hcolon.named).push (hblock _)).named)
  | otherwise _ _ hcolon _ _ ihbody ihbranches =>
    intro hnode
    have hblock := named_blockNode (ihbody trivial)
    exact ihbranches (Holder.push hnode (Holder.headed .elseExpr (by decide) hcolon.named (hblock _)).named)
  | endIf _ _ _ hclose => exact fun hnode => (hclose.holder hnode).named
  | pipe _ _ _ _ ihleft ihstages => exact fun _ => ihstages (.around .pipeExpr (by decide) (ihleft trivial))
  | stage _ _ _ _ _ _ ihvalue ihrest =>
    exact fun hnode => ihrest ((Holder.push hnode (.token .operator (by decide))).push (ihvalue trivial))
  | lastStage _ _ _ _ _ ih =>
    exact fun hnode => ((Holder.push hnode (.token .operator (by decide))).push (ih trivial)).named
  | operation _ _ _ ihleft ihops => exact fun _ => ihops (ihleft trivial) _ rfl
  | lone _ _ _ _ ihleft _ => exact fun _ => named_loneName _ (ihleft trivial)
  | justOperand _ _ _ _ ihleft _ => exact fun _ => ihleft trivial
  | noOperator =>
    rintro - _ ⟨⟩
  | @operator _ _ _ tok _ left right more _ _ _ _ ihright ihmore =>
    rintro hleft _ ⟨⟩
    have hnode : (branch (operatorNode (precedence tok.kind)) [left, leaf .operator tok, right]).Named := by
      refine .of_children ?_ ?_
      · dsimp only [branch]
        rw [operatorNode]
        split <;> rfl
      · simp only [branch_children, List.forall_mem_cons]
        exact ⟨hleft, .token .operator (by decide), ihright trivial, List.forall_mem_nil _⟩
    cases more with
    | none => exact hnode
    | some node => exact ihmore hnode node rfl
  | literal _ hk =>
    exact fun _ => .token _ (not_name_of_literalKind? hk)
  | string _ _ _ ih | word _ _ _ ih => exact fun _ => ih (.empty _ _ (by decide))
  | callee hheld hk _ ih => exact fun _ => ih (.leaf fun _ => hheld.isName (.inl hk))
  | name hheld hk => exact fun _ => .leaf fun _ => hheld.isName (.inl hk)
  | dotGet hheld hk h => exact fun _ => h.named (hheld.isName (.inr (.inr hk)))
  | group _ _ _ ih => exact fun _ => ih trivial
  | glued | noArgs => exact fun hid => hid
  | withArgs _ _ _ _ ih => exact fun hid => ih (.around .functionCall (by decide) hid)
  | moreArgs _ _ _ _ iharg ihrest => exact fun hnode => ihrest (Holder.push hnode (iharg trivial))
  | lastArg _ _ _ ih => exact fun hnode => (Holder.push hnode (ih trivial)).named
  | positional _ _ ih => exact fun _ => .around rfl (ih trivial)
  | named _ _ _ _ _ ih => exact fun _ => (holder_namedArg.push (ih trivial)).named
  | noValue => exact fun _ => (holder_namedArg.push (named_faultNode _ _)).named
  | emptyGroup _ _ hclose => exact fun _ => (hclose.holder (.empty .parenExpr _ (by decide))).named
  | fullGroup _ _ _ hjunk hclose ih =>
    rintro -
    exact (hclose.holder (hjunk.holder ((Holder.empty .parenExpr _ (by decide)).push (ih trivial)))).named
  | closeQuote => exact fun hnode => (hnode.withSpan _).named
  | unterminated => exact fun hnode => (Holder.push hnode (named_faultNode _ _)).named
  | stringText _ _ ih => exact fun hnode => ih (Holder.push hnode (.token .stringFragment (by decide)))
  | wordText _ _ ih => exact fun hnode => ih (Holder.push hnode (.token .wordFragment (by decide)))
  | stringPart _ _ ihpiece ih | wordPart _ _ ihpiece ih => exact fun hnode => ih (Holder.push hnode (ihpiece trivial))
  | endWord => exact fun hnode => hnode.named
  | escape => exact fun _ => .token .escape (by decide)
  | interpolatedName =>
    -- The only name that need not be spelled as one.
    rintro -
    refine ⟨⟨by rintro ⟨⟩, fun hk => absurd rfl hk, ?_⟩, by rintro (h | h) <;> cases h⟩
    exact List.forall_mem_singleton.mpr ⟨fun _ => rfl, fun _ => List.forall_mem_nil _, List.forall_mem_nil _⟩
  | interpolated _ _ _ ih => exact fun _ => .of_children rfl (List.forall_mem_singleton.mpr (ih trivial))

theorem Outcome.spelled {stmts : List Node} {t : Snapshot} (h : Outcome setup exact stmts t) :
    (parse setup).tree.Spelled := by
  have hstmts : ∀ c ∈ stmts, c.Named := h.reads.spelled trivial
  have hunread : ∀ c ∈ unread setup t, c.Named := by
    rw [unread]
    split
    · exact List.forall_mem_singleton.mpr (named_faultNode _ _)
    · exact List.forall_mem_nil _
  rw [h.tree_eq]
  exact (Named.of_children rfl (List.forall_mem_append.mpr ⟨hstmts, hunread⟩)).spelled

end Grammar
end Bareword.Tree
