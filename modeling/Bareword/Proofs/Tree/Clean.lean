import Bareword.Proofs.Tree.Events
import Bareword.Proofs.Tree.Spans

/-! # Parses without faults

Faults are never taken back, so a production that ends without any has met none on its way. Wherever it stands in the
tree, a function or a conditional has been read by a production of its own, which met none either. So what can be told
of them from how they are read holds throughout the tree.

* `Node.Every`: all nodes of a tree have a property.
* `Established`: a property that can be told of functions and conditionals from how they are read.
* `Reads.quiet`: what a production reads that meets no faults.
* `Outcome.quiet`: all nodes of a parse without faults.
-/

namespace Bareword.Tree
set_option autoImplicit false

/-- Whether nodes of a kind are neither functions nor conditionals. -/
def Kind.isSimple : Kind → Bool
  | .functionDef | .ifExpr => false
  | _ => true

namespace Node

/-- The node and all nodes below it have a property. -/
def Every (P : Node → Prop) (n : Node) : Prop := ∀ m ∈ n.preorder, P m

/-- A node becomes another one by more children, of which all nodes have a property. -/
structure Gains (P : Node → Prop) (n whole : Node) : Prop where
  kind_eq : whole.kind = n.kind
  children : (∀ c ∈ n.children, c.Every P) → ∀ c ∈ whole.children, c.Every P

variable {P : Node → Prop} {n m whole c : Node}

theorem Every.of_mem (h : whole.Every P) (hn : n ∈ whole.preorder) : n.Every P :=
  fun m hm => h m (preorder_subset hn m hm)

namespace Gains

theorem refl (n : Node) : n.Gains P n := ⟨rfl, id⟩

theorem trans (h : n.Gains P m) (h' : m.Gains P whole) : n.Gains P whole :=
  ⟨h'.kind_eq.trans h.kind_eq, fun hn => h'.children (h.children hn)⟩

theorem push (n : Node) (hc : c.Every P) : n.Gains P (n.push c) :=
  ⟨rfl, fun hn => List.forall_mem_append.mpr ⟨hn, List.forall_mem_singleton.mpr hc⟩⟩

theorem withSpan (n : Node) (span : Span) : n.Gains P { n with span } := ⟨rfl, id⟩

end Gains
end Node

namespace Grammar
open Token (KindSet)
open Parsing
open Node

/-- A property that functions and conditionals have if they are read without faults, and all other nodes anyway. -/
structure Established (setup : Setup) (exact : Prop) (P : Node → Prop) : Prop where
  simple : ∀ n : Node, n.kind.isSimple = true → P n
  function : ∀ (tok : Token) (s : Snapshot) (n : Node) (t : Snapshot),
    Reads setup exact (.functionDef tok) s n t → t.faults = [] → P n
  conditional : ∀ (tok : Token) (s : Snapshot) (n : Node) (t : Snapshot),
    Reads setup exact (.ifExpr tok) s n t → t.faults = [] → P n

section
variable {setup : Setup} {exact : Prop} {P : Node → Prop} {s t : Snapshot} {tok : Token} {n node whole : Node}
  {accept : KindSet}

namespace Established

theorem of_children (hP : Established setup exact P) (hk : n.kind.isSimple = true) (h : ∀ c ∈ n.children, c.Every P) :
    n.Every P :=
  forall_preorder.mpr ⟨hP.simple n hk, h⟩

theorem leaf (hP : Established setup exact P) {k : Kind} (hk : k.isSimple = true) (tok : Token) :
    (Node.leaf k tok).Every P :=
  hP.of_children hk (List.forall_mem_nil _)

/-- A keyword or the like as the first child. -/
theorem head (hP : Established setup exact P) {k : Kind} (hk : k.isSimple = true) (kind : Kind) (tok : Token) :
    ∀ c ∈ (branch kind [Node.leaf k tok]).children, c.Every P :=
  List.forall_mem_singleton.mpr (hP.leaf hk tok)

theorem gains (hP : Established setup exact P) (h : node.Gains P whole) (hk : node.kind.isSimple = true)
    (hnode : ∀ c ∈ node.children, c.Every P) : whole.Every P :=
  hP.of_children (h.kind_eq ▸ hk) (h.children hnode)

end Established

/-! ## Productions without recursion -/

theorem Expects.quiet (hP : Established setup exact P) {k : Token.Kind} {kind : Kind} {c : Complaint}
    (hk : kind.isSimple = true) (h : Expects setup exact s accept k kind c n t) (ht : t.faults = []) :
    s.faults = [] ∧ n.Every P := by
  cases h with
  | found => exact ⟨ht, hP.leaf hk _⟩
  | absent => exact absurd ht (complain_faults_ne_nil _ _ _)

theorem Colon.quiet (hP : Established setup exact P) (h : Colon setup exact s n t) (ht : t.faults = []) :
    s.faults = [] ∧ n.Every P :=
  Expects.quiet hP rfl h ht

theorem EndStatement.quiet {stop : KindSet} {junk : Option Node} (h : EndStatement setup exact s stop junk t)
    (ht : t.faults = []) : s.faults = [] ∧ junk = none := by
  cases h with
  | clean => exact ⟨ht, rfl⟩
  | junk => exact absurd ht (complain_faults_ne_nil _ _ _)

theorem CloseBody.quiet (hP : Established setup exact P) {block : Bool} (h : CloseBody setup exact s node block whole t)
    (ht : t.faults = []) : s.faults = [] ∧ node.Gains P whole := by
  cases h with
  | closed => exact ⟨ht, .push _ (hP.leaf rfl _)⟩
  | missing => exact absurd ht (complain_faults_ne_nil _ _ _)
  | without => exact ⟨ht, .refl _⟩

theorem CloseParen.quiet (h : CloseParen setup exact s node whole t) (ht : t.faults = []) :
    s.faults = [] ∧ node.Gains P whole := by
  cases h with
  | closed => exact ⟨ht, .withSpan _ _⟩
  | missing => exact absurd ht (complain_faults_ne_nil _ _ _)

theorem Junk.quiet (h : Junk setup exact s node whole t) (ht : t.faults = []) :
    s.faults = [] ∧ node.Gains P whole := by
  induction h with
  | done => exact ⟨ht, .refl _⟩
  | more _ _ _ ih => exact absurd (ih ht).1 (complain_faults_ne_nil _ _ _)

theorem Params.quiet (hP : Established setup exact P) {list : Node} (h : Params setup exact s node list t)
    (ht : t.faults = []) : s.faults = [] ∧ node.Gains P list := by
  induction h with
  | name _ _ _ ih =>
    obtain ⟨hs, hrest⟩ := ih ht
    exact ⟨hs, (Gains.push _ (hP.leaf rfl _)).trans hrest⟩
  | bad _ _ _ ih => exact absurd (ih ht).1 (complain_faults_ne_nil _ _ _)
  | done => exact ⟨ht, .refl _⟩

theorem gains_paramList (list : Node) (pos : Nat) : list.Gains P (paramList list pos) := by
  rw [paramList]
  split
  · exact .withSpan _ _
  · exact .refl _

theorem pastDot_faults (s : Snapshot) (dot : Token) : (s.pastDot dot).faults = s.faults := by
  rw [Snapshot.pastDot]
  split <;> rfl

theorem DotGet.quiet (hP : Established setup exact P) (h : DotGet setup exact s tok n t) (ht : t.faults = []) :
    s.faults = [] ∧ n.Every P := by
  cases h with
  | found =>
    rw [Snapshot.shift, pastDot_faults] at ht
    exact ⟨ht, hP.gains (.push _ (hP.leaf rfl _)) rfl (hP.head rfl .dotGet tok)⟩
  | absent => exact absurd ht (complain_faults_ne_nil _ _ _)

theorem every_blockNode (hP : Established setup exact P) {stmts : List Node} (h : ∀ c ∈ stmts, c.Every P) (pos : Nat) :
    (blockNode pos stmts).Every P := by
  rw [blockNode]
  split
  · exact hP.of_children rfl (List.forall_mem_nil _)
  · exact hP.of_children rfl h

theorem every_loneName (hP : Established setup exact P) (names : Scope.Names) (h : n.Every P) :
    (loneName setup names n).Every P := by
  have hkind (isCall : Bool) : (if isCall then Kind.functionCall else .callOrIdentifier).isSimple = true := by
    cases isCall <;> rfl
  exact hP.of_children (hkind _) (List.forall_mem_singleton.mpr h)

theorem isSimple_literal {k : Token.Kind} {kind : Kind} (h : literalKind? k = some kind) : kind.isSimple = true := by
  cases k <;> cases h <;> rfl

theorem isSimple_operatorNode (prec : Nat) : (operatorNode prec).isSimple = true := by
  rw [operatorNode]
  split <;> rfl

/-! ## Productions -/

/-- All nodes that a production makes have a property. -/
@[reducible]
def Production.Bears (P : Node → Prop) : (p : Production) → p.Answer → Prop
  | .statements _, stmts | .inlineBody _, stmts => ∀ c ∈ stmts, c.Every P
  | .body _, (stmts, _) => ∀ c ∈ stmts, c.Every P
  | .inlineRest _, rest => ∀ stmts, rest = some stmts → ∀ c ∈ stmts, c.Every P
  | .operators _ left, more => left.Every P → ∀ node, more = some node → node.Every P
  | .call id, node => id.Every P → node.Every P
  | .branches node _ _, whole | .args node _, whole | .stages node _, whole | .stringPieces _ node, whole
  | .wordPieces node, whole => node.Gains P whole
  | .statement, node | .assign _, node | .functionDef _, node | .ifExpr _, node | .expression, node
  | .binary _ _, node | .operand _ _, node | .operandBody _ _, node | .arg _, node | .parenBody _, node
  | .piece _, node => node.Every P

/-- A production that ends without faults met none, and made no node without the property. -/
theorem Reads.quiet (hP : Established setup exact P) {p : Production} {a : p.Answer}
    (h : Reads setup exact p s a t) (ht : t.faults = []) : s.faults = [] ∧ p.Bears P a := by
  induction h with
  | halted | noMore | noBody => exact ⟨ht, nofun⟩
  | off | noStatement | tooDeep | noOperand | badOperand | noValue | unterminated =>
    exact absurd ht (complain_faults_ne_nil _ _ _)
  | separator _ _ _ _ _ _ ih => exact ih ht
  | next _ _ _ _ _ _ hjunk _ ihstmt ihrest =>
    obtain ⟨h₂, hrest⟩ := ihrest ht
    obtain ⟨h₁, rfl⟩ := hjunk.quiet h₂
    obtain ⟨hs, hstmt⟩ := ihstmt h₁
    exact ⟨hs, List.forall_mem_cons.mpr ⟨hstmt, hrest⟩⟩
  | assignment _ _ _ ih | evaluate _ _ _ _ ih | block _ _ _ ih | inlined _ _ _ _ ih | alone _ _ _ ih => exact ih ht
  | assign _ _ hop _ ih =>
    obtain ⟨h₁, hvalue⟩ := ih ht
    obtain ⟨hs, hop⟩ := Expects.quiet hP rfl hop h₁
    exact ⟨hs, hP.gains ((Gains.push _ hop).trans (.push _ hvalue)) rfl (hP.head rfl .assign _)⟩
  | several _ _ ihfirst ihrest =>
    obtain ⟨h₁, hrest⟩ := ihrest ht
    obtain ⟨hs, hfirst⟩ := ihfirst h₁
    exact ⟨hs, List.forall_mem_cons.mpr ⟨hfirst, hrest _ rfl⟩⟩
  | single _ _ ihfirst =>
    obtain ⟨hs, hfirst⟩ := ihfirst ht
    exact ⟨hs, List.forall_mem_singleton.mpr hfirst⟩
  | restClosed | restClosedNext =>
    refine ⟨ht, ?_⟩
    rintro _ ⟨⟩
    exact nofun
  | restOpen | restOpenNext => exact ⟨ht, fun _ => nofun⟩
  | restMore _ _ _ _ _ _ _ _ ihstmt ihrest =>
    obtain ⟨h₁, hrest⟩ := ihrest ht
    obtain ⟨hs, hstmt⟩ := ihstmt h₁
    refine ⟨hs, fun stmts hstmts => ?_⟩
    obtain ⟨rest, hsome, rfl⟩ := Option.map_eq_some_iff.mp hstmts
    exact List.forall_mem_cons.mpr ⟨hstmt, hrest rest hsome⟩
  | functionDef hheld hk hparams hcolon hbody hclose ih =>
    obtain ⟨h₃, hnode⟩ := hclose.quiet hP ht
    obtain ⟨h₂, hstmts⟩ := ih h₃
    obtain ⟨h₁, hc⟩ := hcolon.quiet hP h₂
    obtain ⟨hs, hlist⟩ := hparams.quiet hP h₁
    have hlist (pos : Nat) := hP.gains (hlist.trans (gains_paramList _ pos)) rfl (List.forall_mem_nil _)
    refine ⟨hs, forall_preorder.mpr ⟨hP.function _ _ _ _ (.functionDef hheld hk hparams hcolon hbody hclose) ht,
      hnode.children ?_⟩⟩
    rw [append_children]
    exact List.forall_mem_append.mpr
      ⟨((Gains.push _ (hlist _)).trans (.push _ hc)).children (hP.head rfl .functionDef _), hstmts⟩
  | ifExpr hheld hk hcondition hcolon hbody hbranches ihcondition ihbody ihbranches =>
    obtain ⟨h₃, hnode⟩ := ihbranches ht
    obtain ⟨h₂, hstmts⟩ := ihbody h₃
    obtain ⟨h₁, hc⟩ := hcolon.quiet hP h₂
    obtain ⟨hs, hcondition'⟩ := ihcondition h₁
    refine ⟨hs, forall_preorder.mpr ⟨hP.conditional _ _ _ _ (.ifExpr hheld hk hcondition hcolon hbody hbranches) ht,
      hnode.children ?_⟩⟩
    exact (((Gains.push _ hcondition').trans (.push _ hc)).trans (.push _ (every_blockNode hP hstmts _))).children
      (hP.head rfl .ifExpr _)
  | @elsif _ _ _ s₃ _ tok _ _ _ _ _ _ _ _ _ _ _ hcolon _ _ ihcondition ihbody ihbranches =>
    obtain ⟨h₃, hwhole⟩ := ihbranches ht
    obtain ⟨h₂, hstmts⟩ := ihbody h₃
    obtain ⟨h₁, hc⟩ := hcolon.quiet hP h₂
    obtain ⟨hs, hcondition⟩ := ihcondition h₁
    have hhead := Gains.push (branch .elsifExpr [Node.leaf .keyword tok]) hcondition
    have hparts := (hhead.trans (.push _ hc)).trans (.push _ (every_blockNode hP hstmts s₃.pos))
    have hbranch := hP.gains hparts rfl (hP.head rfl _ _)
    exact ⟨hs, (Gains.push _ hbranch).trans hwhole⟩
  | @otherwise _ _ s₃ _ tok _ _ _ _ _ _ _ _ _ hcolon _ _ ihbody ihbranches =>
    obtain ⟨h₃, hwhole⟩ := ihbranches ht
    obtain ⟨h₂, hstmts⟩ := ihbody h₃
    obtain ⟨hs, hc⟩ := hcolon.quiet hP h₂
    have hhead := Gains.push (branch .elseExpr [Node.leaf .keyword tok]) hc
    have hbranch := hP.gains (hhead.trans (.push _ (every_blockNode hP hstmts s₃.pos))) rfl (hP.head rfl _ _)
    exact ⟨hs, (Gains.push _ hbranch).trans hwhole⟩
  | endIf _ _ _ hclose => exact hclose.quiet hP ht
  | pipe _ _ _ _ ihleft ihstages =>
    obtain ⟨h₁, hstages⟩ := ihstages ht
    obtain ⟨hs, hleft⟩ := ihleft h₁
    exact ⟨hs, hP.gains hstages rfl (List.forall_mem_singleton.mpr hleft)⟩
  | stage _ _ _ _ _ _ ihvalue ihrest =>
    obtain ⟨h₁, hrest⟩ := ihrest ht
    obtain ⟨hs, hvalue⟩ := ihvalue h₁
    exact ⟨hs, ((Gains.push _ (hP.leaf (k := .operator) rfl _)).trans (.push _ hvalue)).trans hrest⟩
  | lastStage _ _ _ _ _ ih =>
    obtain ⟨hs, hvalue⟩ := ih ht
    exact ⟨hs, (Gains.push _ (hP.leaf (k := .operator) rfl _)).trans (.push _ hvalue)⟩
  | operation _ _ _ ihleft ihops =>
    obtain ⟨h₁, hops⟩ := ihops ht
    obtain ⟨hs, hleft⟩ := ihleft h₁
    exact ⟨hs, hops hleft _ rfl⟩
  | lone _ _ _ _ ihleft ihops =>
    obtain ⟨hs, hleft⟩ := ihleft (ihops ht).1
    exact ⟨hs, every_loneName hP _ hleft⟩
  | justOperand _ _ _ _ ihleft ihops => exact ihleft (ihops ht).1
  | noOperator => exact ⟨ht, fun _ _ => nofun⟩
  | @operator _ _ _ tok _ left right more _ _ _ _ ihright ihmore =>
    obtain ⟨h₁, hmore⟩ := ihmore ht
    obtain ⟨hs, hright⟩ := ihright h₁
    refine ⟨hs, ?_⟩
    rintro hleft _ ⟨⟩
    have hparts : ∀ c ∈ [left, Node.leaf .operator tok, right], c.Every P :=
      List.forall_mem_cons.mpr ⟨hleft, List.forall_mem_cons.mpr ⟨hP.leaf rfl tok, List.forall_mem_singleton.mpr hright⟩⟩
    have hnode : (branch (operatorNode (precedence tok.kind)) _).Every P :=
      hP.of_children (isSimple_operatorNode _) hparts
    cases more with
    | none => exact hnode
    | some node => exact hmore hnode node rfl
  | operand _ _ _ ih => exact ih ht
  | literal _ hk => exact ⟨ht, hP.leaf (isSimple_literal hk) _⟩
  | string _ _ _ ih | word _ _ _ ih =>
    obtain ⟨hs, hnode⟩ := ih ht
    exact ⟨hs, hP.gains hnode rfl (List.forall_mem_nil _)⟩
  | callee _ _ _ ih =>
    obtain ⟨hs, hnode⟩ := ih ht
    exact ⟨hs, hnode (hP.leaf rfl _)⟩
  | name => exact ⟨ht, hP.leaf rfl _⟩
  | dotGet _ _ h => exact h.quiet hP ht
  | group _ _ _ ih | function _ _ ih | conditional _ _ ih => exact ih ht
  | glued | noArgs => exact ⟨ht, id⟩
  | withArgs _ _ _ _ ih =>
    obtain ⟨hs, hnode⟩ := ih ht
    exact ⟨hs, fun hid => hP.gains hnode rfl (List.forall_mem_singleton.mpr hid)⟩
  | moreArgs _ _ _ _ iharg ihrest =>
    obtain ⟨h₁, hrest⟩ := ihrest ht
    obtain ⟨hs, harg⟩ := iharg h₁
    exact ⟨hs, (Gains.push _ harg).trans hrest⟩
  | lastArg _ _ _ ih =>
    obtain ⟨hs, harg⟩ := ih ht
    exact ⟨hs, .push _ harg⟩
  | positional _ _ ih =>
    obtain ⟨hs, hvalue⟩ := ih ht
    exact ⟨hs, hP.of_children rfl (List.forall_mem_singleton.mpr hvalue)⟩
  | named _ _ _ _ _ ih =>
    obtain ⟨hs, hvalue⟩ := ih ht
    exact ⟨hs, hP.gains (.push _ hvalue) rfl (hP.head rfl .namedArg _)⟩
  | emptyGroup _ _ hclose =>
    obtain ⟨hs, hnode⟩ := hclose.quiet ht
    exact ⟨hs, hP.gains hnode rfl (List.forall_mem_nil _)⟩
  | fullGroup _ _ _ hjunk hclose ih =>
    obtain ⟨h₂, hwhole⟩ := hclose.quiet ht
    obtain ⟨h₁, hinner⟩ := hjunk.quiet h₂
    obtain ⟨hs, hvalue⟩ := ih h₁
    exact ⟨hs, hP.gains (((Gains.push _ hvalue).trans hinner).trans hwhole) rfl (List.forall_mem_nil _)⟩
  | closeQuote => exact ⟨ht, .withSpan _ _⟩
  | endWord => exact ⟨ht, .refl _⟩
  | stringText _ _ ih | wordText _ _ ih =>
    obtain ⟨hs, hwhole⟩ := ih ht
    exact ⟨hs, (Gains.push _ (hP.leaf rfl _)).trans hwhole⟩
  | stringPart _ _ ihpiece ih | wordPart _ _ ihpiece ih =>
    obtain ⟨h₁, hwhole⟩ := ih ht
    obtain ⟨hs, hpart⟩ := ihpiece h₁
    exact ⟨hs, (Gains.push _ hpart).trans hwhole⟩
  | escape => exact ⟨ht, hP.leaf rfl _⟩
  | interpolatedName =>
    refine ⟨ht, hP.of_children rfl (List.forall_mem_singleton.mpr ?_)⟩
    exact hP.of_children rfl (List.forall_mem_nil _)
  | interpolated _ _ _ ih =>
    obtain ⟨hs, hparen⟩ := ih ht
    exact ⟨hs, hP.of_children rfl (List.forall_mem_singleton.mpr hparen)⟩

/-- Without faults, all nodes of a parse have the property. -/
theorem Outcome.quiet (hP : Established setup exact P) {stmts : List Node} (h : Outcome setup exact stmts t)
    (ht : t.faults = []) : (wholeTree setup stmts t).Every P := by
  refine hP.of_children rfl (List.forall_mem_append.mpr ⟨(h.reads.quiet hP ht).2, ?_⟩)
  rw [unread]
  split
  · exact List.forall_mem_singleton.mpr (hP.of_children rfl (List.forall_mem_nil _))
  · exact List.forall_mem_nil _

end
end Grammar
end Bareword.Tree
