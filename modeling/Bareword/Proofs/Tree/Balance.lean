import Bareword.Proofs.Tree.Binding

/-! # Balance

Every production that makes a name wait, enters a scope or counts up also undoes it, on each of the ways out
of it. So a parse ends where it started, but for the names that it bound at the root.

* `Binds`: what becomes of the names between two snapshots, by the places that are read.
* `Fills`: more is read below a node.
* `Reads.binds`: what every production does to the names, whether its looks are exact or not.
* `parse_balanced`: the scope and the counters at the end of a parse.
-/

namespace Bareword.Scope.Context
set_option autoImplicit false

variable {hasher : Digest.Hasher} {c : Context} {top : List Text}

/-- A scope that binds one list of names is a root. -/
theorem Sound.depth?_of_bindings (h : c.Sound hasher) (htop : c.bindings = [top]) :
    c.arena.depth? c.scope = some 0 ∧ c.arena.names? c.scope = some top := by
  obtain ⟨r, hr⟩ := Arena.get?_eq_some_iff.mpr h.lt
  have hlength := congrArg List.length htop
  rw [bindings, List.length_map] at hlength
  rw [bindings, h.arena.chain_eq hr, List.map_cons] at htop
  refine ⟨?_, ?_⟩
  · rw [Arena.depth?, hr, Option.map_some, hlength]
    rfl
  · rw [Arena.names?, hr, Option.map_some, (List.cons.inj htop).1]

end Bareword.Scope.Context

namespace Bareword.Tree.Grammar
set_option autoImplicit false
open Token (KindSet)
open Parsing
open Node

section
variable {setup : Setup} {exact : Prop} {s t u : Snapshot} {ms ms' : List Mark} {n c : Node} {tok : Token}
  {accept : KindSet}

/-! ## Names between snapshots -/

/-- Where no parameters are read, the names become what some places make of them. -/
def Binds (s : Snapshot) (ms : List Mark) (t : Snapshot) : Prop :=
  s.names.paramStart = none → t.names = { s.names with bound := Mark.applyAll s.names.bound ms }

namespace Binds

theorem same (h : t.names = s.names) : Binds s [] t := fun _ => h

theorem refl (s : Snapshot) : Binds s [] s := same rfl

theorem shift (hk : isQuiet tok.kind = true) : Binds s [] (s.shift tok) :=
  fun hquiet => shift_of_isQuiet hk hquiet tok.text

theorem trans (h : Binds s ms u) (h' : Binds u ms' t) : Binds s (ms ++ ms') t := by
  intro hquiet
  have hnames := h hquiet
  rw [h' (by rw [hnames, hquiet]), hnames, Mark.applyAll_append]

theorem after (h : Binds s [] u) (h' : Binds u ms t) : Binds s ms t := h.trans h'

theorem before (h : Binds s ms u) (h' : Binds u [] t) : Binds s ms t := by
  have hnames := h.trans h'
  rwa [List.append_nil] at hnames

theorem leaf {kind : Kind} (hplain : kind.isPlain = true) (hk : isQuiet tok.kind = true) :
    Binds s (Node.leaf kind tok).marks (s.shift tok) := by
  rw [marks_leaf hplain]
  exact .shift hk

theorem fault (c : Complaint) (span : Span) (h : t.names = s.names) : Binds s (faultNode setup c span).marks t := by
  rw [marks_faultNode]
  exact .same h

theorem cons {cs : List Node} (h : Binds s c.marks u) (h' : Binds u (cs.flatMap marks) t) :
    Binds s ((c :: cs).flatMap marks) t :=
  h.trans h'

theorem append {cs cs' : List Node} (h : Binds s (cs.flatMap marks) u) (h' : Binds u (cs'.flatMap marks) t) :
    Binds s ((cs ++ cs').flatMap marks) t := by
  rw [List.flatMap_append]
  exact h.trans h'

theorem single (h : Binds s c.marks t) : Binds s ([c].flatMap marks) t := h.cons (.refl t)

theorem push (hn : Binds s n.inner u) (hc : Binds u c.marks t) : Binds s (n.push c).inner t := by
  rw [inner_push]
  exact hn.trans hc

theorem extend {cs : List Node} (hn : Binds s n.inner u) (hcs : Binds u (cs.flatMap marks) t) :
    Binds s (n.append cs).inner t := by
  rw [Node.inner, append_children, List.flatMap_append]
  exact hn.trans hcs

/-- A node that neither uses names nor changes which are bound is what is read below it. -/
theorem plain (hk : n.kind.isPlain = true) (h : Binds s n.inner t) : Binds s n.marks t := by
  rwa [marks_of_isPlain hk]

/-- To use names does nothing to them. -/
theorem used (hopening : n.opening = [.use n]) (hclosing : n.closing = []) (h : Binds s n.inner t) :
    Binds s n.marks t := by
  rw [marks_eq, hopening, hclosing, List.append_nil]
  exact h

theorem block {pos : Nat} {stmts : List Node} (h : Binds s (stmts.flatMap marks) t) :
    Binds s (blockNode pos stmts).marks t := by
  cases stmts with
  | nil => exact h
  | cons stmt stmts => exact .plain rfl h

theorem loneName {id : Node} (names : Scope.Names) (h : Binds s id.marks t) :
    Binds s (loneName setup names id).marks t :=
  .plain (isPlain_loneName names id) h.single

end Binds

/-- From one snapshot to another more is read below a node. -/
structure Fills (s : Snapshot) (n whole : Node) (t : Snapshot) : Prop where
  kind : whole.kind = n.kind
  inner : ∀ s₀, Binds s₀ n.inner s → Binds s₀ whole.inner t

namespace Fills

theorem refl (s : Snapshot) (n : Node) : Fills s n n s := ⟨rfl, fun _ => id⟩

theorem push (n : Node) (hc : Binds s c.marks t) : Fills s n (n.push c) t := ⟨rfl, fun _ hn => hn.push hc⟩

theorem trans {node whole : Node} (h : Fills s n node u) (h' : Fills u node whole t) : Fills s n whole t :=
  ⟨h'.kind.trans h.kind, fun s₀ hn => h'.inner s₀ (h.inner s₀ hn)⟩

theorem withStop (stop : Int) (h : Binds s [] t) : Fills s n { n with span := { n.span with stop } } t :=
  ⟨rfl, fun _ hn => hn.before h⟩

theorem marks {s₀ : Snapshot} {whole : Node} (h : Fills s n whole t) (hn : Binds s₀ n.inner s)
    (hk : n.kind.isPlain = true) : Binds s₀ whole.marks t :=
  .plain (h.kind ▸ hk) (h.inner s₀ hn)

end Fills

/-! ## Productions without recursion -/

theorem Expects.binds {k : Token.Kind} {kind : Kind} {c : Complaint} (hk : isQuiet k = true)
    (hplain : kind.isPlain = true) (h : Expects setup exact s accept k kind c n t) : Binds s n.marks t := by
  cases h with
  | found _ hkind => exact .leaf hplain (hkind ▸ hk)
  | absent => exact .fault _ _ rfl

theorem Colon.binds (h : Colon setup exact s n t) : Binds s n.marks t := Expects.binds rfl rfl h

theorem EndStatement.binds {stop : KindSet} {junk : Option Node} (h : EndStatement setup exact s stop junk t) :
    Binds s (junk.toList.flatMap Node.marks) t := by
  cases h with
  | clean => exact .refl s
  | junk => exact .single (.fault _ _ rfl)

theorem CloseBody.fills {node whole : Node} {block : Bool} (h : CloseBody setup exact s node block whole t) :
    Fills s node whole t := by
  cases h with
  | closed _ hk => exact .push node (.leaf rfl (hk ▸ rfl))
  | missing => exact .push node (.fault _ _ rfl)
  | without => exact .refl s node

theorem CloseParen.fills {node whole : Node} (h : CloseParen setup exact s node whole t) : Fills s node whole t := by
  cases h with
  | closed _ hk => exact .withStop _ (.shift (hk ▸ rfl))
  | missing => exact .push node (.fault _ _ rfl)

theorem Junk.fills {node whole : Node} (h : Junk setup exact s node whole t) : Fills s node whole t := by
  induction h with
  | done => exact .refl _ _
  | @more s t node all tok _ _ _ ih =>
    have hfault : Binds s (faultNode setup (.unexpected tok) (s.junk setup)).marks (s.skip setup (.unexpected tok)) :=
      .fault _ _ rfl
    exact (Fills.push node hfault).trans ih

theorem DotGet.binds (hk : tok.kind = .beforeDot) (h : DotGet setup exact s tok n t) : Binds s n.marks t := by
  have hbase : Binds s (Node.branch .dotGet [.leaf .identifier tok]).inner (s.shift tok) := by
    rw [inner_branch, List.flatMap_singleton]
    exact .leaf rfl (by rw [hk]; rfl)
  have hpast {dot : Token} : Binds (s.shift tok) [] ((s.shift tok).pastDot dot) := by
    rw [Snapshot.pastDot]
    split
    · rename_i hdot
      exact .shift (by rw [hdot]; rfl)
    · exact .refl _
  cases h with
  | found _ _ hkind => exact .used rfl rfl (hbase.push (.after hpast (.leaf rfl (by rw [hkind]; rfl))))
  | absent => exact .used rfl rfl (hbase.push (.after hpast (.fault _ _ rfl)))

/-! ## Productions -/

/-- What a production does to the names, by what it reads besides what it is given. -/
@[reducible]
def Production.Binds : (p : Production) → Snapshot → p.Answer → Snapshot → Prop
  | .statements _, s, stmts, t | .inlineBody _, s, stmts, t => Grammar.Binds s (stmts.flatMap marks) t
  | .body _, s, (stmts, _), t => Grammar.Binds s (stmts.flatMap marks) t
  | .inlineRest _, s, rest, t => ∀ stmts, rest = some stmts → Grammar.Binds s (stmts.flatMap marks) t
  | .operators _ left, s, more, t => ∀ s₀, Grammar.Binds s₀ left.marks s → Grammar.Binds s₀ (more.getD left).marks t
  | .call id, s, node, t => ∀ s₀, Grammar.Binds s₀ id.marks s → Grammar.Binds s₀ node.marks t
  | .branches node _ _, s, whole, t | .stages node _, s, whole, t | .args node _, s, whole, t
  | .stringPieces _ node, s, whole, t | .wordPieces node, s, whole, t => Fills s node whole t
  | .statement, s, node, t | .assign _, s, node, t | .functionDef _, s, node, t | .ifExpr _, s, node, t
  | .expression, s, node, t | .binary _ _, s, node, t | .operand _ _, s, node, t | .operandBody _ _, s, node, t
  | .arg _, s, node, t | .parenBody _, s, node, t | .piece _, s, node, t => Grammar.Binds s node.marks t

/-- Every production leaves what waits as it was, and the scope where it was. -/
theorem Reads.binds {p : Production} {a : p.Answer} (h : Reads setup exact p s a t) : p.Binds s a t := by
  induction h with
  | halted | off | noMore | noBody => exact .same rfl
  | separator _ _ _ _ hk _ ih =>
    refine .after (.shift ?_) ih
    rcases hk with hk | hk <;> rw [hk] <;> rfl
  | next _ _ _ _ _ _ hjunk _ ihstmt ihrest => exact .cons ihstmt (.append hjunk.binds ihrest)
  | assignment _ _ _ ih | evaluate _ _ _ _ ih | function _ _ ih | conditional _ _ ih => exact ih
  | noStatement | tooDeep | noOperand | badOperand => exact .fault _ _ rfl
  | @assign s s₁ t tok op value hheld hk hop _ ih =>
    have hfirst : Binds (s.shift tok) (Node.branch .assign [.leaf .assignable tok]).inner (s.shift tok) := .refl _
    exact names_reduce_assign hk rfl rfl ((hfirst.push (Expects.binds rfl rfl hop)).push ih)
  | block _ _ _ ih | inlined _ _ _ _ ih => exact ih
  | several _ _ ihfirst ihrest => exact .cons ihfirst (ihrest _ rfl)
  | single _ _ ihfirst =>
    -- What the attempt did to the names is undone.
    exact .single ihfirst
  | restClosed =>
    rintro _ ⟨⟩
    exact .refl _
  | restOpen | restOpenNext => rintro _ ⟨⟩
  | restClosedNext _ _ hk =>
    rintro _ ⟨⟩
    exact .shift (by rw [hk]; rfl)
  | restMore _ _ hk _ _ _ _ _ ihstmt ihrest =>
    intro stmts hstmts
    obtain ⟨rest, hrest, rfl⟩ := Option.map_eq_some_iff.mp hstmts
    exact .after (.shift (by rw [hk]; rfl)) (.cons ihstmt (ihrest rest hrest))
  | @functionDef s s₁ s₂ s₃ t tok list c node stmts block hheld hk hparams hcolon _ hclose ih =>
    intro hquiet
    obtain ⟨hlist, hinner, -⟩ := hparams.listed (p := tok.stop) ⟨rfl, Nat.le_refl _, .inl ⟨rfl, rfl⟩⟩
    have hhead : Binds (s₁.reduce .params)
        ((Node.branch .functionDef [.leaf .keyword tok]).push (paramList list s₁.pos)).inner (s₁.reduce .params) := by
      have hparameters : (paramList list s₁.pos).marks = [] := by
        rw [marks_of_isPlain (by rw [paramList_kind, hlist]; rfl), Node.inner, paramList_children]
        exact hinner
      rw [inner_push, hparameters]
      exact .refl _
    have hnode := hclose.fills.inner _ ((hhead.push hcolon.binds).extend ih)
    obtain ⟨-, rest, hchildren⟩ := hclose.enlarged
    rw [append_children] at hchildren
    have hparameters : node.parameters = _ := parameters_of_head hlist hchildren
    have hnames := hparams.enters hk hquiet
    refine names_reduce_functionDef ?_ (by rw [hnames, hparameters]) (hnode (by rw [hnames, hquiet]))
    rw [hclose.fills.kind, append_kind]
    rfl
  | @ifExpr s s₁ s₂ s₃ t tok condition c node stmts block hheld hk _ hcolon _ _ ihcondition ihbody ihbranches =>
    have hkeyword : Binds s (Node.branch .ifExpr [.leaf .keyword tok]).inner (s.shift tok) :=
      .shift (by rw [hk]; rfl)
    exact Fills.marks ihbranches (((hkeyword.push ihcondition).push hcolon.binds).push (.block ihbody)) rfl
  | @elsif s s₁ s₂ s₃ t tok node condition c whole stmts block b seenElse _ hk _ hcolon _ _ ihcondition ihbody ihbranches =>
    have hkeyword : Binds s (Node.branch .elsifExpr [.leaf .keyword tok]).inner (s.shift tok) :=
      .shift (by rw [hk]; rfl)
    have hblock : Binds s₂ (blockNode s₃.pos stmts).marks s₃ := .block ihbody
    have hbranch := ((hkeyword.push ihcondition).push hcolon.binds).push hblock
    exact (Fills.push node (.plain rfl hbranch)).trans ihbranches
  | @otherwise s s₂ s₃ t tok node c whole stmts block b seenElse _ hk hcolon _ _ ihbody ihbranches =>
    have hkeyword : Binds s (Node.branch .elseExpr [.leaf .keyword tok]).inner (s.shift tok) :=
      .shift (by rw [hk]; rfl)
    have hblock : Binds s₂ (blockNode s₃.pos stmts).marks s₃ := .block ihbody
    have hbranch := (hkeyword.push hcolon.binds).push hblock
    exact (Fills.push node (.plain rfl hbranch)).trans ihbranches
  | endIf _ _ _ hclose => exact hclose.fills
  | pipe _ _ _ _ ihleft ihstages => exact Fills.marks ihstages (n := .branch .pipeExpr _) (.single ihleft) rfl
  | alone _ _ _ ih => exact ih
  | stage _ hkind _ _ _ _ ihvalue ihrest =>
    exact ((Fills.push _ (.leaf rfl (by rw [hkind]; rfl))).trans (.push _ ihvalue)).trans ihrest
  | lastStage _ hkind _ _ _ ih => exact (Fills.push _ (.leaf rfl (by rw [hkind]; rfl))).trans (.push _ ih)
  | operation _ _ _ ihleft ihops | justOperand _ _ _ _ ihleft ihops => exact ihops _ ihleft
  | lone _ _ _ _ ihleft ihops => exact .loneName _ (ihops _ ihleft)
  | noOperator => exact fun s₀ hleft => hleft
  | @operator s s₁ t tok minPrec left right more _ hprec _ _ ihright ihmore =>
    intro s₀ hleft
    have hoperator : Binds s (Node.leaf .operator tok).marks (s.shift tok) := .leaf rfl (isQuiet_of_precedence hprec)
    exact ihmore s₀ (.plain (isPlain_operatorNode _) (hleft.cons (hoperator.cons (.single ihright))))
  | operand _ _ _ ih => exact ih
  | literal _ hk =>
    obtain ⟨hquiet, hplain⟩ := isPlain_literal hk
    exact .leaf hplain hquiet
  | string _ hk _ ih => exact Fills.marks ih (.shift (by rw [hk]; rfl)) rfl
  | word _ _ _ ih =>
    refine .used ?_ ?_ (ih.inner _ (.same rfl))
    · rw [opening, ih.kind]
    · rw [closing, ih.kind]
  | callee _ hk _ ih => exact ih _ (.leaf rfl (by rw [hk]; rfl))
  | group _ hk _ ih => exact .after (.shift (by rw [hk]; rfl)) ih
  | name _ hk => exact .leaf rfl (by rw [hk]; rfl)
  | dotGet _ hk h => exact h.binds hk
  | glued | noArgs => exact fun s₀ hid => hid
  | withArgs _ _ _ _ ih => exact fun s₀ hid => Fills.marks ih (n := .branch .functionCall _) hid.single rfl
  | moreArgs _ _ _ _ iharg ihrest => exact (Fills.push _ iharg).trans ihrest
  | lastArg _ _ _ ih => exact .push _ ih
  | positional _ _ ih => exact .plain rfl (.single ih)
  | @named s t tok next value _ hk _ _ _ ih =>
    have hname : Binds s (Node.branch .namedArg [.leaf .argName tok]).inner (s.shift tok) := .shift (by rw [hk]; rfl)
    exact .plain rfl (hname.push ih)
  | @noValue s tok next _ hk =>
    have hname : Binds s (Node.branch .namedArg [.leaf .argName tok]).inner (s.shift tok) := .shift (by rw [hk]; rfl)
    exact .plain rfl (hname.push (.fault _ _ rfl))
  | emptyGroup _ _ hclose => exact hclose.fills.marks (.same rfl) rfl
  | fullGroup _ _ _ hjunk hclose ih =>
    exact (((Fills.push _ ih).trans hjunk.fills).trans hclose.fills).marks (.same rfl) rfl
  | closeQuote => exact .withStop _ (.same rfl)
  | unterminated => exact .push _ (.fault _ _ rfl)
  | stringText _ _ ih | wordText _ _ ih => exact (Fills.push _ (.same rfl)).trans ih
  | stringPart _ _ ihpiece ih | wordPart _ _ ihpiece ih => exact (Fills.push _ ihpiece).trans ih
  | endWord => exact .refl _ _
  | escape | interpolatedName => exact .same rfl
  | @interpolated s t tok paren _ _ _ ih =>
    have hparen : Binds s paren.marks t := .after (u := s.advance tok) (.same rfl) ih
    exact .plain rfl hparen.single

end

/-! ## Parses -/

/-- Whatever the source, a parse ends at the root of its scopes with no names that wait, and with its counters
at zero. The names that are bound there are the targets of the assignments outside of functions. -/
theorem parse_balanced (setup : Setup) :
    (parse setup).scope.pending = [] ∧ (parse setup).scope.inParams = false ∧
      (parse setup).scope.arena.depth? (parse setup).scope.scope = some 0 ∧
      ((program setup).run (.start setup)).2.parens = 0 ∧ ((program setup).run (.start setup)).2.depth = 0 ∧
      ∃ names, (parse setup).scope.arena.names? (parse setup).scope.scope = some names ∧
        ∀ b, b ∈ names ↔ (parse setup).tree.Exports b := by
  have hmeets := meets_program setup
  obtain ⟨stmts, t, hreads, htree, -, -, hnames, hparens, hdepth⟩ := hmeets.post False fun hfalse => hfalse.elim
  obtain ⟨hadvances, -⟩ := hreads.progress
  have hbinds : Binds .origin (stmts.flatMap marks) t := hreads.binds
  obtain ⟨top, happly, -, hmem⟩ := (wholeTree setup stmts t).adds_marks [] [] Scope.Sorted.nil
  rw [marks_wholeTree] at happly
  have hscope : (parse setup).scope.names = { Scope.Names.start with bound := [top] } := by
    rw [← happly]
    exact hnames.trans (hbinds rfl)
  obtain ⟨hroot, htop⟩ := hmeets.good.scope.depth?_of_bindings (congrArg Scope.Names.bound hscope)
  have hstart : (parse setup).scope.paramStart = none := congrArg Scope.Names.paramStart hscope
  refine ⟨congrArg Scope.Names.pending hscope, ?_, hroot, hparens.trans hadvances.parens_eq,
    hdepth.trans hadvances.depth_eq, top, htop, fun b => ?_⟩
  · rw [Scope.Context.inParams, hstart]
    rfl
  · have htree : (parse setup).tree = wholeTree setup stmts t := htree
    rw [hmem, htree]
    simp

end Bareword.Tree.Grammar
