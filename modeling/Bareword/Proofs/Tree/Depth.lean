import Bareword.Proofs.Tree.Spans

/-! # Depth

Operands are read inside operands, and every operand counts one level more, up to a limit. Whatever else nests, be
it a body, a condition or an argument, nests through an operand. The parentheses of an interpolation are no operand
of their own: the string or the word around them counts.

* `Node.Path`: the nodes from a node down to a leaf.
* `levels`: how many of the nodes on a path count.
* `Node.Nests`, `Node.Holds`: how many levels there are at most on the paths of a node, and below it.
* `Reads.nests`: no production nests deeper than there is room.
* `parse_nests`: no path of a tree has more levels than the limit.
-/

namespace Bareword.Tree
set_option autoImplicit false
open Token (KindSet)

/-- Whether a node of a kind counts as a level of its own below a parent of a kind. -/
def Kind.isLevel (parent : Option Kind) : Kind → Bool
  | .functionDef | .ifExpr | .string | .word => true
  | .parenExpr => parent != some .interpolation
  | _ => false

namespace Node

/-- The nodes from a node down to one of the leaves below it. -/
inductive Path : Node → List Node → Prop where
  | leaf {n : Node} (h : n.children = []) : Path n [n]
  | step {n c : Node} {p : List Node} (hc : c ∈ n.children) (hp : Path c p) : Path n (n :: p)

/-- How many nodes on a path count as levels; the first one lies below a parent of some kind, if below any. -/
def levels : Option Kind → List Node → Nat
  | _, [] => 0
  | parent, n :: p => (if n.kind.isLevel parent then 1 else 0) + levels (some n.kind) p

/-- The node has at most `k` levels on each path, itself included. -/
def Nests (k : Nat) (n : Node) : Prop := ∀ p, n.Path p → levels none p ≤ k

/-- There are at most `k` levels below the node. -/
def Holds (k : Nat) (n : Node) : Prop := ∀ c ∈ n.children, c.Nests k

/-- The node is no level itself, and there are at most `k` below it. -/
structure Flat (k : Nat) (n : Node) : Prop where
  kind : n.kind.isLevel none = false
  holds : n.Holds k

variable {n c : Node} {cs : List Node} {k : Nat} {kind : Kind} {parent : Option Kind} {p : List Node}

/-- Below no parent a node counts if it counts at all. -/
theorem levels_le (parent : Option Kind) (p : List Node) : levels parent p ≤ levels none p := by
  cases p with
  | nil => exact Nat.le_refl _
  | cons n p =>
    have hlevel : n.kind.isLevel parent = true → n.kind.isLevel none = true := by
      cases n.kind <;> simp [Kind.isLevel]
    rw [levels, levels]
    split <;> split <;> simp_all

theorem levels_of_holds (h : n.Holds k) (hp : n.Path p) (parent : Option Kind) :
    levels parent p ≤ (if n.kind.isLevel parent then 1 else 0) + k := by
  cases hp with
  | leaf => exact Nat.add_le_add_left (Nat.zero_le _) _
  | step hc hp => exact Nat.add_le_add_left (Nat.le_trans (levels_le _ _) (h _ hc _ hp)) _

theorem Flat.nests (h : n.Flat k) : n.Nests k := by
  intro p hp
  have hle := levels_of_holds h.holds hp none
  rw [h.kind] at hle
  simpa using hle

theorem Holds.nests (h : n.Holds k) : n.Nests (k + 1) := by
  intro p hp
  have hle := levels_of_holds h hp none
  split at hle <;> omega

theorem Holds.push (hn : n.Holds k) (hc : c.Nests k) : (n.push c).Holds k :=
  List.forall_mem_append.mpr ⟨hn, List.forall_mem_singleton.mpr hc⟩

theorem Holds.append (hn : n.Holds k) (hcs : ∀ c ∈ cs, c.Nests k) : (n.append cs).Holds k := by
  rw [Holds, append_children]
  exact List.forall_mem_append.mpr ⟨hn, hcs⟩

theorem Holds.single (kind : Kind) (hc : c.Nests k) : (branch kind [c]).Holds k := List.forall_mem_singleton.mpr hc

theorem holds_of_nil (h : n.children = []) : n.Holds k := by
  rw [Holds, h]
  exact List.forall_mem_nil _

theorem holds_leaf (kind : Kind) (tok : Token) : (Node.leaf kind tok).Holds k := holds_of_nil rfl

theorem Flat.push (hn : n.Flat k) (hc : c.Nests k) : (n.push c).Flat k := ⟨hn.kind, hn.holds.push hc⟩

theorem nests_leaf (hkind : kind.isLevel none = false) (tok : Token) : (Node.leaf kind tok).Nests k :=
  Flat.nests ⟨hkind, holds_leaf kind tok⟩

end Node

namespace Grammar
open Node
open Parsing

section
variable {setup : Setup} {exact : Prop} {s t : Snapshot} {tok : Token} {n node : Node} {k : Nat}

/-! ## Productions without recursion -/

theorem nests_faultNode (c : Complaint) (span : Span) : (faultNode setup c span).Nests k :=
  Flat.nests ⟨rfl, holds_of_nil rfl⟩

theorem Expects.nests {accept : KindSet} {expected : Token.Kind} {kind : Kind} {c : Complaint}
    (hkind : kind.isLevel none = false) (h : Expects setup exact s accept expected kind c n t) : n.Nests k := by
  cases h with
  | found => exact nests_leaf hkind _
  | absent => exact nests_faultNode _ _

theorem Colon.nests (h : Colon setup exact s n t) : n.Nests k := Expects.nests rfl h

theorem EndStatement.nests {stop : KindSet} {junk : Option Node} (h : EndStatement setup exact s stop junk t) :
    ∀ c ∈ junk.toList, c.Nests k := by
  cases h with
  | clean => exact List.forall_mem_nil _
  | junk => exact List.forall_mem_singleton.mpr (nests_faultNode _ _)

theorem CloseBody.holds {block : Bool} (h : CloseBody setup exact s node block n t) (hnode : node.Holds k) :
    n.Holds k := by
  cases h with
  | closed => exact hnode.push (nests_leaf rfl _)
  | missing => exact hnode.push (nests_faultNode _ _)
  | without => exact hnode

theorem CloseParen.holds (h : CloseParen setup exact s node n t) (hnode : node.Holds k) : n.Holds k := by
  cases h with
  | closed => exact hnode
  | missing => exact hnode.push (nests_faultNode _ _)

theorem CloseParen.kind_eq (h : CloseParen setup exact s node n t) : n.kind = node.kind := by
  cases h <;> rfl

theorem Junk.holds (h : Junk setup exact s node n t) (hnode : node.Holds k) : n.Holds k := by
  induction h with
  | done => exact hnode
  | more _ _ _ ih => exact ih (hnode.push (nests_faultNode _ _))

theorem Junk.kind_eq (h : Junk setup exact s node n t) : n.kind = node.kind := by
  induction h with
  | done => rfl
  | more _ _ _ ih => exact ih

theorem Params.flat (h : Params setup exact s node n t) (hnode : node.Flat k) : n.Flat k := by
  induction h with
  | name _ _ _ ih => exact ih (hnode.push (nests_leaf rfl _))
  | bad _ _ _ ih => exact ih (hnode.push (nests_faultNode _ _))
  | done => exact hnode

theorem nests_paramList (h : n.Flat k) (pos : Nat) : (paramList n pos).Nests k := by
  rw [paramList]
  split
  · exact Flat.nests ⟨h.kind, h.holds⟩
  · exact h.nests

theorem DotGet.holds (h : DotGet setup exact s tok n t) : n.Holds k := by
  have hbase : (branch .dotGet [.leaf .identifier tok]).Holds k := .single _ (nests_leaf rfl tok)
  cases h with
  | found => exact hbase.push (nests_leaf rfl _)
  | absent => exact hbase.push (nests_faultNode _ _)

theorem nests_blockNode {stmts : List Node} (h : ∀ c ∈ stmts, c.Nests k) (pos : Nat) :
    (blockNode pos stmts).Nests k := by
  rw [blockNode]
  split
  · exact Flat.nests ⟨rfl, holds_of_nil rfl⟩
  · exact Flat.nests ⟨rfl, h⟩

theorem nests_loneName (names : Scope.Names) (h : n.Nests k) : (loneName setup names n).Nests k := by
  rw [loneName]
  refine Flat.nests ⟨?_, Holds.single _ h⟩
  split <;> split <;> rfl

/-- The parentheses of an interpolation are no level. -/
theorem nests_interpolation {paren : Node} (hkind : paren.kind = .parenExpr) (h : paren.Holds k) (span : Span) :
    ({ kind := .interpolation, span, children := [paren] } : Node).Nests k := by
  intro p hp
  cases hp with
  | leaf hnil => cases hnil
  | step hc hp =>
    rw [List.mem_singleton.mp hc] at hp
    have hle := levels_of_holds h hp (some .interpolation)
    rw [hkind] at hle
    simpa [levels, Kind.isLevel] using hle

/-! ## Productions -/

/-- How many levels may still be opened. -/
def Snapshot.room (setup : Setup) (s : Snapshot) : Nat := setup.maxDepth.toNat - s.depth

/-- What a production reads changes nothing about the room there is. -/
theorem Snapshot.Advances.room_eq (h : s.Advances setup.src t) : t.room setup = s.room setup := by
  rw [Snapshot.room, h.depth_eq, Snapshot.room]

/-- The answer of a production nests at most `k` levels. What is read inside an operand may not, but the
operand is a level itself. -/
@[reducible]
def Production.Nests (k : Nat) : (p : Production) → p.Answer → Prop
  | .statements _, stmts | .inlineBody _, stmts => ∀ c ∈ stmts, c.Nests k
  | .body _, (stmts, _) => ∀ c ∈ stmts, c.Nests k
  | .inlineRest _, rest => ∀ stmts, rest = some stmts → ∀ c ∈ stmts, c.Nests k
  | .operators _ left, more => left.Nests k → (more.getD left).Nests k
  | .stages node _, whole => node.Flat k → whole.Flat k
  | .call id, node => id.Flat k → node.Holds k
  | .branches node _ _, whole | .args node _, whole | .stringPieces _ node, whole | .wordPieces node, whole =>
    node.Holds k → whole.Holds k
  | .functionDef _, node | .ifExpr _, node | .operandBody _ _, node => node.Holds k
  | .parenBody _, node => node.kind = .parenExpr ∧ node.Holds k
  | .statement, node | .assign _, node | .expression, node | .binary _ _, node | .operand _ _, node | .arg _, node
  | .piece _, node => node.Nests k

/-- No production nests deeper than there is room where it starts. Only an operand makes the room smaller, for
what is read inside it. -/
theorem Reads.nests {p : Production} {a : p.Answer} (h : Reads setup exact p s a t) : p.Nests (s.room setup) a := by
  induction h with
  | halted | off | noMore | noBody => exact nofun
  | separator _ _ _ _ _ _ ih => exact ih
  | next _ _ _ _ _ hstmt hjunk hrest ihstmt ihrest =>
    rw [hjunk.advances.room_eq, hstmt.progress.1.room_eq] at ihrest
    exact List.forall_mem_append.mpr ⟨List.forall_mem_cons.mpr ⟨ihstmt, hjunk.nests⟩, ihrest⟩
  | assignment _ _ _ ih | evaluate _ _ _ _ ih | block _ _ _ ih | inlined _ _ _ _ ih => exact ih
  | noStatement | tooDeep => exact nests_faultNode _ _
  | noOperand | badOperand => exact nofun
  | @assign s s₁ t tok op value _ _ hop _ ih =>
    rw [(hop.advances Token.Kind.noConfusion).room_eq] at ih
    have htarget : (branch .assign [.leaf .assignable tok]).Holds (s.room setup) := .single _ (nests_leaf rfl tok)
    exact Flat.nests ⟨rfl, (htarget.push (hop.nests rfl)).push ih⟩
  | several hfirst _ ihfirst ihrest =>
    rw [hfirst.progress.1.room_eq] at ihrest
    exact List.forall_mem_cons.mpr ⟨ihfirst, ihrest _ rfl⟩
  | single _ _ ihfirst => exact List.forall_mem_singleton.mpr ihfirst
  | restClosed | restClosedNext =>
    rintro _ ⟨⟩
    exact nofun
  | restOpen | restOpenNext => rintro _ ⟨⟩
  | restMore _ _ _ _ _ _ hstmt _ ihstmt ihrest =>
    rw [hstmt.progress.1.room_eq] at ihrest
    intro stmts hstmts
    obtain ⟨rest, hrest, rfl⟩ := Option.map_eq_some_iff.mp hstmts
    exact List.forall_mem_cons.mpr ⟨ihstmt, ihrest rest hrest⟩
  | @functionDef s s₁ s₂ s₃ t tok list c node stmts block _ _ hparams hcolon _ hclose ih =>
    have hroom : s₂.room setup = s.room setup :=
      (hcolon.advances Token.Kind.noConfusion).room_eq.trans hparams.advances.room_eq
    rw [hroom] at ih
    have hkeyword : (branch .functionDef [.leaf .keyword tok]).Holds (s.room setup) := .single _ (nests_leaf rfl tok)
    have hlist : (paramList list s₁.pos).Nests (s.room setup) :=
      nests_paramList (hparams.flat ⟨rfl, holds_of_nil rfl⟩) s₁.pos
    exact hclose.holds (((hkeyword.push hlist).push hcolon.nests).append ih)
  | @ifExpr s s₁ s₂ s₃ t tok _ _ _ _ _ _ _ hcondition hcolon hbody _ ihcondition ihbody ihbranches =>
    have hroom₁ : s₁.room setup = s.room setup := hcondition.progress.1.room_eq
    have hroom₂ := (hcolon.advances Token.Kind.noConfusion).room_eq.trans hroom₁
    rw [hroom₂] at ihbody
    rw [hbody.progress.1.room_eq, hroom₂] at ihbranches
    have hkeyword : (branch .ifExpr [.leaf .keyword tok]).Holds (s.room setup) := .single _ (nests_leaf rfl tok)
    exact ihbranches (((hkeyword.push ihcondition).push hcolon.nests).push (nests_blockNode ihbody s₃.pos))
  | @elsif s s₁ s₂ s₃ t tok _ _ _ _ _ _ _ _ _ _ hcondition hcolon hbody _ ihcondition ihbody ihbranches =>
    have hroom₁ : s₁.room setup = s.room setup := hcondition.progress.1.room_eq
    have hroom₂ := (hcolon.advances Token.Kind.noConfusion).room_eq.trans hroom₁
    rw [hroom₂] at ihbody
    rw [hbody.progress.1.room_eq, hroom₂] at ihbranches
    intro hnode
    have hkeyword : (branch .elsifExpr [.leaf .keyword tok]).Holds (s.room setup) := .single _ (nests_leaf rfl tok)
    have hbranch := ((hkeyword.push ihcondition).push hcolon.nests).push (nests_blockNode ihbody s₃.pos)
    exact ihbranches (hnode.push (Flat.nests ⟨rfl, hbranch⟩))
  | @otherwise s s₂ s₃ t tok _ _ _ _ _ _ _ _ _ hcolon hbody _ ihbody ihbranches =>
    have hroom : s₂.room setup = s.room setup := (hcolon.advances Token.Kind.noConfusion).room_eq
    rw [hroom] at ihbody
    rw [hbody.progress.1.room_eq, hroom] at ihbranches
    intro hnode
    have hkeyword : (branch .elseExpr [.leaf .keyword tok]).Holds (s.room setup) := .single _ (nests_leaf rfl tok)
    have hbranch := (hkeyword.push hcolon.nests).push (nests_blockNode ihbody s₃.pos)
    exact ihbranches (hnode.push (Flat.nests ⟨rfl, hbranch⟩))
  | endIf _ _ _ hclose => exact hclose.holds
  | pipe hleft _ _ _ ihleft ihstages =>
    rw [hleft.progress.1.room_eq] at ihstages
    exact (ihstages ⟨rfl, .single _ ihleft⟩).nests
  | alone _ _ _ ih => exact ih
  | stage _ _ hvalue _ _ _ ihvalue ihrest =>
    rw [hvalue.progress.1.room_eq] at ihrest
    exact fun hnode => ihrest ((hnode.push (nests_leaf rfl _)).push ihvalue)
  | lastStage _ _ _ _ _ ih => exact fun hnode => (hnode.push (nests_leaf rfl _)).push ih
  | operation _ hleft _ ihleft ihops | justOperand _ hleft _ _ ihleft ihops =>
    rw [hleft.progress.1.room_eq] at ihops
    exact ihops ihleft
  | lone _ hleft _ _ ihleft ihops =>
    rw [hleft.progress.1.room_eq] at ihops
    exact nests_loneName _ (ihops ihleft)
  | noOperator => exact fun hleft => hleft
  | @operator s s₁ t tok minPrec left right more _ _ hright _ ihright ihmore =>
    rw [hright.progress.1.room_eq] at ihmore
    intro hleft
    have hflat :
        (branch (operatorNode (precedence tok.kind)) [left, .leaf .operator tok, right]).Flat (s.room setup) := by
      refine ⟨?_, List.forall_mem_cons.mpr ⟨hleft, List.forall_mem_cons.mpr ⟨nests_leaf rfl tok, ?_⟩⟩⟩
      · change (operatorNode _).isLevel none = false
        rw [operatorNode]
        split <;> rfl
      · exact List.forall_mem_singleton.mpr ihright
    exact ihmore hflat.nests
  | @operand s t tok callable node _ hdepth _ ih =>
    -- An operand is read only if there is room for one level more.
    have hroom : s.room setup = s.deepen.room setup + 1 := by
      simp only [Snapshot.room, Snapshot.deepen]
      omega
    rw [hroom]
    exact Holds.nests ih
  | literal | name => exact holds_leaf _ _
  | string _ _ _ ih | word _ _ _ ih => exact ih (holds_of_nil rfl)
  | callee _ _ _ ih => exact ih ⟨rfl, holds_leaf _ _⟩
  | group _ _ _ ih => exact ih.2
  | function _ _ ih | conditional _ _ ih => exact ih
  | dotGet _ _ h => exact h.holds
  | glued | noArgs => exact fun hid => hid.holds
  | endWord => exact fun hnode => hnode
  | withArgs _ _ _ _ ih => exact fun hid => ih (.single _ hid.nests)
  | moreArgs harg _ _ _ iharg ihrest =>
    rw [harg.progress.1.room_eq] at ihrest
    exact fun hnode => ihrest (hnode.push iharg)
  | lastArg _ _ _ ih => exact fun hnode => hnode.push ih
  | positional _ _ ih => exact Flat.nests ⟨rfl, .single _ ih⟩
  | @named s t tok _ _ _ _ _ _ _ ih =>
    have hname : (branch .namedArg [.leaf .argName tok]).Holds (s.room setup) := .single _ (nests_leaf rfl tok)
    exact Flat.nests ⟨rfl, hname.push ih⟩
  | @noValue s tok =>
    have hname : (branch .namedArg [.leaf .argName tok]).Holds (s.room setup) := .single _ (nests_leaf rfl tok)
    exact Flat.nests ⟨rfl, hname.push (nests_faultNode _ _)⟩
  | emptyGroup _ _ hclose => exact ⟨hclose.kind_eq, hclose.holds (holds_of_nil rfl)⟩
  | @fullGroup s s₁ s₂ t opening _ _ _ _ _ _ _ hjunk hclose ih =>
    have hopen : ({ kind := .parenExpr, span := opening } : Node).Holds (s.room setup) := holds_of_nil rfl
    exact ⟨hclose.kind_eq.trans hjunk.kind_eq, hclose.holds (hjunk.holds (hopen.push ih))⟩
  | closeQuote => exact fun hnode => hnode
  | unterminated => exact fun hnode => hnode.push (nests_faultNode _ _)
  | stringText _ _ ih | wordText _ _ ih => exact fun hnode => ih (hnode.push (nests_leaf rfl _))
  | stringPart hpiece _ ihpiece ih | wordPart hpiece _ ihpiece ih =>
    rw [hpiece.progress.1.room_eq] at ih
    exact fun hnode => ih (hnode.push ihpiece)
  | escape => exact nests_leaf rfl _
  | interpolatedName => exact Flat.nests ⟨rfl, List.forall_mem_singleton.mpr (Flat.nests ⟨rfl, holds_of_nil rfl⟩)⟩
  | interpolated _ _ _ ih => exact nests_interpolation ih.1 ih.2 _

end

/-! ## Parses -/

/-- On every path from the root of a tree to a leaf there are at most as many functions, conditionals, strings, words
and parentheses that are not those of an interpolation as the limit says. -/
theorem parse_nests (setup : Setup) (hlimit : 0 ≤ setup.maxDepth) {p : List Node} (hp : (parse setup).tree.Path p) :
    (levels none p : Int) ≤ setup.maxDepth := by
  obtain ⟨stmts, t, h⟩ := parse_outcome setup False fun hfalse => hfalse.elim
  have hstmts : ∀ c ∈ stmts, c.Nests setup.maxDepth.toNat := h.reads.nests
  have hunread : ∀ c ∈ unread setup t, c.Nests setup.maxDepth.toNat := by
    rw [unread]
    split
    · exact List.forall_mem_singleton.mpr (nests_faultNode _ _)
    · exact List.forall_mem_nil _
  have htree : (wholeTree setup stmts t).Flat setup.maxDepth.toNat :=
    ⟨rfl, List.forall_mem_append.mpr ⟨hstmts, hunread⟩⟩
  rw [h.tree_eq] at hp
  have hle := htree.nests p hp
  omega

/-- An interpolation in a string with parentheses in it, as deep as the limit allows and one number too deep. -/
theorem parse_nests_interpolation :
    let setup : Setup := { src := "'$((1))'", maxDepth := 2 }
    0 ≤ setup.maxDepth ∧
      ∃ p, (parse setup).tree.Path p ∧ levels none p = 2 ∧ (levels none p : Int) ≤ setup.maxDepth := by
  intro setup
  have htree : (parse setup).tree =
      { kind := .program, span := ⟨0, 8⟩, children := [{ kind := .string, span := ⟨0, 8⟩, children := [
        { kind := .interpolation, span := ⟨1, 7⟩, children := [{ kind := .parenExpr, span := ⟨2, 7⟩, children := [
          { kind := .parenExpr, span := ⟨3, 6⟩, children := [
            Node.fault "E1009" ⟨4, 5⟩ "1" "maximum nesting depth exceeded"] }] }] }] }] } := by cbv
  have hlimit : 0 ≤ setup.maxDepth := by decide
  obtain ⟨p, hp, hlevels⟩ : ∃ p, (parse setup).tree.Path p ∧ levels none p = 2 := by
    rw [htree]
    exact ⟨_, .step (.head _) (.step (.head _) (.step (.head _) (.step (.head _) (.step (.head _) (.leaf rfl))))), rfl⟩
  exact ⟨hlimit, p, hp, hlevels, parse_nests setup hlimit hp⟩

end Grammar
end Bareword.Tree
