import Bareword.Proofs.Expr.Sound
import Bareword.Proofs.Program.Accesses
import Bareword.Proofs.Tree.Spelling

/-! # Code that holds pipes

The code of a node holds the pipes at and below it. A pipe is only left out within an alternative of a
conditional that another alternative replaces. This module has the nodes that are no pipes and no calls.

* `Node.Replaces`, `Node.Mentions`: the nodes that are left out, and the names that code takes from a tree.
* `Node.Covers`: code that holds the pipes of some nodes.
* `covers_conditional`: the code of a conditional, which leaves out the alternatives that are replaced.
-/

namespace Bareword
set_option autoImplicit false
open Bareword.Tree (Node Kind)
open OfTree (Result)
open Gen (Accounts)

namespace Tree.Node

/-! ## What is left out -/

/-- The alternatives without a condition that another one replaces. -/
def replaced (n : Node) : List Node := (n.ofKind .elseExpr).dropLast

/-- The node lies in an alternative at or below another node that is replaced. -/
def Replaces (n m : Node) : Prop := ∃ c ∈ n.preorder, ∃ part ∈ c.replaced, m ∈ part.preorder

/-- The name that an instruction accesses is spelled below the node. An interpolated name is read. -/
def Mentions (n : Node) (i : Instruction) : Prop :=
  ∃ m ∈ n.preorder, ∃ name ∈ m.children, name.IsName ∧ i.name = name.text ∧
    (m.kind = .interpolation → i = .load name.span name.text)

/-- A node as the grammar makes them without faults. -/
structure Proper (n : Node) : Prop where
  shaped : n.Shaped
  spelled : n.Spelled

variable {n m q c : Node} {cs ds : List Node} {g h : Text → Gen}

theorem Proper.part (hn : n.Proper) (hc : c ∈ n.children) : c.Proper :=
  ⟨hn.shaped.parts c hc, hn.spelled.parts c hc⟩

theorem Proper.of_mem_preorder (hn : n.Proper) (hm : m ∈ n.preorder) : m.Proper :=
  preorder_induction hn (fun _ hm _ hc => hm.part hc) m hm

theorem Proper.pipes_leaf {k : Kind} (hn : n.Proper) (hk : n.kind = k) (hleaf : k.isLeaf = true) : n.pipes = [] := by
  have hne : k ≠ .pipeExpr := by
    rintro rfl
    cases hleaf
  rw [pipes_of_kind hk hne, hn.spelled.leaf (hk ▸ hleaf), List.flatMap_nil]

/-- What is left out of a list without pipes. -/
theorem flatMap_filter {p : Node → Bool} (h : ∀ c ∈ cs, p c = false → c.pipes = []) :
    (cs.filter p).flatMap pipes = cs.flatMap pipes := by
  induction cs with
  | nil => rfl
  | cons c cs ih =>
    obtain ⟨hc, hcs⟩ := List.forall_mem_cons.mp h
    rw [List.filter_cons]
    split
    · rw [List.flatMap_cons, List.flatMap_cons, ih hcs]
    · rename_i hp
      rw [List.flatMap_cons, ih hcs, hc (Bool.eq_false_iff.mpr hp), List.nil_append]

theorem Proper.flatMap_significant (hn : n.Proper) : n.significant.flatMap pipes = n.children.flatMap pipes := by
  refine flatMap_filter fun c hc hp => (hn.part hc).pipes_leaf rfl ?_
  rw [Bool.not_eq_false'] at hp
  cases hk : c.kind <;> rw [hk] at hp <;> first | rfl | cases hp

theorem Proper.pipes_significant {k : Kind} (hn : n.Proper) (hk : n.kind = k) (hne : k ≠ .pipeExpr) :
    n.pipes = n.significant.flatMap pipes := by
  rw [pipes_of_kind hk hne, hn.flatMap_significant]

theorem Proper.flatMap_stages (hn : n.Proper) : n.stages.flatMap pipes = n.children.flatMap pipes := by
  refine flatMap_filter fun c hc hp => ?_
  rw [bne_eq_false_iff_eq] at hp
  exact (hn.part hc).pipes_leaf hp rfl

theorem Replaces.of_mem {x : Node} (h : m.Replaces x) (hm : m ∈ n.preorder) : n.Replaces x := by
  obtain ⟨c, hc, hpart⟩ := h
  exact ⟨c, preorder_subset hm c hc, hpart⟩

theorem Mentions.of_mem {i : Instruction} (h : m.Mentions i) (hm : m ∈ n.preorder) : n.Mentions i := by
  obtain ⟨c, hc, hname⟩ := h
  exact ⟨c, preorder_subset hm c hc, hname⟩

/-- A name below a node that is no interpolation. -/
theorem mentions {i : Instruction} {k : Kind} (hm : m ∈ n.preorder) (hk : m.kind = k) (hne : k ≠ .interpolation)
    (hc : c ∈ m.children) (hname : c.IsName) (hi : i.name = c.text) : n.Mentions i :=
  ⟨m, hm, c, hc, hname, hi, fun h => absurd (hk.symm.trans h) hne⟩

/-! ## Code that holds pipes -/

/-- The code holds the pipes of some nodes below a node, and takes its names from there. -/
def Covers (n : Node) (cs : List Node) (g : Text → Gen) : Prop :=
  Accounts n.Replaces n.Mentions (cs.flatMap pipes) (fun _ => []) g

namespace Covers

theorem append (hg : n.Covers cs g) (hh : n.Covers ds h) : n.Covers (cs ++ ds) fun t => g t ++ h t := by
  have hboth := Accounts.append hg hh
  rwa [← List.flatMap_append] at hboth

theorem congr (hg : n.Covers cs g) (h : cs.flatMap pipes = ds.flatMap pipes) : n.Covers ds g := by
  rw [Covers, h] at hg
  exact hg

theorem nil : n.Covers [] fun _ => .nil := Accounts.nil

theorem plain {i : Text → Instruction} (hi : ∀ t, (i t).isAccess = false) : n.Covers [] fun t => .instr (i t) :=
  Accounts.plain hi

theorem push (span : Span) (value : Literal) : n.Covers [] fun _ => .push span value := Accounts.push span value

theorem snoc {i : Text → Instruction} (hg : n.Covers cs g) (hi : ∀ t, (i t).isAccess = false) :
    n.Covers cs fun t => g t ++ .instr (i t) := by
  have h := hg.append (plain hi)
  rwa [List.append_nil] at h

/-- An access by a name that is spelled below the node. -/
theorem access {i : Instruction} (hi : i.isAccess = true) (hn : n.Mentions i) : n.Covers [] fun _ => .instr i :=
  Accounts.name hi hn

theorem jumpOver (op : Opcode) (hop : Instruction.isAccess { op } = false) (span : Span) (hg : n.Covers cs g) :
    n.Covers cs fun t => .jumpOver op span (g t) := Accounts.jumpOver hop span hg

theorem function (span : Span) (params : List Text) (hg : n.Covers cs g) :
    n.Covers cs fun t => .function span params (g t) := Accounts.function span params hg

theorem leave (hg : n.Covers cs g) (h : ∀ d ∈ ds, ∀ m ∈ d.preorder, n.Replaces m) : n.Covers (cs ++ ds) g := by
  rw [Covers, List.flatMap_append]
  refine Accounts.leave hg fun m hm => ?_
  obtain ⟨d, hd, hm⟩ := List.mem_flatMap.mp hm
  exact h d hd m (List.mem_filter.mp hm).1

theorem perm (hg : n.Covers cs g) (h : cs.Perm ds) : n.Covers ds g := Accounts.perm hg (h.flatMap_right _)

end Covers

/-- What is read of the nodes below a node has code that holds their pipes. -/
def Covered (sub : Node → Result Expr) (n : Node) : Prop :=
  ∀ q ∈ n.preorder, ∀ c ∈ q.children, ∀ e, sub c = .ok e → n.Covers [c] fun _ => e.gen

theorem Covered.child {sub : Node → Result Expr} {e : Expr} (h : n.Covered sub) (hc : c ∈ n.children) (he : sub c = .ok e) :
    n.Covers [c] fun _ => e.gen := h n n.mem_preorder_self c hc e he

end Tree.Node

open Tree.Node

namespace OfTree
variable {sub : Node → Result Expr} {n : Node} {cs : List Node} {e : Expr} {es : List Expr}

/-! ## Lists of expressions -/

theorem covers_parts (h : List.Forall₂ (fun c e => n.Covers [c] fun _ => Expr.gen e) cs es) :
    n.Covers cs fun _ => Expr.genParts es := by
  induction h with
  | nil => exact .nil
  | cons hc _ ih => exact hc.append ih

theorem covers_rest (span : Span) (h : List.Forall₂ (fun c e => n.Covers [c] fun _ => Expr.gen e) cs es) :
    n.Covers cs fun _ => Expr.genRest span es := by
  induction h with
  | nil => exact .nil
  | cons hc _ ih => exact ((Covers.plain fun _ => rfl).append hc).append ih

theorem covers_statements (span : Span) (h : List.Forall₂ (fun c e => n.Covers [c] fun _ => Expr.gen e) cs es) :
    n.Covers cs fun _ => Expr.genStatements span es := by
  cases h with
  | nil => exact .push span .null
  | cons hc hrest => exact hc.append (covers_rest span hrest)

theorem forall₂_of_sub (hsub : n.Covered sub) (hcs : ∀ c ∈ cs, c ∈ n.children) (h : cs.mapM sub = .ok es) :
    List.Forall₂ (fun c e => n.Covers [c] fun _ => Expr.gen e) cs es :=
  forall₂_of_mapM h fun c hc _ he => hsub.child (hcs c hc) he

/-! ## Strings and words -/

theorem covers_fragment {part : Node} (hsub : n.Covered sub) (hn : n.Proper) (hpart : part ∈ n.children)
    (h : fragment sub n part = .ok e) : n.Covers [part] fun _ => e.gen := by
  have hleaf {k : Kind} (hk : part.kind = k) (hleaf : k.isLeaf = true) (value : Literal) :
      n.Covers [part] fun _ => .push n.span value := by
    refine (Covers.push n.span value).congr ?_
    rw [List.flatMap_singleton, (hn.part hpart).pipes_leaf hk hleaf, List.flatMap_nil]
  unfold fragment at h
  split at h
  · rename_i hk
    cases h
    exact hleaf hk rfl _
  · rename_i hk
    cases h
    exact hleaf hk rfl _
  · rename_i hk
    cases h
    exact hleaf hk rfl _
  · rename_i hk
    split at h
    · rename_i inner hchildren
      have hinner := hsub part (within_child hpart).mem inner (hchildren ▸ List.mem_singleton_self inner) e h
      refine hinner.congr ?_
      rw [List.flatMap_singleton, List.flatMap_singleton, part.pipes_of_kind hk (by decide), hchildren,
        List.flatMap_singleton]
    · cases h
  · cases h

theorem covers_fragments (hsub : n.Covered sub) (hn : n.Proper) (h : fragments sub n = .ok e) :
    n.Covers n.children fun _ => e.gen := by
  unfold fragments at h
  split at h
  · -- Fragments alone are joined when they are read, so there is one push for all of them.
    rename_i hall
    cases h
    refine (Covers.push n.span _).congr ?_
    rw [List.flatMap_nil, eq_comm, List.flatMap_eq_nil_iff]
    intro part hpart
    have hk := List.all_eq_true.mp hall part hpart
    rw [isFragment, Bool.or_eq_true, beq_iff_eq, beq_iff_eq] at hk
    rcases hk with hk | hk <;> exact (hn.part hpart).pipes_leaf hk rfl
  · obtain ⟨parts, hparts, h⟩ := bind_eq_ok.mp h
    cases h
    have hforall := forall₂_of_mapM hparts fun part hpart _ he => covers_fragment hsub hn hpart he
    exact (covers_parts hforall).snoc fun _ => rfl

/-! ## Operators and assignments -/

/-- The operands on both sides of an operator hold all pipes. -/
theorem covers_operands {spells : Text → Prop} {left operator right : Node} {g : Text → Gen} (hn : n.Proper)
    (hfits : n.Infix spells) (hoperands : operands n = .ok (left, operator, right)) (h : n.Covers [left, right] g) :
    n.Covers n.children g := by
  obtain ⟨_, _, _, hchildren, -, hoperator, -, -⟩ := hfits
  have hsame := (operands_eq_ok hoperands).symm.trans hchildren
  simp only [List.cons.injEq, and_true] at hsame
  obtain ⟨rfl, rfl, rfl⟩ := hsame
  have hleaf : operator.pipes = [] :=
    (hn.part (by rw [hchildren]; simp)).pipes_leaf hoperator rfl
  refine h.congr ?_
  rw [hchildren]
  simp only [List.flatMap_cons, hleaf, List.nil_append]

/-- Both sides of an operator are compiled, and what is built of them covers the operator. -/
theorem covers_sides {spells : Text → Prop} (hsub : n.Covered sub) (hn : n.Proper) (hfits : n.Infix spells)
    {left operator right : Node} (hoperands : operands n = .ok (left, operator, right)) {build : Expr → Expr → Expr}
    (h : (sub left >>= fun l => sub right >>= fun r => pure (build l r)) = .ok e)
    (hbuild : ∀ l r : Expr, n.Covers [left] (fun _ => l.gen) → n.Covers [right] (fun _ => r.gen) →
      n.Covers [left, right] fun _ => (build l r).gen) :
    n.Covers n.children fun _ => e.gen := by
  obtain ⟨l, hl, h⟩ := bind_eq_ok.mp h
  obtain ⟨r, hr, h⟩ := bind_eq_ok.mp h
  cases h
  have hchildren := operands_eq_ok hoperands
  have hleft := hsub.child (by rw [hchildren]; simp) hl
  have hright := hsub.child (by rw [hchildren]; simp) hr
  exact covers_operands hn hfits hoperands (hbuild l r hleft hright)

theorem covers_binOp {spells : Text → Prop} (hsub : n.Covered sub) (hn : n.Proper) (hfits : n.Infix spells)
    (h : binOp sub n = .ok e) : n.Covers n.children fun _ => e.gen := by
  obtain ⟨⟨left, operator, right⟩, hoperands, h⟩ := bind_eq_ok.mp h
  dsimp only at h
  split at h
  · cases h
  · rename_i op hop
    have haccess : Instruction.isAccess { op, span := n.span } = false := by
      obtain ⟨f, hf⟩ := operation_arithmetic hop
      cases op <;> first | rfl | cases hf
    exact covers_sides hsub hn hfits hoperands h fun l r hleft hright => (hleft.append hright).snoc fun _ => haccess

theorem covers_shortCircuit {left right : Node} {l r : Expr} (span : Span) (stopOn : Bool)
    (hleft : n.Covers [left] fun _ => l.gen) (hright : n.Covers [right] fun _ => r.gen) :
    n.Covers [left, right] fun _ => (Expr.shortCircuit span stopOn l r).gen := by
  have hjump : Instruction.isAccess { op := if stopOn then .jumpIfTrue else .jumpIfFalse } = false := by
    cases stopOn <;> rfl
  have hsecond := (Covers.plain (n := n) (i := fun _ => { op := .pop, span }) fun _ => rfl).append hright
  exact (hleft.snoc fun _ => rfl).append (hsecond.jumpOver _ hjump span)

theorem covers_conditionalOp {spells : Text → Prop} (hsub : n.Covered sub) (hn : n.Proper) (hfits : n.Infix spells)
    (h : conditionalOp sub n = .ok e) : n.Covers n.children fun _ => e.gen := by
  obtain ⟨⟨left, operator, right⟩, hoperands, h⟩ := bind_eq_ok.mp h
  dsimp only at h
  split at h
  · exact covers_sides hsub hn hfits hoperands h fun l r => covers_shortCircuit _ _
  split at h
  · exact covers_sides hsub hn hfits hoperands h fun l r => covers_shortCircuit _ _
  split at h
  · cases h
  · rename_i op hop
    have haccess : Instruction.isAccess { op, span := n.span } = false := by
      obtain ⟨f, hf⟩ := operation_comparison hop
      cases op <;> first | rfl | cases hf
    exact covers_sides hsub hn hfits hoperands h fun l r hleft hright => (hleft.append hright).snoc fun _ => haccess

/-! ## Names -/

theorem covers_dotGet (hn : n.Proper) (hk : n.kind = .dotGet)
    (hfits : ∃ base field, n.children = [base, field] ∧ base.kind = .identifier ∧ field.kind = .identifier)
    (h : dotGet n = .ok e) : n.Covers n.children fun _ => e.gen := by
  obtain ⟨base', field', hchildren, hbase, hfield⟩ := hfits
  obtain ⟨base, field, hfirst, -, -, rfl⟩ := dotGet_eq_ok h
  have hin := mem_of_child? hfirst
  have hmentions : n.Mentions (.load n.span base.text) := by
    refine mentions n.mem_preorder_self hk (by decide) hin (.inl ?_) rfl
    rw [hchildren, List.mem_pair] at hin
    rcases hin with rfl | rfl <;> assumption
  refine ((Covers.access (i := .load n.span base.text) rfl hmentions).snoc fun _ => rfl).congr ?_
  rw [List.flatMap_nil, eq_comm, List.flatMap_eq_nil_iff]
  intro c hc
  have hproper := hn.part hc
  rw [hchildren, List.mem_pair] at hc
  rcases hc with rfl | rfl
  · exact hproper.pipes_leaf hbase rfl
  · exact hproper.pipes_leaf hfield rfl

theorem covers_assignment (hsub : n.Covered sub) (hn : n.Proper) (hk : n.kind = .assign)
    (hfits : ∃ name operator value, n.children = [name, operator, value] ∧ name.kind = .assignable ∧
      operator.kind = .operator ∧ value.kind.isStatement = true)
    (h : assignment sub n = .ok e) : n.Covers n.children fun _ => e.gen := by
  obtain ⟨name', operator, value', hchildren, hname', hoperator, -⟩ := hfits
  obtain ⟨name, value, v, hname, hvalue, hv, rfl⟩ := assignment_eq_ok h
  obtain ⟨hin, htarget⟩ := mem_of_first? hname
  obtain rfl : value' = value := by
    rw [child?, hchildren] at hvalue
    exact Option.some.inj hvalue
  have hmentions : n.Mentions { op := .store, name := name.text, span := n.span } :=
    mentions n.mem_preorder_self hk (by decide) hin (.inr htarget) rfl
  have hcovers := (hsub.child (mem_of_child? hvalue) hv).append (Covers.access rfl hmentions)
  have hnames : name'.pipes = [] := (hn.part (by rw [hchildren]; simp)).pipes_leaf hname' rfl
  have hoperators : operator.pipes = [] := (hn.part (by rw [hchildren]; simp)).pipes_leaf hoperator rfl
  refine hcovers.congr ?_
  rw [hchildren]
  simp only [List.append_nil, List.flatMap_cons, hnames, hoperators, List.nil_append]

/-- The callee of a call is a name. -/
theorem mentions_callee {call : Node} {k : Kind} {name : Text} (hin : call ∈ n.preorder) (hk : call.kind = k)
    (hne : k ≠ .interpolation) (h : callee call = .ok name) (i : Instruction) (hi : i.name = name) : n.Mentions i := by
  obtain ⟨c, hc, hkind, rfl⟩ := callee_eq_ok h
  exact mentions hin hk hne (mem_of_child? hc) (.inl hkind) hi

theorem covers_callOrIdentifier (hn : n.Proper) (hk : n.kind = .callOrIdentifier)
    (hfits : ∃ name, n.children = [name] ∧ name.kind = .identifier) {name : Text} (h : callee n = .ok name) :
    n.Covers n.children fun _ => (Expr.bare n.span name).gen := by
  have hmentions := mentions_callee n.mem_preorder_self hk (by decide) h { op := .tryCall, name, span := n.span } rfl
  refine (Covers.access rfl hmentions).congr ?_
  obtain ⟨c, hchildren, hkind⟩ := hfits
  rw [hchildren, List.flatMap_singleton, (hn.part (by rw [hchildren]; simp)).pipes_leaf hkind rfl]
  rfl

theorem covers_paren (hsub : n.Covered sub) (h : paren sub n = .ok e) : n.Covers n.children fun _ => e.gen := by
  unfold paren at h
  split at h
  · rename_i hchildren
    cases h
    rw [hchildren]
    exact .push n.span .null
  · rename_i inner hchildren
    rw [hchildren]
    exact hsub.child (by rw [hchildren]; simp) h
  · cases h

/-! ## Functions and blocks -/

theorem covers_functionOf (hsub : n.Covered sub) (hn : n.Proper)
    (hfits : ∃ params body, n.significant = params :: body ∧ params.kind = .params ∧ ∀ c ∈ body, c.kind.isStatement = true)
    (h : functionOf sub n = .ok e) : n.Covers n.children fun _ => e.gen := by
  obtain ⟨params, body, names, es, hsignificant, -, hes, rfl⟩ := functionOf_eq_ok h
  have hmem : ∀ c ∈ params :: body, c ∈ n.children := fun c hc => mem_of_significant (hsignificant ▸ hc)
  obtain ⟨params', body', hsignificant', hk, -⟩ := hfits
  obtain ⟨rfl, rfl⟩ := List.cons.inj (hsignificant.symm.trans hsignificant')
  have hbody := covers_statements n.span (forall₂_of_sub hsub (fun c hc => hmem c (List.mem_cons_of_mem _ hc)) hes)
  have hcode : (Expr.function n.span names es).gen = .function n.span names (Expr.genStatements n.span es) := by
    cases es <;> rfl
  rw [hcode]
  refine (hbody.function n.span names).congr ?_
  -- Parameters are names and hold no pipes.
  have hparams : params.pipes = [] := by
    have hproper := hn.part (hmem params List.mem_cons_self)
    have hnames := hproper.shaped.fits
    rw [Fits, hk] at hnames
    rw [params.pipes_of_kind hk (by decide), List.flatMap_eq_nil_iff]
    exact fun c hc => (hproper.part hc).pipes_leaf (hnames c hc) rfl
  rw [← hn.flatMap_significant, hsignificant, List.flatMap_cons, hparams, List.nil_append]

theorem covers_block (hsub : n.Covered sub) (h : n.children.mapM sub = .ok es) :
    n.Covers n.children fun _ => (Expr.block n.span es).gen := by
  have hcode : (Expr.block n.span es).gen = Expr.genStatements n.span es := by
    cases es <;> rfl
  rw [hcode]
  exact covers_statements n.span (forall₂_of_sub hsub (fun _ hc => hc) h)

/-! ## Conditionals -/

theorem covers_branch {condition block : Node} {b : Branch} {bs : List Branch} (span : Span)
    (hcondition : ∀ c, sub condition = .ok c → n.Covers [condition] fun _ => c.gen)
    (hblock : ∀ c, sub block = .ok c → n.Covers [block] fun _ => c.gen) (h : branch sub condition block = .ok b)
    (hrest : n.Covers cs fun label => Expr.genBranches span label bs) :
    n.Covers ([condition, block] ++ cs) fun label => Expr.genBranches span label (b :: bs) := by
  obtain ⟨c, hc, h⟩ := bind_eq_ok.mp h
  obtain ⟨body, hbody, h⟩ := bind_eq_ok.mp h
  cases h
  have hbranch := (hblock body hbody).snoc (i := fun label => { op := .jump, mode := .label, label, span }) fun _ => rfl
  exact ((hcondition c hc).append (hbranch.jumpOver .jumpIfFalse rfl span)).append hrest

/-- Of the further parts of a conditional, those with a condition hold pipes, and the last one without a condition
is the one that counts. -/
theorem covers_branches {parts : List Node} {bs : List Branch} {otherwise last : Option Node} (span : Span)
    (hsub : n.Covered sub) (hn : n.Proper) (hparts : ∀ part ∈ parts, part ∈ n.children)
    (h : branches sub parts otherwise = .ok (bs, last)) :
    n.Covers (parts.filter fun part => !part.kind == .elseExpr) (fun label => Expr.genBranches span label bs) ∧
      last = (parts.filter (·.kind == .elseExpr)).getLast?.elim otherwise (·.first? .thenBlock) := by
  induction parts generalizing otherwise bs with
  | nil =>
    cases h
    exact ⟨.nil, rfl⟩
  | cons part parts ih =>
    obtain ⟨hpart, hparts⟩ := List.forall_mem_cons.mp hparts
    unfold branches at h
    split at h
    · rename_i hk
      split at h
      · rename_i condition block hsignificant
        obtain ⟨b, hb, h⟩ := bind_eq_ok.mp h
        obtain ⟨⟨rest, last⟩, hrest, h⟩ := bind_eq_ok.mp h
        cases h
        obtain ⟨hcovers, hlast⟩ := ih hparts hrest
        rw [List.filter_cons_of_pos (by rw [hk]; rfl), List.filter_cons_of_neg (by rw [hk]; decide)]
        have hmem : ∀ c ∈ [condition, block], c ∈ part.children := fun c hc => mem_of_significant (hsignificant ▸ hc)
        have hin := (within_child hpart).mem
        refine ⟨(covers_branch span (hsub part hin condition (hmem _ (by simp)))
          (hsub part hin block (hmem _ (by simp))) hb hcovers).congr ?_, hlast⟩
        rw [List.flatMap_append, @List.flatMap_cons _ _ part, (hn.part hpart).pipes_significant hk (by decide),
          hsignificant]
      · cases h
    · rename_i hk
      obtain ⟨hcovers, hlast⟩ := ih hparts h
      rw [List.filter_cons_of_neg (by rw [hk]; decide), List.filter_cons_of_pos (by rw [hk]; rfl),
        List.getLast?_cons]
      refine ⟨hcovers, hlast.trans ?_⟩
      cases (parts.filter (·.kind == .elseExpr)).getLast? <;> rfl
    · cases h

/-- The alternatives of a conditional are among its further parts. -/
theorem alternatives_eq {condition block : Node} {rest : List Node} (hn : n.Proper) (hk : n.kind = .ifExpr)
    (hsignificant : n.significant = condition :: block :: rest) :
    n.ofKind .elseExpr = rest.filter (·.kind == .elseExpr) := by
  have hfits := hn.shaped.fits
  rw [Fits, hk] at hfits
  obtain ⟨condition', block', rest', hsignificant', hcondition, hblock, -⟩ := hfits
  have hsame := hsignificant.symm.trans hsignificant'
  simp only [List.cons.injEq] at hsame
  obtain ⟨rfl, rfl, rfl⟩ := hsame
  have hfilter : n.significant.filter (·.kind == .elseExpr) = n.ofKind .elseExpr := by
    rw [significant, List.filter_filter, ofKind]
    refine List.filter_congr fun c _ => ?_
    cases c.kind <;> rfl
  have hne : condition.kind ≠ .elseExpr := by
    intro hkind
    rw [hkind] at hcondition
    cases hcondition
  rw [← hfilter, hsignificant, List.filter_cons_of_neg (by simpa using hne),
    List.filter_cons_of_neg (by rw [hblock]; decide)]

/-- The parts of a conditional, apart from the alternatives that are replaced and followed by those. -/
theorem perm_parts (condition block : Node) (rest : List Node) :
    let alternatives := rest.filter (·.kind == .elseExpr)
    ([condition, block] ++ (rest.filter fun part => !part.kind == .elseExpr) ++ alternatives.getLast?.toList ++
      alternatives.dropLast).Perm (condition :: block :: rest) := by
  intro alternatives
  have hlast : (alternatives.getLast?.toList ++ alternatives.dropLast).Perm alternatives := by
    cases h : alternatives.getLast? with
    | none => rw [List.getLast?_eq_none_iff.mp h]; exact .nil
    | some part => exact List.perm_append_comm.trans (.of_eq (List.dropLast_append_getLast? part h))
  rw [List.append_assoc, List.append_assoc]
  refine List.Perm.append_left [condition, block] ((hlast.append_left _).trans ?_)
  exact List.perm_append_comm.trans (List.filter_append_perm _ rest)

/-- The block of the last alternative without a condition, or nothing. -/
theorem covers_otherwise {alternatives : List Node} {final : Option Node} {last : Expr} (hsub : n.Covered sub)
    (hn : n.Proper) (halternatives : ∀ part ∈ alternatives, part ∈ n.children ∧ part.kind = .elseExpr)
    (hlast : match final, last with
      | none, last => last = .literal n.span .null
      | some block, last => sub block = .ok last)
    (hfinal : final = alternatives.getLast?.elim none (·.first? .thenBlock)) :
    n.Covers alternatives.getLast?.toList fun _ => last.gen := by
  cases hpart : alternatives.getLast? with
  | none =>
    rw [hpart, Option.elim_none] at hfinal
    subst hfinal
    cases hlast
    exact .push n.span .null
  | some part =>
    obtain ⟨hin, hk⟩ := halternatives part (List.mem_of_getLast? hpart)
    have hproper := hn.part hin
    obtain ⟨block, hsignificant, hblock⟩ : ∃ block, part.significant = [block] ∧ block.kind = .thenBlock := by
      have hfits := hproper.shaped.fits
      rwa [Fits, hk] at hfits
    have hsome : (part.first? .thenBlock).isSome = true := by
      refine List.find?_isSome.mpr ⟨block, mem_of_significant (hsignificant ▸ List.mem_singleton_self block), ?_⟩
      exact beq_iff_eq.mpr hblock
    obtain ⟨found, hfound⟩ := Option.isSome_iff_exists.mp hsome
    rw [hpart, Option.elim_some, hfound] at hfinal
    subst hfinal
    obtain ⟨hfoundIn, hfoundKind⟩ := mem_of_first? hfound
    obtain rfl : found = block := by
      have hmem : found ∈ part.significant := List.mem_filter.mpr ⟨hfoundIn, by rw [hfoundKind]; rfl⟩
      exact List.mem_singleton.mp (hsignificant ▸ hmem)
    refine (hsub part (within_child hin).mem found hfoundIn last hlast).congr ?_
    rw [Option.toList_some, List.flatMap_singleton, List.flatMap_singleton,
      hproper.pipes_significant hk (by decide), hsignificant, List.flatMap_singleton]

theorem covers_conditional (hsub : n.Covered sub) (hn : n.Proper) (hk : n.kind = .ifExpr)
    (h : conditional sub n = .ok e) : n.Covers n.children fun _ => e.gen := by
  obtain ⟨condition, block, rest, b, bs, final, last, hsignificant, hb, hbs, hlast, rfl⟩ := conditional_eq_ok h
  have hmem : ∀ c ∈ condition :: block :: rest, c ∈ n.children := fun c hc => mem_of_significant (hsignificant ▸ hc)
  obtain ⟨hcondition, hmem⟩ := List.forall_mem_cons.mp hmem
  obtain ⟨hblock, hrest⟩ := List.forall_mem_cons.mp hmem
  obtain ⟨hbranches, hfinal⟩ := covers_branches n.span hsub hn hrest hbs
  let alternatives := rest.filter (·.kind == .elseExpr)
  have halternatives : ∀ part ∈ alternatives, part ∈ n.children ∧ part.kind = .elseExpr := by
    intro part hpart
    obtain ⟨hpart, hkind⟩ := List.mem_filter.mp hpart
    exact ⟨hrest part hpart, eq_of_beq hkind⟩
  have hreplaced : n.ofKind .elseExpr = alternatives := alternatives_eq hn hk hsignificant
  have hfirst := covers_branch n.span (fun _ => hsub.child hcondition) (fun _ => hsub.child hblock) hb hbranches
  have hcode := hfirst.append (covers_otherwise hsub hn halternatives hlast hfinal)
  have hcovers : n.Covers _ fun _ => (Expr.choose n.span (b :: bs) last).gen :=
    Accounts.withEnd (hcode.snoc (i := fun label => { op := .label, name := label, span := n.span }) fun _ => rfl)
  -- The alternatives before the last one are read by nobody, whatever stands in them.
  have hleft : ∀ part ∈ alternatives.dropLast, ∀ m ∈ part.preorder, n.Replaces m := fun part hpart m hm =>
    ⟨n, n.mem_preorder_self, part, by rwa [replaced, hreplaced], hm⟩
  refine ((hcovers.leave hleft).perm (perm_parts condition block rest)).congr ?_
  rw [← hsignificant, hn.flatMap_significant]

end OfTree
end Bareword
