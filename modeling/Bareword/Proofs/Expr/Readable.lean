import Bareword.Program.OfTree
import Bareword.Proofs.Expr.Sound
import Bareword.Proofs.Tree.Shapes

/-! # Trees that stand for expressions

A node of the shape that the grammar gives it stands for an expression, unless a literal in it has no
value or something other than a call stands in a pipe.

* `OfTree.Obstacle.Expected`: the obstacles that a tree of the right shape may meet.
* `Expr.readable_of_shaped`: a node of the right shape meets no others.
* `Tree.Grammar.parse_compiles`: what becomes of a source that is read without faults.
-/

namespace Bareword
set_option autoImplicit false
open Bareword.Tree (Node Kind)
open OfTree (Obstacle Result)

namespace OfTree

/-! ## Obstacles -/

/-- A literal without a value, or a stage of a pipe that is no call. -/
def Obstacle.Expected : Obstacle → Prop
  | .fault code _ _ _ => code = .badRegex ∨ code = .badNumber ∨ code = .badPipe
  | .emptyStage => False

/-- Something is read, or what stands in its way is to be expected. -/
def Readable {α : Type} (r : Result α) : Prop := ∀ o, r = .error o → o.Expected

theorem Readable.ok {α : Type} (a : α) : Readable (.ok a : Result α) := nofun

theorem Readable.error {α : Type} {o : Obstacle} (h : o.Expected) : Readable (.error o : Result α) := by
  rintro _ ⟨⟩
  exact h

theorem Readable.bind {α β : Type} {x : Result α} {f : α → Result β} (hx : Readable x)
    (hf : ∀ a, Readable (f a)) : Readable (x >>= f) := by
  cases x with
  | error o =>
    rintro _ ⟨⟩
    exact hx o rfl
  | ok a => exact hf a

theorem Readable.mapM {α β : Type} {f : α → Result β} {as : List α} (h : ∀ a ∈ as, Readable (f a)) :
    Readable (as.mapM f) := by
  induction as with
  | nil => exact .ok []
  | cons a as ih =>
    rw [List.mapM_cons]
    obtain ⟨ha, has⟩ := List.forall_mem_cons.mp h
    exact ha.bind fun b => (ih has).bind fun bs => .ok (b :: bs)

/-! ## Nodes -/

/-- The kinds of nodes that stand for expressions. -/
def Stands (n : Node) : Prop := n.kind.isStatement = true ∨ n.kind = .thenBlock

section
variable {sub : Node → Result Expr} {n : Node}

/-- Everything of the right shape below a node is read. -/
def ReadsBelow (sub : Node → Result Expr) (n : Node) : Prop :=
  ∀ m : Node, m.Within n → m.Shaped → Stands m → Readable (sub m)

theorem ReadsBelow.child {c : Node} (h : ReadsBelow sub n) (hc : c ∈ n.children) (hn : n.Shaped) (hk : Stands c) :
    Readable (sub c) :=
  h c (Node.within_child hc) (hn.parts c hc) hk

theorem ReadsBelow.mono {m : Node} (h : ReadsBelow sub n) (hm : m ∈ n.children) : ReadsBelow sub m :=
  fun l hl => h l (hl.trans (Node.within_child hm))

theorem readable_number : Readable (number n) := by
  rw [number]
  split
  · exact .ok _
  · exact .error (.inr (.inl rfl))
  · exact .error (.inr (.inl rfl))

theorem readable_regex (h : n.ClosesRegex) : Readable (regex n) := by
  obtain ⟨i, hi⟩ := Option.isSome_iff_exists.mp h
  rw [regex]
  dsimp only
  rw [hi]
  dsimp only
  split
  · exact .error (.inl rfl)
  · split
    · exact .error (.inl rfl)
    · exact .ok _

theorem readable_fragment {part : Node} (hb : ReadsBelow sub n) (hn : n.Shaped) (hpart : part ∈ n.children)
    (hk : part.kind.isPiece = true) : Readable (fragment sub n part) := by
  rw [fragment]
  have hfits := (hn.parts part hpart).fits
  cases hkind : part.kind with
  | stringFragment | wordFragment | escape => exact .ok _
  | interpolation =>
    rw [Node.Fits, hkind] at hfits
    obtain ⟨c, hchildren, hc⟩ := hfits
    dsimp only
    rw [hchildren]
    have hmem : c ∈ part.children := hchildren ▸ List.mem_singleton_self c
    exact (hb.mono hpart).child hmem (hn.parts part hpart) (.inl hc)
  | _ =>
    rw [hkind] at hk
    cases hk

theorem readable_fragments (hb : ReadsBelow sub n) (hn : n.Shaped)
    (h : ∀ c ∈ n.children, c.kind.isPiece = true) : Readable (fragments sub n) := by
  rw [fragments]
  split
  · exact .ok _
  · exact (Readable.mapM fun part hpart => readable_fragment hb hn hpart (h part hpart)).bind fun _ => .ok _

theorem readable_infix {spells : Text → Prop} (hb : ReadsBelow sub n) (hn : n.Shaped) (h : n.Infix spells) :
    ∃ left operator right, operands n = .ok (left, operator, right) ∧ spells operator.text ∧
      Readable (sub left) ∧ Readable (sub right) := by
  obtain ⟨left, operator, right, hchildren, hleft, hoperator, hspells, hright⟩ := h
  refine ⟨left, operator, right, ?_, hspells, ?_, ?_⟩
  · rw [operands, hchildren]
    exact if_pos hoperator
  · exact hb.child (by simp [hchildren]) hn (.inl hleft)
  · exact hb.child (by simp [hchildren]) hn (.inl hright)

theorem readable_binOp (hb : ReadsBelow sub n) (hn : n.Shaped)
    (h : n.Infix fun t => (arithmetic? t).isSome = true) : Readable (binOp sub n) := by
  obtain ⟨left, operator, right, hoperands, hspells, hleft, hright⟩ := readable_infix hb hn h
  obtain ⟨op, hop⟩ := Option.isSome_iff_exists.mp hspells
  have hok (f : Node × Node × Node → Result Expr) :
      (Except.ok (left, operator, right) >>= f) = f (left, operator, right) := rfl
  rw [binOp, hoperands, hok]
  dsimp only
  rw [hop]
  exact hleft.bind fun _ => hright.bind fun _ => .ok _

theorem readable_conditionalOp (hb : ReadsBelow sub n) (hn : n.Shaped)
    (h : n.Infix fun t => t = "and" ∨ t = "or" ∨ (comparison? t).isSome = true) :
    Readable (conditionalOp sub n) := by
  obtain ⟨left, operator, right, hoperands, hspells, hleft, hright⟩ := readable_infix hb hn h
  rw [conditionalOp, hoperands]
  change Readable (if operator.text = "and" then _ else if operator.text = "or" then _ else _)
  have hboth (e : Expr → Expr → Expr) :
      Readable (sub left >>= fun l => sub right >>= fun r => (.ok (e l r) : Result Expr)) :=
    hleft.bind fun _ => hright.bind fun _ => .ok _
  split
  · exact hboth _
  · split
    · exact hboth _
    · rename_i hand hor
      obtain ⟨op, hop⟩ := Option.isSome_iff_exists.mp ((hspells.resolve_left hand).resolve_left hor)
      rw [hop]
      exact hboth _

theorem readable_dotGet (h : ∃ base field, n.children = [base, field] ∧ base.kind = .identifier ∧ field.kind = .identifier) :
    Readable (dotGet n) := by
  obtain ⟨base, field, hchildren, hbase, hfield⟩ := h
  have h₀ : n.child? 0 = some base := by
    rw [Node.child?, hchildren]
    rfl
  have h₁ : n.child? 1 = some field := by
    rw [Node.child?, hchildren]
    rfl
  rw [dotGet, h₀, h₁]
  dsimp only
  rw [if_pos ⟨hbase, hfield⟩]
  exact .ok _

theorem readable_assignment (hb : ReadsBelow sub n) (hn : n.Shaped)
    (h : ∃ name operator value, n.children = [name, operator, value] ∧ name.kind = .assignable ∧
      operator.kind = .operator ∧ value.kind.isStatement = true) : Readable (assignment sub n) := by
  obtain ⟨name, operator, value, hchildren, hname, -, hvalue⟩ := h
  have hfirst : n.first? .assignable = some name := by
    simp [Node.first?, hchildren, hname]
  have hthird : n.child? 2 = some value := by
    rw [Node.child?, hchildren]
    rfl
  rw [assignment, hfirst, hthird]
  exact (hb.child (by simp [hchildren]) hn (.inl hvalue)).bind fun _ => .ok _

theorem readable_paren (hb : ReadsBelow sub n) (hn : n.Shaped)
    (h : n.children = [] ∨ ∃ c, n.children = [c] ∧ c.kind.isStatement = true) : Readable (paren sub n) := by
  rw [paren]
  rcases h with hnone | ⟨c, hchildren, hc⟩
  · rw [hnone]
    exact .ok _
  · rw [hchildren]
    exact hb.child (by simp [hchildren]) hn (.inl hc)

/-! ## Conditionals and functions -/

theorem readable_branch {condition block : Node} (hcondition : Readable (sub condition)) (hblock : Readable (sub block)) :
    Readable (branch sub condition block) :=
  hcondition.bind fun _ => hblock.bind fun _ => .ok _

/-- The further branches of a conditional are read, and the last alternative is one of their blocks. -/
theorem readable_branches (parts : List Node) (otherwise : Option Node) (hb : ReadsBelow sub n) (hn : n.Shaped)
    (hparts : ∀ c ∈ parts, c ∈ n.children ∧ c.kind.isBranch = true)
    (hotherwise : ∀ block, otherwise = some block → Readable (sub block)) :
    Readable (branches sub parts otherwise) ∧
      ∀ bs last, branches sub parts otherwise = .ok (bs, last) → ∀ block, last = some block → Readable (sub block) := by
  induction parts generalizing otherwise with
  | nil =>
    refine ⟨.ok _, ?_⟩
    rintro bs last ⟨⟩
    exact hotherwise
  | cons part parts ih =>
    obtain ⟨⟨hpart, hk⟩, hrest⟩ := List.forall_mem_cons.mp hparts
    have hshaped := hn.parts part hpart
    have hfits := hshaped.fits
    have hbelow := hb.mono hpart
    rw [branches]
    cases hkind : part.kind with
    | elsifExpr =>
      rw [Node.Fits, hkind] at hfits
      obtain ⟨condition, block, hsignificant, hcondition, hblock⟩ := hfits
      have hmem : ∀ c ∈ [condition, block], c ∈ part.children := fun c hc =>
        Node.mem_of_significant (hsignificant ▸ hc)
      obtain ⟨ihread, ihlast⟩ := ih otherwise hrest hotherwise
      dsimp only
      rw [hsignificant]
      dsimp only
      have hfirst : Readable (branch sub condition block) := readable_branch
        (hbelow.child (hmem condition (by simp)) hshaped (.inl hcondition))
        (hbelow.child (hmem block (by simp)) hshaped (.inr hblock))
      refine ⟨hfirst.bind fun b => ihread.bind fun _ => .ok _, fun bs last hok => ?_⟩
      obtain ⟨b, -, hok⟩ := bind_eq_ok.mp hok
      obtain ⟨⟨bs', last'⟩, hok', hlast⟩ := bind_eq_ok.mp hok
      cases hlast
      exact ihlast bs' last' hok'
    | elseExpr =>
      refine ih _ hrest fun block hblock => ?_
      obtain ⟨hmem, hthen⟩ := Node.mem_of_first? hblock
      exact hbelow.child hmem hshaped (.inr hthen)
    | _ =>
      rw [hkind] at hk
      cases hk

theorem readable_conditional (hb : ReadsBelow sub n) (hn : n.Shaped)
    (h : ∃ condition block rest, n.significant = condition :: block :: rest ∧ condition.kind.isStatement = true ∧
      block.kind = .thenBlock ∧ ∀ c ∈ rest, c.kind.isBranch = true) : Readable (conditional sub n) := by
  obtain ⟨condition, block, rest, hsignificant, hcondition, hblock, hrest⟩ := h
  have hmem : ∀ c ∈ condition :: block :: rest, c ∈ n.children := fun c hc =>
    Node.mem_of_significant (hsignificant ▸ hc)
  have hfirst : Readable (branch sub condition block) := readable_branch
    (hb.child (hmem condition (by simp)) hn (.inl hcondition)) (hb.child (hmem block (by simp)) hn (.inr hblock))
  obtain ⟨hbranches, hlast⟩ := readable_branches rest none hb hn
    (fun c hc => ⟨hmem c (by simp [hc]), hrest c hc⟩) nofun
  rw [conditional, hsignificant]
  dsimp only
  rw [if_pos hblock]
  refine hfirst.bind fun b => ?_
  cases hparts : branches sub rest none with
  | error o =>
    rintro _ ⟨⟩
    exact hbranches o hparts
  | ok found =>
    obtain ⟨bs, last⟩ := found
    cases last with
    | none => exact .ok _
    | some block => exact (hlast bs (some block) hparts block rfl).bind fun _ => .ok _

theorem readable_functionOf (hb : ReadsBelow sub n) (hn : n.Shaped)
    (h : ∃ params body, n.significant = params :: body ∧ params.kind = .params ∧
      ∀ c ∈ body, c.kind.isStatement = true) : Readable (functionOf sub n) := by
  obtain ⟨params, body, hsignificant, hparams, hbody⟩ := h
  have hmem : ∀ c ∈ params :: body, c ∈ n.children := fun c hc => Node.mem_of_significant (hsignificant ▸ hc)
  have hnames := (hn.parts params (hmem params (by simp))).fits
  rw [Node.Fits, hparams] at hnames
  rw [functionOf, hsignificant]
  dsimp only
  rw [if_pos hparams]
  refine (Readable.mapM fun p hp => ?_).bind fun _ => (Readable.mapM fun c hc => ?_).bind fun _ => .ok _
  · rw [param, if_pos (hnames p hp)]
    exact .ok _
  · exact hb.child (hmem c (by simp [hc])) hn (.inl (hbody c hc))

/-! ## Calls and pipes -/

theorem readable_callee {name : Node} {args : List Node} (hchildren : n.children = name :: args)
    (hname : name.kind = .identifier) : callee n = .ok name.text := by
  have hfirst : n.child? 0 = some name := by
    rw [Node.child?, hchildren]
    rfl
  rw [callee, hfirst]
  exact if_pos hname

theorem argument_value {arg : Node} (hshaped : arg.Shaped) (hk : arg.kind.isArg = true) :
    ∃ value, argValue? arg = some value ∧ value ∈ arg.children ∧ value.kind.isStatement = true := by
  have hfits := hshaped.fits
  rw [argValue?]
  cases hkind : arg.kind with
  | positionalArg =>
    rw [Node.Fits, hkind] at hfits
    obtain ⟨value, hchildren, hvalue⟩ := hfits
    refine ⟨value, ?_, by simp [hchildren], hvalue⟩
    rw [if_neg Kind.noConfusion, Node.child?, hchildren]
    rfl
  | namedArg =>
    rw [Node.Fits, hkind] at hfits
    obtain ⟨name, value, hchildren, -, hvalue⟩ := hfits
    refine ⟨value, ?_, by simp [hchildren], hvalue⟩
    rw [if_pos rfl, Node.child?, hchildren]
    rfl
  | _ =>
    rw [hkind] at hk
    cases hk

theorem readable_argument {arg : Node} (around : Node) (isStage : Bool) (hb : ReadsBelow sub n) (hn : n.Shaped)
    (harg : arg ∈ n.children) (hk : arg.kind.isArg = true) : Readable (argument sub around isStage arg) := by
  have hshaped := hn.parts arg harg
  obtain ⟨value, hfound, hmem, hvalue⟩ := argument_value hshaped hk
  rw [argument, hfound]
  dsimp only
  split
  · exact .ok _
  · exact ((hb.mono harg).child hmem hshaped (.inl hvalue)).bind fun _ => .ok _

theorem readable_namedArgument {arg : Node} (around : Node) (isStage : Bool) (hb : ReadsBelow sub n) (hn : n.Shaped)
    (harg : arg ∈ n.children) (hk : arg.kind = .namedArg) : Readable (namedArgument sub around isStage arg) := by
  have hfits := (hn.parts arg harg).fits
  rw [Node.Fits, hk] at hfits
  obtain ⟨name, value, hchildren, hname, -⟩ := hfits
  have hfirst : arg.first? .argName = some name := by
    simp [Node.first?, hchildren, hname]
  rw [namedArgument, hfirst]
  have hkind : arg.kind.isArg = true := by rw [hk]; rfl
  exact (readable_argument around isStage hb hn harg hkind).bind fun _ => .ok _

theorem readable_arguments {args : List Node} (around : Node) (isStage : Bool) (call : Node) (name : Text)
    (hb : ReadsBelow sub n) (hn : n.Shaped) (hargs : ∀ a ∈ args, a ∈ n.children ∧ a.kind.isArg = true) :
    Readable (arguments sub around isStage call name args) := by
  have hnone : args.find? (fun a => a.kind != .positionalArg && a.kind != .namedArg) = none := by
    refine List.find?_eq_none.mpr fun a ha => ?_
    have hk := (hargs a ha).2
    cases hkind : a.kind <;> rw [hkind] at hk <;> first | decide | cases hk
  rw [arguments, hnone]
  refine (Readable.mapM fun a ha => ?_).bind fun _ => (Readable.mapM fun a ha => ?_).bind fun _ => .ok _
  · obtain ⟨hmem, hk⟩ := hargs a (List.mem_of_mem_filter ha)
    exact readable_argument around isStage hb hn hmem hk
  · obtain ⟨ha, hk⟩ := List.mem_filter.mp ha
    exact readable_namedArgument around isStage hb hn (hargs a ha).1 (eq_of_beq hk)

theorem readable_callOf (hb : ReadsBelow sub n) (hn : n.Shaped)
    (h : ∃ name args, n.children = name :: args ∧ name.kind = .identifier ∧ ∀ c ∈ args, c.kind.isArg = true) :
    Readable (callOf sub n) := by
  obtain ⟨name, args, hchildren, hname, hargs⟩ := h
  rw [callOf, readable_callee hchildren hname]
  change Readable (arguments sub n false n name.text (n.children.drop 1) >>= _)
  refine (readable_arguments n false n name.text hb hn ?_).bind fun _ => .ok _
  rw [hchildren]
  exact fun a ha => ⟨List.mem_cons_of_mem _ ha, hargs a ha⟩

/-- What is no call may not stand in a pipe, and that is reported. -/
theorem readable_stage {stage : Node} (pipe : Node) (hb : ReadsBelow sub n) (hn : n.Shaped)
    (hstage : stage ∈ n.children) : Readable (OfTree.stage sub pipe stage) := by
  have hshaped := hn.parts stage hstage
  have hfits := hshaped.fits
  rw [OfTree.stage]
  split
  · rename_i hkind
    rw [Node.Fits, hkind] at hfits
    obtain ⟨name, args, hchildren, hname, hargs⟩ := hfits
    have hsome : stage.children.isEmpty = false := by
      rw [hchildren]
      rfl
    rw [hsome, readable_callee hchildren hname]
    refine readable_arguments pipe true stage name.text (hb.mono hstage) hshaped ?_
    rw [hchildren]
    exact fun a ha => ⟨List.mem_cons_of_mem _ ha, hargs a ha⟩
  · rename_i hkind
    rw [Node.Fits, hkind] at hfits
    obtain ⟨name, hchildren, hname⟩ := hfits
    rw [readable_callee hchildren hname]
    change Readable (arguments sub pipe true stage name.text [])
    exact readable_arguments pipe true stage name.text (hb.mono hstage) hshaped (List.forall_mem_nil _)
  · exact .error (.inr (.inr rfl))

theorem readable_pipeline (hb : ReadsBelow sub n) (hn : n.Shaped)
    (h : 2 ≤ n.stages.length ∧ ∀ c ∈ n.stages, c.kind.isStatement = true) : Readable (pipeline sub n) := by
  obtain ⟨hcount, hkinds⟩ := h
  have hmem : ∀ c ∈ n.stages, c ∈ n.children := fun c hc => List.mem_of_mem_filter hc
  have hfilter : n.children.filter (·.kind != .operator) = n.stages := rfl
  rw [pipeline, hfilter]
  rcases hstages : n.stages with _ | ⟨first, _ | ⟨second, rest⟩⟩
  case cons.cons =>
    rw [hstages] at hmem hkinds
    dsimp only
    refine (hb.child (hmem first (by simp)) hn (.inl (hkinds first (by simp)))).bind fun _ =>
      (Readable.mapM fun c hc => ?_).bind fun _ => .ok _
    exact readable_stage n hb hn (hmem c (List.mem_cons_of_mem _ hc))
  all_goals
    rw [hstages] at hcount
    simp at hcount

/-! ## Whole trees -/

theorem readable_ofParts (hb : ReadsBelow sub n) (hn : n.Shaped) (hk : Stands n) : Readable (ofParts sub n) := by
  have hfits := hn.fits
  rw [ofParts]
  cases hkind : n.kind <;> rw [Node.Fits, hkind] at hfits <;> dsimp only at hfits ⊢
  case number => exact readable_number
  case boolean | identifier => exact .ok _
  case regex => exact readable_regex hfits
  case string | word => exact readable_fragments hb hn hfits
  case dotGet => exact readable_dotGet hfits
  case binOp => exact readable_binOp hb hn hfits
  case conditionalOp => exact readable_conditionalOp hb hn hfits
  case assign => exact readable_assignment hb hn hfits
  case parenExpr => exact readable_paren hb hn hfits
  case pipeExpr => exact readable_pipeline hb hn hfits
  case functionDef => exact readable_functionOf hb hn hfits
  case functionCall => exact readable_callOf hb hn hfits
  case callOrIdentifier =>
    obtain ⟨name, hchildren, hname⟩ := hfits
    rw [readable_callee hchildren hname]
    exact .ok _
  case ifExpr => exact readable_conditional hb hn hfits
  case thenBlock => exact (Readable.mapM fun c hc => hb.child hc hn (.inl (hfits c hc))).bind fun _ => .ok _
  all_goals
    rw [Stands, hkind] at hk
    rcases hk with hk | hk <;> cases hk

theorem readable_ofNodeWithin {fuel : Nat} (hfuel : n.height ≤ fuel) (hn : n.Shaped) (hk : Stands n) :
    Readable (ofNodeWithin fuel n) := by
  induction fuel generalizing n with
  | zero =>
    rw [Node.height_eq] at hfuel
    cases hfuel
  | succ fuel ih =>
    rw [ofNodeWithin]
    refine readable_ofParts (fun m hm hshaped hstands => ih ?_ hshaped hstands) hn hk
    exact Nat.le_of_lt_succ (Nat.lt_of_lt_of_le hm.lower hfuel)

end
end OfTree

namespace Expr

/-- A node of the right shape stands for an expression, or what stands in the way is to be expected. -/
theorem readable_of_shaped {n : Node} (hn : n.Shaped) (hk : n.kind.isStatement = true) : OfTree.Readable (ofNode n) :=
  OfTree.readable_ofNodeWithin (Nat.le_refl _) hn (.inl hk)

theorem readable_ofProgram {n : Node} (hn : n.Shaped) (hk : n.kind = .program) : OfTree.Readable (ofProgram n) := by
  have hfits := hn.fits
  rw [Node.Fits, hk] at hfits
  exact OfTree.Readable.mapM fun c hc => readable_of_shaped (hn.parts c hc) (hfits c hc)

end Expr

/-! ## Programs -/

namespace Tree.Grammar
open Report (Code CompileFault Stop)
open Parsing (Setup)

/-- What becomes of a tree of the right shape. -/
theorem ofTree_of_shaped {n : Node} (source filename : Text) (hn : n.Shaped) (hk : n.kind = .program)
    (herrors : n.errors = []) :
    (∃ p, Program.ofTree source filename (some n) = .ok p) ∨
      ∃ fault : CompileFault, Program.ofTree source filename (some n) = .error (.fault (.compiling fault)) ∧
        fault.code ∈ [Code.badRegex.text, Code.badNumber.text, Code.badPipe.text] := by
  rw [Program.ofTree]
  dsimp only
  rw [if_neg (not_not_intro hk), herrors]
  cases hprogram : Expr.ofProgram n with
  | ok statements => exact .inl ⟨_, rfl⟩
  | error obstacle =>
    right
    have hexpected := Expr.readable_ofProgram hn hk obstacle hprogram
    cases obstacle with
    | emptyStage => exact hexpected.elim
    | fault code span message hasCause =>
      refine ⟨_, rfl, ?_⟩
      rcases hexpected with rfl | rfl | rfl <;> simp

/-- A source that is read without faults is compiled, unless a literal in it has no value or something
other than a call stands in a pipe. -/
theorem parse_compiles (setup : Setup) (source filename : Text) (hcancelled : setup.cancelled = false)
    (hpatience : setup.patience = none) (h : (parse setup).failure? = none) :
    (∃ p, Program.ofTree source filename (some (parse setup).tree) = .ok p) ∨
      ∃ fault : CompileFault,
        Program.ofTree source filename (some (parse setup).tree) = .error (.fault (.compiling fault)) ∧
          fault.code ∈ [Code.badRegex.text, Code.badNumber.text, Code.badPipe.text] := by
  obtain ⟨stmts, t, houtcome⟩ := parse_outcome setup False False.elim
  have hfaults := houtcome.faults_eq_errors (live_of hcancelled hpatience)
  rw [Parsed.failure?, ofFaults_eq_none, List.map_eq_nil_iff, hfaults, List.map_eq_nil_iff, take_maxFaults_eq_nil] at h
  obtain ⟨hk, hshaped⟩ := houtcome.shaped h
  exact ofTree_of_shaped source filename hshaped hk h

/-- A number in a pipe. -/
theorem parse_compiles_bad_pipe :
    let setup : Setup := { src := "1 | 2" }
    (setup.cancelled = false ∧ setup.patience = none ∧ (parse setup).failure? = none) ∧
      ((∃ p, Program.ofTree setup.src [] (some (parse setup).tree) = .ok p) ∨
        ∃ fault : CompileFault,
          Program.ofTree setup.src [] (some (parse setup).tree) = .error (.fault (.compiling fault)) ∧
            fault.code ∈ [Code.badRegex.text, Code.badNumber.text, Code.badPipe.text]) := by
  intro setup
  have hnone : (parse setup).failure? = none := by cbv
  exact ⟨⟨rfl, rfl, hnone⟩, parse_compiles setup setup.src [] rfl rfl hnone⟩

end Tree.Grammar
end Bareword
