import Bareword.Expr.OfTree
import Bareword.Proofs.Program.Linking
import Bareword.Proofs.Tree.Shapes

/-! # Accesses to variables

Code stores variables and reads them by their names. Some names were written in the source, and some are those
of temporary variables, one for each pipe, which the code of the pipe hands its value on with.

* `Node.pipes`, `Node.carried`: the pipes of a tree, and what the code of a pipe does with a temporary variable.
* `Gen.Census`: the accesses of some code, by where their names come from.
* `Gen.Accounts`: a census of code that some pipes are compiled in, apart from those that are left out.
-/

namespace Bareword
set_option autoImplicit false
open Bareword.Tree (Node Kind)

/-! ## Pipes -/

/-- The instruction stores a variable, reads one or calls one. -/
def Instruction.isAccess (i : Instruction) : Bool := [Opcode.store, .tryLoad, .tryCall].contains i.op

def Instruction.load (span : Span) (name : Text) : Instruction := { op := .tryLoad, name, span }

namespace Tree.Node

/-- The pipes at and below a node. -/
def pipes (n : Node) : List Node := n.preorder.filter (·.kind == .pipeExpr)

def placeholders (args : List Node) : List Node :=
  args.flatMap fun arg => (OfTree.argValue? arg).toList.filter OfTree.isPlaceholder

/-- The arguments of a stage of a pipe. -/
def stageArgs (stage : Node) : List Node := if stage.kind = .functionCall then stage.children.drop 1 else []

/-- What a stage reads from the temporary variable: the value for every placeholder, or else the first argument. -/
def taken (pipe : Node) (temporary : Text) (stage : Node) : List Instruction :=
  match placeholders stage.stageArgs with
  | [] => [.load pipe.span temporary]
  | values => values.map fun value => .load value.span temporary

/-- What the code of a pipe does with its temporary variable: the value so far is stored for every stage, which
reads it from there. -/
def carried (pipe : Node) (temporary : Text) : List Instruction :=
  (pipe.stages.drop 1).flatMap fun stage =>
    { op := .store, name := temporary, span := pipe.span } :: pipe.taken temporary stage

/-- The same for several pipes, whose temporary variables are numbered in their order. -/
def carriedFrom (k : Nat) (pipes : List Node) : List Instruction :=
  (pipes.zipIdx (k + 1)).flatMap fun (pipe, n) => pipe.carried (Gen.temporary n)

theorem pipes_eq (n : Node) :
    n.pipes = (if n.kind = .pipeExpr then [n] else []) ++ n.children.flatMap pipes := by
  rw [pipes, preorder_eq, preorderAll_eq, List.filter_cons, List.filter_flatMap]
  by_cases hk : n.kind = .pipeExpr
  · rw [if_pos (beq_iff_eq.mpr hk), if_pos hk]
    rfl
  · rw [if_neg (mt eq_of_beq hk), if_neg hk]
    rfl

theorem pipes_of_kind {n : Node} {k : Kind} (hk : n.kind = k) (hne : k ≠ .pipeExpr) :
    n.pipes = n.children.flatMap pipes := by
  rw [pipes_eq, if_neg (hk ▸ hne), List.nil_append]

theorem carriedFrom_append (k : Nat) (ps qs : List Node) :
    carriedFrom k (ps ++ qs) = carriedFrom k ps ++ carriedFrom (k + ps.length) qs := by
  rw [carriedFrom, List.zipIdx_append, List.flatMap_append, Nat.add_right_comm]
  rfl

end Tree.Node

/-! ## The census of code -/

namespace Gen
open Tree.Node (carriedFrom)

/-- The accesses of code that may use a name that it is given, such as that of a temporary variable: those that
this is used for, those of names of the source, and those of the temporary variables of the pipes in the code. -/
structure Census {ι : Type} (g : ι → Gen) (given : ι → List Instruction) (names : List Instruction)
    (pipes : List Node) : Prop where
  next : ∀ t c, (g t c).next.pipes = c.pipes + pipes.length
  accesses : ∀ t c, ((g t c).all.filter (·.isAccess)).Perm (given t ++ names ++ carriedFrom c.pipes pipes)

namespace Census
variable {ι κ : Type} {g h : ι → Gen} {given given' : ι → List Instruction} {names names' : List Instruction}
  {pipes pipes' : List Node}

theorem nil : Census (fun _ : ι => .nil) (fun _ => []) [] [] where
  next _ _ := rfl
  accesses _ _ := .nil

theorem plain {i : ι → Instruction} (hi : ∀ t, (i t).isAccess = false) :
    Census (fun t => .instr (i t)) (fun _ => []) [] [] where
  next _ _ := rfl
  accesses t _ := by
    change ([i t].filter _).Perm []
    rw [List.filter_cons_of_neg (by simp [hi t])]
    exact .nil

theorem name {i : Instruction} (hi : i.isAccess = true) : Census (fun _ : ι => .instr i) (fun _ => []) [i] [] where
  next _ _ := rfl
  accesses _ _ := by
    change ([i].filter _).Perm [i]
    rw [List.filter_cons_of_pos hi]
    exact .refl _

/-- One instruction that accesses the variable that is given. -/
theorem access {i : ι → Instruction} (hi : ∀ t, (i t).isAccess = true) :
    Census (fun t => .instr (i t)) (fun t => [i t]) [] [] where
  next _ _ := rfl
  accesses t _ := by
    change ([i t].filter _).Perm [i t]
    rw [List.filter_cons_of_pos (hi t)]
    exact .refl _

/-- Three parts of a list beside three parts of another one. -/
theorem perm_parts {α : Type} (a b c a' b' c' : List α) :
    (a ++ b ++ c ++ (a' ++ b' ++ c')).Perm (a ++ a' ++ (b ++ b') ++ (c ++ c')) := by
  rw [← Multiset.coe_eq_coe]
  simp only [← Multiset.coe_add]
  abel

theorem append (hg : Census g given names pipes) (hh : Census h given' names' pipes') :
    Census (fun t => g t ++ h t) (fun t => given t ++ given' t) (names ++ names') (pipes ++ pipes') where
  next t c := by
    rw [append_apply, List.length_append, ← Nat.add_assoc, ← hg.next t c]
    exact hh.next t _
  accesses t c := by
    refine ((Linkable.all_append (g t) (h t) c).filter _).trans ?_
    rw [List.filter_append, Tree.Node.carriedFrom_append, ← hg.next t c]
    exact ((hg.accesses t c).append (hh.accesses t _)).trans (perm_parts ..)

theorem given_perm (hg : Census g given names pipes) (h : ∀ t, (given t).Perm (given' t)) :
    Census g given' names pipes where
  next := hg.next
  accesses t c := (hg.accesses t c).trans (((h t).append_right _).append_right _)

theorem jumpOver {op : Opcode} (hop : Instruction.isAccess { op } = false) (span : Span)
    (hg : Census g given names pipes) : Census (fun t => .jumpOver op span (g t)) given names pipes where
  next := hg.next
  accesses t c := by
    have hjump : ((Gen.jumpOver op span (g t) c).all.filter (·.isAccess)) = (g t c).all.filter (·.isAccess) :=
      List.filter_cons_of_neg (Bool.not_eq_true _ ▸ hop)
    rw [hjump]
    exact hg.accesses t c

/-- For some other names that are given. -/
theorem comp (hg : Census g given names pipes) (f : κ → ι) :
    Census (fun t => g (f t)) (fun t => given (f t)) names pipes where
  next t := hg.next (f t)
  accesses t := hg.accesses (f t)

theorem withEnd {g : Text → Gen} (hg : Census g (fun _ => []) names pipes) :
    Census (fun _ : ι => .withEnd g) (fun _ => []) names pipes where
  next _ _ := hg.next _ _
  accesses _ _ := hg.accesses _ _

/-- A pipe gives a variable of its own to its stages. -/
theorem withTemporary {pipe : Node} {g : Text → Gen} (hg : Census g pipe.carried names pipes) :
    Census (fun _ : ι => .withTemporary g) (fun _ => []) names (pipe :: pipes) where
  next _ c := by
    refine (hg.next _ _).trans ?_
    rw [List.length_cons, Nat.add_assoc, Nat.add_comm 1]
  accesses _ c := by
    let c' : Counters := { c with pipes := c.pipes + 1 }
    refine (hg.accesses _ c').trans ?_
    have hfirst : carriedFrom c.pipes (pipe :: pipes) =
        pipe.carried (temporary (c.pipes + 1)) ++ carriedFrom (c.pipes + 1) pipes := by
      rw [carriedFrom, List.zipIdx_cons, List.flatMap_cons]
      rfl
    rw [hfirst, List.nil_append, ← List.append_assoc]
    exact List.perm_append_comm.append_right _

theorem function (span : Span) (params : List Text) (hg : Census g given names pipes) :
    Census (fun t => .function span params (g t)) given names pipes where
  next t _ := hg.next t _
  accesses t c := by
    let body := g t { c with functions := c.functions + 1 }
    -- Around the body there are the making of the function, its label and the return, none of which is an access.
    have hall : (Gen.function span params (g t) c).all.filter (·.isAccess) =
        (body.code ++ [({ op := .return, span } : Instruction)] ++ body.bodies.flatMap Expr.placed).filter (·.isAccess) :=
      rfl
    have hbody : (Gen.function span params (g t) c).all.filter (·.isAccess) = body.all.filter (·.isAccess) := by
      rw [hall, Emitted.all, List.filter_append, List.filter_append, List.filter_append]
      exact congrArg (· ++ _) (List.append_nil _)
    rw [hbody]
    exact hg.accesses t { c with functions := c.functions + 1 }

end Census

/-! ## Accounts -/

/-- In the code the pipes of a list are compiled, apart from some that are left out, and it accesses no other
names of the source than some. -/
def Accounts {ι : Type} (leftOut : Node → Prop) (named : Instruction → Prop) (pipes : List Node)
    (given : ι → List Instruction) (g : ι → Gen) : Prop :=
  ∃ names compiled others, Census g given names compiled ∧ pipes.Perm (compiled ++ others) ∧
    (∀ m ∈ others, leftOut m) ∧ ∀ i ∈ names, named i

namespace Accounts
variable {ι κ : Type} {leftOut leftOut' : Node → Prop} {named named' : Instruction → Prop}
  {pipes pipes' : List Node} {given given' : ι → List Instruction} {g h : ι → Gen}

theorem of_census (hg : Census g given [] []) : Accounts leftOut named [] given g :=
  ⟨[], [], [], hg, .nil, List.forall_mem_nil _, List.forall_mem_nil _⟩

theorem nil : Accounts leftOut named [] (fun _ : ι => []) fun _ => .nil := .of_census .nil

theorem plain {i : ι → Instruction} (hi : ∀ t, (i t).isAccess = false) :
    Accounts leftOut named [] (fun _ => []) fun t => .instr (i t) :=
  .of_census (.plain hi)

theorem push (span : Span) (value : Literal) : Accounts leftOut named [] (fun _ : ι => []) fun _ => .push span value :=
  .plain fun _ => rfl

theorem access {i : ι → Instruction} (hi : ∀ t, (i t).isAccess = true) :
    Accounts leftOut named [] (fun t => [i t]) fun t => .instr (i t) :=
  .of_census (.access hi)

theorem name {i : Instruction} (hi : i.isAccess = true) (hnamed : named i) :
    Accounts leftOut named [] (fun _ : ι => []) fun _ => .instr i :=
  ⟨[i], [], [], .name hi, .nil, List.forall_mem_nil _, List.forall_mem_singleton.mpr hnamed⟩

theorem append (hg : Accounts leftOut named pipes given g) (hh : Accounts leftOut named pipes' given' h) :
    Accounts leftOut named (pipes ++ pipes') (fun t => given t ++ given' t) fun t => g t ++ h t := by
  obtain ⟨names, compiled, others, hg, hpipes, hothers, hnames⟩ := hg
  obtain ⟨names', compiled', others', hh, hpipes', hothers', hnames'⟩ := hh
  refine ⟨_, _, others ++ others', hg.append hh, ?_, List.forall_mem_append.mpr ⟨hothers, hothers'⟩,
    List.forall_mem_append.mpr ⟨hnames, hnames'⟩⟩
  exact (hpipes.append hpipes').trans (Census.perm_parts [] compiled others [] compiled' others')

theorem imp (hg : Accounts leftOut named pipes given g) (hleft : ∀ m, leftOut m → leftOut' m)
    (hnamed : ∀ i, named i → named' i) : Accounts leftOut' named' pipes given g := by
  obtain ⟨names, compiled, others, hg, hpipes, hothers, hnames⟩ := hg
  exact ⟨names, compiled, others, hg, hpipes, fun m hm => hleft m (hothers m hm), fun i hi => hnamed i (hnames i hi)⟩

theorem perm (hg : Accounts leftOut named pipes given g) (h : pipes.Perm pipes') :
    Accounts leftOut named pipes' given g := by
  obtain ⟨names, compiled, others, hg, hpipes, hrest⟩ := hg
  exact ⟨names, compiled, others, hg, h.symm.trans hpipes, hrest⟩

theorem given_perm (hg : Accounts leftOut named pipes given g) (h : ∀ t, (given t).Perm (given' t)) :
    Accounts leftOut named pipes given' g := by
  obtain ⟨names, compiled, others, hg, hrest⟩ := hg
  exact ⟨names, compiled, others, hg.given_perm h, hrest⟩

/-- Some more pipes, which are left out. -/
theorem leave (hg : Accounts leftOut named pipes given g) (h : ∀ m ∈ pipes', leftOut m) :
    Accounts leftOut named (pipes ++ pipes') given g := by
  obtain ⟨names, compiled, others, hg, hpipes, hothers, hnames⟩ := hg
  refine ⟨names, compiled, others ++ pipes', hg, ?_, List.forall_mem_append.mpr ⟨hothers, h⟩, hnames⟩
  rw [← List.append_assoc]
  exact hpipes.append_right _

theorem comp (hg : Accounts leftOut named pipes given g) (f : κ → ι) :
    Accounts leftOut named pipes (fun t => given (f t)) fun t => g (f t) := by
  obtain ⟨names, compiled, others, hg, hrest⟩ := hg
  exact ⟨names, compiled, others, hg.comp f, hrest⟩

theorem jumpOver {op : Opcode} (hop : Instruction.isAccess { op } = false) (span : Span)
    (hg : Accounts leftOut named pipes given g) : Accounts leftOut named pipes given fun t => .jumpOver op span (g t) := by
  obtain ⟨names, compiled, others, hg, hrest⟩ := hg
  exact ⟨names, compiled, others, hg.jumpOver hop span, hrest⟩

theorem function (span : Span) (params : List Text) (hg : Accounts leftOut named pipes given g) :
    Accounts leftOut named pipes given fun t => .function span params (g t) := by
  obtain ⟨names, compiled, others, hg, hrest⟩ := hg
  exact ⟨names, compiled, others, hg.function span params, hrest⟩

theorem withEnd {g : Text → Gen} (hg : Accounts leftOut named pipes (fun _ => []) g) :
    Accounts leftOut named pipes (fun _ : ι => []) fun _ => .withEnd g := by
  obtain ⟨names, compiled, others, hg, hrest⟩ := hg
  exact ⟨names, compiled, others, hg.withEnd, hrest⟩

theorem withTemporary {pipe : Node} {g : Text → Gen} (hg : Accounts leftOut named pipes pipe.carried g) :
    Accounts leftOut named (pipe :: pipes) (fun _ : ι => []) fun _ => .withTemporary g := by
  obtain ⟨names, compiled, others, hg, hpipes, hrest⟩ := hg
  exact ⟨names, pipe :: compiled, others, hg.withTemporary, hpipes.cons pipe, hrest⟩

end Accounts
end Gen
end Bareword
