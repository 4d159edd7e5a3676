import Bareword.Proofs.Evaluation.Calls
import Bareword.Proofs.Expr.Sound
import Bareword.Proofs.Tree.Descent

/-! # Code of nodes

The code of a node does what evaluation of the node does, if that holds for the nodes below it.

* `Below`: the code of every node below a node does what its evaluation does.
* `sim_operator`, `sim_short`: operators and comparisons, and the ones that may leave an operand out.
* `sim_fragments`: texts put together of pieces.
* `sim_thenBlock`: blocks and bodies.
* `sim_conditional`: chains of conditions.
-/

namespace Bareword.Evaluation
set_option autoImplicit false
open Bareword.Tree (Node)
open OfTree (Result)
open Machine (View Trouble)

/-! ## Results -/

theorem eval_bind_ok {α β : Type} {x : Eval α} {f : α → Eval β} {s s' : State} {b : β}
    (h : (x >>= f) s = .ok b s') : ∃ a s₁, x s = .ok a s₁ ∧ f a s₁ = .ok b s' := by
  change EStateM.bind x f s = .ok b s' at h
  rw [EStateM.bind] at h
  cases hx : x s with
  | error e s₁ =>
    rw [hx] at h
    cases h
  | ok a s₁ =>
    rw [hx] at h
    exact ⟨a, s₁, rfl, h⟩

theorem append_nil (g : Gen) : g ++ Gen.nil = g := by
  funext c
  rw [Gen.append_apply]
  simp [Gen.nil]

section Parts
variable {G : Ground} {calls : Nat} {compile : Node → Result Expr}
  {sub : Place → Node → Eval Value} {n : Node}

/-- The code of every node below `n` does what its evaluation does. -/
def Below (G : Ground) (calls : Nat) (compile : Node → Result Expr)
    (sub : Place → Node → Eval Value) (n : Node) : Prop :=
  ∀ m e, m.Within n → compile m = .ok e →
    ∀ k, Sim G calls k none [] e.gen (fun pl => sub pl m) (fun a => [a])

theorem Below.child {m : Node} {e : Expr} (hb : Below G calls compile sub n) (hm : m ∈ n.children)
    (he : compile m = .ok e) (k : Nat) :
    Sim G calls k none [] e.gen (fun pl => sub pl m) (fun a => [a]) :=
  hb m e (Tree.Node.within_child hm) he k

theorem Below.grandchild {m l : Node} {e : Expr} (hb : Below G calls compile sub n)
    (hl : l ∈ n.children) (hm : m ∈ l.children) (he : compile m = .ok e) (k : Nat) :
    Sim G calls k none [] e.gen (fun pl => sub pl m) (fun a => [a]) :=
  hb m e ((Tree.Node.within_child hm).trans (Tree.Node.within_child hl)) he k

theorem Ground.Clear.child {m : Node} (hc : G.Clear n) (hm : m ∈ n.children)
    (hk : m.kind = .identifier ∨ m.kind = .assignable) : G.hidden m.text = false :=
  hc m (Tree.Node.within_child hm).mem hk

theorem Ground.Clear.within {m : Node} (hc : G.Clear n) (hm : m.Within n) : G.Clear m :=
  fun x hx => hc x (hm.nodes x hx)

/-! ## Literals and names -/

theorem sim_number {e : Expr} {k : Nat} (h : OfTree.number n = .ok e) (hk : n.kind = .number) :
    Sim G calls k none [] e.gen
      (fun pl => evalParts G.setting (enterWithin G.setting calls) sub pl n) (fun a => [a]) := by
  unfold OfTree.number at h
  unfold evalParts
  simp only [hk]
  split at h
  · rename_i x hx
    cases h
    rw [hx, Expr.gen_literal]
    refine sim_push fun b hb => ?_
    cases hb
    rfl
  · cases h
  · cases h

theorem sim_regex {e : Expr} {k : Nat} (h : OfTree.regex n = .ok e) (hk : n.kind = .regex) :
    Sim G calls k none [] e.gen
      (fun pl => evalParts G.setting (enterWithin G.setting calls) sub pl n) (fun a => [a]) := by
  unfold OfTree.regex at h
  unfold evalParts
  simp only [hk]
  dsimp only at h
  split at h
  · cases h
  · rename_i i hi
    split at h
    · cases h
    · split at h
      · cases h
      · cases h
        rw [Expr.gen_literal]
        refine sim_push fun b hb => ?_
        rw [regexValue, hi, Option.getD_some]
        unfold Value.ofLiteral at hb
        simp only [Literal.ofRegex] at hb
        split at hb
        · cases hb
        · cases hb
          rfl

theorem sim_dotGet {e : Expr} {k : Nat} (hc : G.Clear n) (h : OfTree.dotGet n = .ok e)
    (hk : n.kind = .dotGet) :
    Sim G calls k none [] e.gen
      (fun pl => evalParts G.setting (enterWithin G.setting calls) sub pl n) (fun a => [a]) := by
  obtain ⟨base, field, hbase, hfield, hkind, rfl⟩ := OfTree.dotGet_eq_ok h
  unfold evalParts
  simp only [hk]
  rw [hbase, hfield, Expr.gen_field]
  have hhidden := hc.child (Tree.Node.mem_of_child? hbase) (.inl hkind)
  refine ((sim_load hhidden).seq fun a => sim_field a).congr fun pl => ?_
  simp only [bind_assoc]

/-! ## Operators -/

theorem ite_or {α : Type} {c : Prop} [Decidable c] (o o' u : Option α) :
    (if c then o else o').or u = if c then o.or u else o'.or u := by
  split <;> rfl

theorem ite_bind {α β : Type} {c : Prop} [Decidable c] (o o' : Option α) (f : α → Option β) :
    (if c then o else o').bind f = if c then o.bind f else o'.bind f := by
  split <;> rfl

theorem operator?_eq (t : Text) :
    operator? t = ((OfTree.arithmetic? t).or (OfTree.comparison? t)).bind Machine.operation := by
  unfold operator? OfTree.arithmetic? OfTree.comparison?
  simp only [ite_or, ite_bind, Option.some_or, Option.none_or]
  rfl

theorem operator?_arithmetic {t : Text} {op : Opcode} (h : OfTree.arithmetic? t = some op) :
    t ≠ "and" ∧ t ≠ "or" ∧ operator? t = Machine.operation op := by
  refine ⟨?_, ?_, by rw [operator?_eq, h]; rfl⟩
  · rintro rfl
    have hnone : OfTree.arithmetic? "and" = none := by decide +kernel
    rw [hnone] at h
    cases h
  · rintro rfl
    have hnone : OfTree.arithmetic? "or" = none := by decide +kernel
    rw [hnone] at h
    cases h

theorem operator?_comparison {t : Text} {op : Opcode} (h : OfTree.comparison? t = some op) :
    operator? t = Machine.operation op := by
  have hnone : OfTree.arithmetic? t = none := by
    unfold OfTree.comparison? at h
    split_ifs at h with h₁ h₂ h₃ h₄ h₅ h₆ <;> subst t <;> decide +kernel
  rw [operator?_eq, hnone, h]
  rfl

theorem sim_operator {k : Nat} {op : Opcode} {f : Value → Value → Machine.Exec Value}
    {left operator right : Node} {l r : Expr} (hb : Below G calls compile sub n)
    (hn : n.children = [left, operator, right]) (hl : compile left = .ok l)
    (hr : compile right = .ok r) (hop : Machine.operation op = some f) :
    Sim G calls k none [] (Expr.binary n.span op l r).gen
      (fun pl => do
        let a ← sub pl left
        let b ← sub (pl.more 1) right
        compute G.setting n.span (f a b)) (fun a => [a]) := by
  rw [Expr.gen_binary, Gen.append_assoc]
  have hleft := hb.child (by simp [hn]) hl k
  have hright := hb.child (by simp [hn]) hr k
  exact hleft.seq fun a => (hright.frame [a] rfl).seq fun b => sim_operation hop a b

theorem sim_short {k : Nat} {stopOn : Bool} {left operator right : Node} {l r : Expr}
    (hb : Below G calls compile sub n) (hn : n.children = [left, operator, right])
    (hl : compile left = .ok l) (hr : compile right = .ok r) :
    Sim G calls k none [] (Expr.shortCircuit n.span stopOn l r).gen
      (fun pl => evalShort G.setting sub stopOn n.span pl left right) (fun a => [a]) := by
  rw [Expr.gen_shortCircuit, Gen.append_assoc]
  have hleft := hb.child (by simp [hn]) hl k
  have hright := hb.child (by simp [hn]) hr k
  refine hleft.seq fun a => ((sim_dup n.span a).seq fun _ => ?_)
  have hrest := ((sim_pop n.span a).seq fun _ => hright).congr fun pl => pure_bind _ _
  exact sim_jumpOver stopOn hrest a a rfl

theorem sim_binOp {e : Expr} {k : Nat} (hb : Below G calls compile sub n)
    (h : OfTree.binOp compile n = .ok e) (hk : n.kind = .binOp) :
    Sim G calls k none [] e.gen
      (fun pl => evalParts G.setting (enterWithin G.setting calls) sub pl n) (fun a => [a]) := by
  obtain ⟨⟨left, operator, right⟩, hparts, h⟩ := bind_eq_ok.mp h
  have hn := operands_eq_ok hparts
  unfold evalParts
  simp only [hk]
  unfold evalOperator
  simp only [hn]
  dsimp only at h
  split at h
  · cases h
  · rename_i op hop
    obtain ⟨l, hl, h⟩ := bind_eq_ok.mp h
    obtain ⟨r, hr, h⟩ := bind_eq_ok.mp h
    cases h
    obtain ⟨hand, hor, hoperator⟩ := operator?_arithmetic hop
    obtain ⟨f, hf⟩ := operation_arithmetic hop
    simp only [if_neg hand, if_neg hor, hoperator, hf]
    exact sim_operator hb hn hl hr hf

theorem sim_conditionalOp {e : Expr} {k : Nat} (hb : Below G calls compile sub n)
    (h : OfTree.conditionalOp compile n = .ok e) (hk : n.kind = .conditionalOp) :
    Sim G calls k none [] e.gen
      (fun pl => evalParts G.setting (enterWithin G.setting calls) sub pl n) (fun a => [a]) := by
  obtain ⟨⟨left, operator, right⟩, hparts, h⟩ := bind_eq_ok.mp h
  have hn := operands_eq_ok hparts
  unfold evalParts
  simp only [hk]
  unfold evalOperator
  simp only [hn]
  dsimp only at h
  split at h
  · rename_i hand
    obtain ⟨l, hl, h⟩ := bind_eq_ok.mp h
    obtain ⟨r, hr, h⟩ := bind_eq_ok.mp h
    cases h
    simp only [if_pos hand]
    exact sim_short hb hn hl hr
  · rename_i hand
    split at h
    · rename_i hor
      obtain ⟨l, hl, h⟩ := bind_eq_ok.mp h
      obtain ⟨r, hr, h⟩ := bind_eq_ok.mp h
      cases h
      simp only [if_neg hand, if_pos hor]
      exact sim_short hb hn hl hr
    · rename_i hor
      split at h
      · cases h
      · rename_i op hop
        obtain ⟨l, hl, h⟩ := bind_eq_ok.mp h
        obtain ⟨r, hr, h⟩ := bind_eq_ok.mp h
        cases h
        obtain ⟨f, hf⟩ := operation_comparison hop
        simp only [if_neg hand, if_neg hor, operator?_comparison hop, hf]
        exact sim_operator hb hn hl hr hf

/-! ## Strings -/

theorem evalAll_length {α : Type} {f : Place → α → Eval Value} {as : List α} {pl : Place}
    {s s' : State} {vs : List Value} (h : evalAll f pl as s = .ok vs s') : vs.length = as.length := by
  induction as generalizing pl s vs with
  | nil =>
    cases h
    rfl
  | cons a as ih =>
    obtain ⟨v, s₁, -, h⟩ := eval_bind_ok h
    obtain ⟨rest, s₂, hrest, h⟩ := eval_bind_ok h
    cases h
    rw [List.length_cons, List.length_cons, ih hrest]

theorem sim_all {α : Type} {k : Nat} {temp : Option (Nat × Value)} {f : Place → α → Eval Value}
    {as : List α} {gs : List Gen}
    (h : List.Forall₂ (fun a g => Sim G calls k temp [] g (fun pl => f pl a) (fun v => [v])) as gs) :
    Sim G calls k temp [] (gs.foldr (· ++ ·) .nil) (fun pl => evalAll f pl as) (fun vs => vs) := by
  induction h with
  | nil => exact .nil [] rfl
  | @cons a g as gs hg _ ih =>
    have hrest : ∀ v, Sim G calls k temp [v] (gs.foldr (· ++ ·) .nil)
        (fun pl => evalAll f (pl.more 1) as >>= fun vs => pure (v :: vs)) (fun vs => vs) :=
      fun v => (ih.frame [v] rfl).map (v :: ·) fun _ => rfl
    exact hg.seq hrest

theorem genParts_eq (es : List Expr) :
    Expr.genParts es = (es.map Expr.gen).foldr (· ++ ·) .nil := by
  induction es with
  | nil => rfl
  | cons e es ih =>
    rw [Expr.genParts, ih]
    rfl

theorem sim_piece {part : Node} {e : Expr} {k : Nat} (hb : Below G calls compile sub n)
    (hm : part ∈ n.children) (h : OfTree.fragment compile n part = .ok e) :
    Sim G calls k none [] e.gen (fun pl => evalPiece G.setting sub n.span pl part) (fun a => [a]) := by
  unfold OfTree.fragment at h
  unfold evalPiece
  cases hk : part.kind <;> simp only [hk] at h ⊢
  case stringFragment | wordFragment | escape =>
    cases h
    rw [Expr.gen_literal]
    refine sim_push fun b hb => ?_
    cases hb
    rfl
  case interpolation =>
    split at h
    · rename_i inner hinner
      simp only [hinner]
      exact hb.grandchild hm (by simp [hinner]) h k
    · cases h
  all_goals cases h

theorem sim_fragments {e : Expr} {k : Nat} (hb : Below G calls compile sub n)
    (h : OfTree.fragments compile n = .ok e) :
    Sim G calls k none [] e.gen (fun pl => evalText G.setting sub pl n) (fun a => [a]) := by
  unfold OfTree.fragments at h
  unfold evalText
  split at h
  · rename_i hall
    cases h
    simp only [if_pos hall]
    rw [Expr.gen_literal]
    refine sim_push fun b hb => ?_
    cases hb
    rfl
  · rename_i hall
    obtain ⟨parts, hparts, h⟩ := bind_eq_ok.mp h
    cases h
    simp only [if_neg hall]
    rw [Expr.gen_concat, genParts_eq]
    have hsims : List.Forall₂ (fun part g => Sim G calls k none [] g
        (fun pl => evalPiece G.setting sub n.span pl part) (fun v => [v]))
          n.children (parts.map Expr.gen) :=
      List.forall₂_map_right_iff.mpr
        (forall₂_of_mapM hparts fun part hm e he => sim_piece hb hm he)
    have hlen : parts.length = n.children.length := by simpa using hsims.length_eq.symm
    have hne : n.children ≠ [] := by
      intro hnil
      simp [hnil] at hall
    refine (sim_all hsims).seqOf (fun _ _ _ _ => evalAll_length) (fun vs hvs => ?_) ?_
    · rw [hlen, ← hvs]
      refine sim_concat fun hnil => hne (List.length_eq_zero_iff.mp ?_)
      rw [← hvs, hnil, List.length_nil]
    · exact ⟨n.children.map fun _ => .null, by simp⟩

/-! ## Statements -/

theorem sim_assign {e : Expr} {k : Nat} (hb : Below G calls compile sub n) (hc : G.Clear n)
    (h : OfTree.assignment compile n = .ok e) (hk : n.kind = .assign) :
    Sim G calls k none [] e.gen
      (fun pl => evalParts G.setting (enterWithin G.setting calls) sub pl n) (fun a => [a]) := by
  obtain ⟨name, value, e, hname, hvalue, he, rfl⟩ := OfTree.assignment_eq_ok h
  unfold evalParts
  simp only [hk]
  rw [hname, hvalue, Expr.gen_assign]
  obtain ⟨hmem, hkind⟩ := Tree.Node.mem_of_first? hname
  have hhidden := hc.child hmem (.inr hkind)
  have hsub := hb.child (Tree.Node.mem_of_child? hvalue) he k
  exact hsub.seq fun a => (sim_store hhidden a).map (fun _ => a) fun _ => rfl

theorem sim_paren {e : Expr} {k : Nat} (hb : Below G calls compile sub n)
    (h : OfTree.paren compile n = .ok e) (hk : n.kind = .parenExpr) :
    Sim G calls k none [] e.gen
      (fun pl => evalParts G.setting (enterWithin G.setting calls) sub pl n) (fun a => [a]) := by
  unfold OfTree.paren at h
  unfold evalParts
  simp only [hk]
  split at h
  · rename_i hn
    cases h
    simp only [hn]
    rw [Expr.gen_literal]
    refine sim_push fun b hb => ?_
    cases hb
    rfl
  · rename_i inner hn
    simp only [hn]
    exact hb.child (by simp [hn]) h k
  · cases h

/-- Statements after one another, of which only the last value stays. -/
theorem sim_rest {k : Nat} {span : Span} {m : Node} {e : Expr} {ms : List Node} {es : List Expr}
    (hm : Sim G calls k none [] e.gen (fun pl => sub pl m) (fun a => [a]))
    (h : List.Forall₂ (fun m e => Sim G calls k none [] (Expr.gen e) (fun pl => sub pl m)
      (fun a => [a])) ms es) :
    Sim G calls k none [] (e.gen ++ Expr.genRest span es)
      (fun pl => evalBlock G.setting sub span pl (m :: ms)) (fun a => [a]) := by
  induction h generalizing m e with
  | nil =>
    rw [Expr.genRest, append_nil]
    exact hm
  | @cons m' e' ms es hm' _ ih =>
    rw [Expr.genRest, Gen.append_assoc]
    have hnext := fun a => ((sim_pop span a).seq fun _ => ih hm').congr fun pl => pure_bind _ _
    exact hm.seq hnext

theorem sim_statements {k : Nat} {span : Span} {ms : List Node} {es : List Expr}
    (h : List.Forall₂ (fun m e => Sim G calls k none [] (Expr.gen e) (fun pl => sub pl m)
      (fun a => [a])) ms es) :
    Sim G calls k none [] (Expr.genStatements span es)
      (fun pl => evalBlock G.setting sub span pl ms) (fun a => [a]) := by
  cases h with
  | nil =>
    refine sim_push fun b hb => ?_
    cases hb
    rfl
  | cons hm hrest => exact sim_rest hm hrest

theorem gen_block (span : Span) (es : List Expr) :
    (Expr.block span es).gen = Expr.genStatements span es := by
  cases es with
  | nil => rfl
  | cons e es => rfl

theorem gen_function (span : Span) (params : List Text) (es : List Expr) :
    (Expr.function span params es).gen =
      .function span params (Expr.genStatements span es) := by
  cases es with
  | nil => rfl
  | cons e es => rfl

theorem sim_thenBlock {e : Expr} {k : Nat} (hb : Below G calls compile sub n)
    (h : (do return .block n.span (← n.children.mapM compile) : Result Expr) = .ok e)
    (hk : n.kind = .thenBlock) :
    Sim G calls k none [] e.gen
      (fun pl => evalParts G.setting (enterWithin G.setting calls) sub pl n) (fun a => [a]) := by
  obtain ⟨es, hes, h⟩ := bind_eq_ok.mp h
  cases h
  unfold evalParts
  simp only [hk]
  rw [gen_block]
  exact sim_statements (forall₂_of_mapM hes fun m hm e he => hb.child hm he k)

theorem params_eq {ps : List Node} {names : List Text} (h : ps.mapM OfTree.param = .ok names) :
    names = ps.map (·.text) := by
  have hforall : List.Forall₂ (fun p name => name = Tree.Node.text p) ps names := by
    refine forall₂_of_mapM h fun p _ name hp => ?_
    unfold OfTree.param at hp
    split at hp
    · cases hp
      rfl
    · cases hp
  clear h
  induction hforall with
  | nil => rfl
  | cons hp _ ih => rw [List.map_cons, ← hp, ← ih]

theorem sim_functionDef {e : Expr} {k fuel : Nat}
    (hb : Below G calls (OfTree.ofNodeWithin fuel) sub n) (hc : G.Clear n)
    (h : OfTree.functionOf (OfTree.ofNodeWithin fuel) n = .ok e) (hk : n.kind = .functionDef) :
    Sim G calls k none [] e.gen
      (fun pl => evalParts G.setting (enterWithin G.setting calls) sub pl n) (fun a => [a]) := by
  obtain ⟨params, body, names, es, hn, hnames, hes, rfl⟩ := OfTree.functionOf_eq_ok h
  unfold evalParts evalFunction
  simp only [hk, hn]
  rw [gen_function, params_eq hnames]
  have hmem : ∀ m ∈ body, m ∈ n.children := fun m hm =>
    Tree.Node.mem_of_significant (hn ▸ List.mem_cons_of_mem _ hm)
  refine sim_function (fun m hm => hc.within (Tree.Node.within_child (hmem m hm))) hes ?_
  exact (sim_statements (forall₂_of_mapM hes fun m hm e he => hb.child (hmem m hm) he 0)).grows

/-! ## Conditionals -/

/-- The expression of the last alternative of a conditional at a span. -/
def Otherwise (compile : Node → Result Expr) (span : Span) (last : Expr) : Option Node → Prop
  | none => last = .literal span .null
  | some block => compile block = .ok last

theorem sim_otherwise {k : Nat} {label : Text} {otherwise : Option Node} {last : Expr}
    (hb : Below G calls compile sub n) (hin : ∀ block ∈ otherwise, block.Within n)
    (hlast : Otherwise compile n.span last otherwise) :
    Sim G calls k none [] (last.gen ++ .instr { op := .label, name := label, span := n.span })
      (fun pl => evalBranches G.setting sub n.span pl otherwise []) (fun a => [a]) := by
  have hgen : Sim G calls k none [] last.gen
      (fun pl => evalBranches G.setting sub n.span pl otherwise []) (fun a => [a]) := by
    cases otherwise with
    | none =>
      rw [show last = .literal n.span .null from hlast, Expr.gen_literal]
      refine sim_push fun b hb => ?_
      cases hb
      rfl
    | some block => exact hb block last (hin block rfl) hlast k
  exact (hgen.seq fun a => sim_label a rfl).congr fun pl => bind_pure _

/-- A condition with its block, before the code of the other branches. -/
theorem sim_condition {k : Nat} {label : Text} {condition block : Node} {ce be : Expr} {rest : Gen}
    {y : Place → Eval Value} (hb : Below G calls compile sub n) (hc : condition.Within n)
    (hblock : block.Within n) (hce : compile condition = .ok ce) (hbe : compile block = .ok be)
    (hy : Sim G calls k none [] rest y (fun a => [a])) (hend : EndsAt G label rest) :
    Sim G calls k none []
      (ce.gen ++ (.jumpOver .jumpIfFalse n.span
        (be.gen ++ .instr { op := .jump, mode := .label, label, span := n.span }) ++ rest))
      (fun pl => do if (← sub pl condition).isTruthy then sub pl block else y pl) (fun a => [a]) :=
  (hb condition ce hc hce k).seq fun a => sim_branch (hb block be hblock hbe k) hy hend a

theorem branch_eq_ok {condition block : Node} {b : Branch}
    (h : OfTree.branch compile condition block = .ok b) :
    ∃ ce be, compile condition = .ok ce ∧ compile block = .ok be ∧ b = .mk ce be := by
  obtain ⟨ce, hce, h⟩ := bind_eq_ok.mp h
  obtain ⟨be, hbe, h⟩ := bind_eq_ok.mp h
  cases h
  exact ⟨ce, be, hce, hbe, rfl⟩

theorem evalBranches_elsif {w : Setting} {span : Span} {otherwise : Option Node} {part condition block : Node}
    {rest : List Node} (hkind : part.kind = .elsifExpr) (hsig : part.significant = [condition, block]) (pl : Place) :
    evalBranches w sub span pl otherwise (part :: rest) =
      (do if (← sub pl condition).isTruthy then sub pl block else evalBranches w sub span pl otherwise rest) := by
  rw [evalBranches, if_pos hkind, hsig]

theorem sim_branches {k : Nat} {label : Text} {parts : List Node} {otherwise final : Option Node}
    {bs : List Branch} {last : Expr} (hb : Below G calls compile sub n)
    (hparts : ∀ part ∈ parts, part ∈ n.children) (hin : ∀ block ∈ otherwise, block.Within n)
    (h : OfTree.branches compile parts otherwise = .ok (bs, final))
    (hlast : Otherwise compile n.span last final) :
    Sim G calls k none []
      (Expr.genBranches n.span label bs ++
        (last.gen ++ .instr { op := .label, name := label, span := n.span }))
      (fun pl => evalBranches G.setting sub n.span pl otherwise parts) (fun a => [a]) := by
  induction parts generalizing otherwise bs with
  | nil =>
    cases h
    exact sim_otherwise hb hin hlast
  | cons part rest ih =>
    have hpart := Tree.Node.within_child (hparts part (List.mem_cons_self ..))
    have hrest : ∀ part ∈ rest, part ∈ n.children := fun p hp =>
      hparts p (List.mem_cons_of_mem _ hp)
    rw [OfTree.branches] at h
    split at h
    · rename_i hkind
      split at h
      · rename_i condition block hsig
        obtain ⟨b, hbranch, h⟩ := bind_eq_ok.mp h
        obtain ⟨⟨bs, final⟩, hbs, h⟩ := bind_eq_ok.mp h
        cases h
        obtain ⟨ce, be, hce, hbe, rfl⟩ := branch_eq_ok hbranch
        have hcond : condition.Within n :=
          (Tree.Node.within_child (Tree.Node.mem_of_significant (by simp [hsig]))).trans hpart
        have hblock : block.Within n :=
          (Tree.Node.within_child (Tree.Node.mem_of_significant (by simp [hsig]))).trans hpart
        simp only [evalBranches_elsif hkind hsig]
        rw [Expr.genBranches, Gen.append_assoc, Gen.append_assoc]
        refine sim_condition hb hcond hblock hce hbe (ih hrest hin hbs) ?_
        exact endsAt_append (endsAt_append (endsAt_label label n.span) _) _
      · cases h
    · rename_i hkind
      simp only [evalBranches, hkind, reduceCtorEq, if_false]
      refine ih hrest (fun block hblock => ?_) h
      exact (Tree.Node.within_child (Tree.Node.mem_of_first? hblock).1).trans hpart
    · cases h

theorem sim_conditional {e : Expr} {k : Nat} (hb : Below G calls compile sub n)
    (h : OfTree.conditional compile n = .ok e) (hk : n.kind = .ifExpr) :
    Sim G calls k none [] e.gen
      (fun pl => evalParts G.setting (enterWithin G.setting calls) sub pl n) (fun a => [a]) := by
  obtain ⟨condition, block, rest, b, bs, final, last, hsig, hbranch, hbs, hlast, rfl⟩ :=
    OfTree.conditional_eq_ok h
  obtain ⟨ce, be, hce, hbe, rfl⟩ := branch_eq_ok hbranch
  have hmem : ∀ m ∈ condition :: block :: rest, m ∈ n.children := fun m hm =>
    Tree.Node.mem_of_significant (hsig ▸ hm)
  have hrest : ∀ part ∈ rest, part ∈ n.children := fun m hm => hmem m (by simp [hm])
  have hother : Otherwise compile n.span last final := by cases final <;> exact hlast
  unfold evalParts evalIf
  simp only [hk, hsig]
  rw [Expr.gen_choose]
  refine sim_withEnd fun label => ?_
  rw [Expr.genBranches, Gen.append_assoc, Gen.append_assoc, Gen.append_assoc]
  refine sim_condition hb (Tree.Node.within_child (hmem _ (by simp)))
    (Tree.Node.within_child (hmem _ (by simp))) hce hbe
    (sim_branches hb hrest (fun _ h => nomatch h) hbs hother) ?_
  exact endsAt_append (endsAt_append (endsAt_label label n.span) _) _

end Parts
end Bareword.Evaluation
