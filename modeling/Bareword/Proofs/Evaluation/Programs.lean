import Bareword.Proofs.Evaluation.Arguments
import Bareword.Script

/-! # Code of whole programs

* `sim_node`: the code of every node does what evaluation of the node does.
* `bodies`: so does the code of every function body, however deeply calls are nested.
-/

namespace Bareword.Evaluation
set_option autoImplicit false
open Bareword.Tree (Node)
open Machine (View Goes Trouble)

section Trees
variable {G : Ground} {calls : Nat}

/-- The code of a node, if that of the nodes below it is as it should be. -/
theorem sim_parts {fuel k : Nat} {sub : Place → Node → Eval Value} {n : Node} {e : Expr}
    (hbodies : Bodies G calls) (hb : Below G calls (OfTree.ofNodeWithin fuel) sub n)
    (hc : G.Clear n) (h : OfTree.ofParts (OfTree.ofNodeWithin fuel) n = .ok e) :
    Sim G calls k none [] e.gen
      (fun pl => evalParts G.setting (enterWithin G.setting calls) sub pl n) (fun a => [a]) := by
  unfold OfTree.ofParts at h
  cases hk : n.kind <;> simp only [hk] at h
  case number => exact sim_number h hk
  case regex => exact sim_regex h hk
  case dotGet => exact sim_dotGet hc h hk
  case binOp => exact sim_binOp hb h hk
  case conditionalOp => exact sim_conditionalOp hb h hk
  case assign => exact sim_assign hb hc h hk
  case parenExpr => exact sim_paren hb h hk
  case pipeExpr => exact sim_pipeline hbodies hb hc h hk
  case functionDef => exact sim_functionDef hb hc h hk
  case functionCall => exact sim_callOf hbodies hb hc h hk
  case ifExpr => exact sim_conditional hb h hk
  case thenBlock => exact sim_thenBlock hb h hk
  case boolean =>
    cases h
    unfold evalParts
    simp only [hk]
    rw [Expr.gen_literal]
    refine sim_push fun b hb => ?_
    cases hb
    rfl
  case string | word =>
    unfold evalParts
    simp only [hk]
    exact sim_fragments hb h
  case identifier =>
    cases h
    unfold evalParts
    simp only [hk]
    rw [Expr.gen_name]
    exact sim_load (hc n n.mem_preorder_self (.inl hk))
  case callOrIdentifier =>
    obtain ⟨name, hname, h⟩ := bind_eq_ok.mp h
    cases h
    obtain ⟨m, hm, hkind, rfl⟩ := OfTree.callee_eq_ok hname
    unfold evalParts
    simp only [hk, hm]
    rw [Expr.gen_bare]
    exact sim_bare hbodies (fun _ h => nomatch h) (hc.child (Tree.Node.mem_of_child? hm) (.inl hkind))
  all_goals cases h

/-- The code of every node does what evaluation of the node does. -/
theorem sim_node {fuel height : Nat} {n : Node} {e : Expr} (hbodies : Bodies G calls)
    (hc : G.Clear n) (h : OfTree.ofNodeWithin fuel n = .ok e) (hh : n.height ≤ height) (k : Nat) :
    Sim G calls k none [] e.gen
      (fun pl => evalWithin G.setting (enterWithin G.setting calls) height pl n) (fun a => [a]) := by
  induction fuel generalizing n e height k with
  | zero => cases h
  | succ fuel ih =>
    cases height with
    | zero =>
      rw [n.height_eq] at hh
      cases hh
    | succ height =>
      refine sim_parts hbodies (fun m e hm he k => ?_) hc h
      exact ih (hc.within hm) he (Nat.le_of_lt_succ (Nat.lt_of_lt_of_le hm.lower hh)) k

/-- The code of every function body does what evaluation of the body does. -/
theorem bodies (G : Ground) (calls : Nat) : Bodies G calls := by
  induction calls with
  | zero => trivial
  | succ calls ih =>
    intro f fuel es hclear hes
    refine sim_statements (forall₂_of_mapM hes fun n hn e he => ?_)
    exact sim_node ih (hclear n hn) he (Nat.le_refl _) 0

/-- The code of a whole tree does what evaluation of its statements does. -/
theorem sim_program {tree : Node} {es : List Expr} (hc : G.Clear tree)
    (h : Expr.ofProgram tree = .ok es) (k : Nat) :
    Sim G calls k none [] (Expr.genStatements .zero es)
      (fun pl => evalBlock G.setting (evalNode G.setting (enterWithin G.setting calls)) .zero pl
        tree.children) (fun a => [a]) := by
  refine sim_statements (forall₂_of_mapM h fun n hn e he => ?_)
  exact sim_node (bodies G calls) (hc.within (Tree.Node.within_child hn)) he (Nat.le_refl _) k

end Trees

end Bareword.Evaluation
