import Bareword.Proofs.Evaluation.Basic

/-! # The limits of evaluation

Evaluation that may hold more values and nest more calls comes to the same result, unless evaluation
with the smaller limits stops because it is at them.

* `Overflows`: trouble that comes from the limits.
* `Refines`: a computation comes to the same result as another one, or is at its limits.
* `evaluate_mono`: whole trees.
-/

namespace Bareword.Evaluation
set_option autoImplicit false
open Bareword.Tree (Node)
open Machine (Trouble)

/-- The trouble comes from the limits of evaluation. -/
def Overflows : Trouble → Prop
  | .fault e => e.code = Report.Code.stackOverflow.text
  | _ => False

/-- The first computation comes to the result of the second one, or is at its limits. -/
def Refines {α : Type} (x y : Eval α) : Prop :=
  ∀ s, x s = y s ∨ ∃ e s', x s = .error e s' ∧ Overflows e

theorem Refines.refl {α : Type} (x : Eval α) : Refines x x := fun _ => .inl rfl

theorem Refines.bind {α β : Type} {x y : Eval α} {f g : α → Eval β} (hx : Refines x y)
    (hf : ∀ a, Refines (f a) (g a)) : Refines (x >>= f) (y >>= g) := by
  intro s
  show EStateM.bind x f s = EStateM.bind y g s ∨ ∃ e s', EStateM.bind x f s = .error e s' ∧ _
  rw [EStateM.bind, EStateM.bind]
  rcases hx s with h | ⟨e, s', h, he⟩
  · rw [h]
    cases y s with
    | error e s₁ => exact .inl rfl
    | ok a s₁ => exact hf a s₁
  · rw [h]
    exact .inr ⟨e, s', rfl, he⟩

theorem Refines.then {α β : Type} {x : Eval α} {f g : α → Eval β}
    (hf : ∀ a, Refines (f a) (g a)) : Refines (x >>= f) (x >>= g) :=
  (Refines.refl x).bind hf

section Limits
variable {w : Setting} {capacity : Nat} (hcap : w.capacity ≤ capacity)

theorem overflows_located {span : Span} {e : Report.RuntimeFault}
    (h : e.code = Report.Code.stackOverflow.text) : Overflows (w.located span (.fault e)) := by
  rw [Setting.located]
  split
  · exact h
  · exact h

include hcap

theorem refines_hold (span : Span) (pl : Place) (v : Value) :
    Refines (hold w span pl v) (hold { w with capacity } span pl v) := by
  intro s
  rw [hold, hold]
  by_cases h : pl.held < w.capacity
  · rw [if_pos h, if_pos (Nat.lt_of_lt_of_le h hcap)]
    exact .inl rfl
  · rw [if_neg h]
    exact .inr ⟨_, s, rfl, overflows_located rfl⟩

variable {enter enter' : Enter} {sub sub' : Place → Node → Eval Value}

theorem refines_apply (henter : ∀ span pl c args, Refines (enter span pl c args) (enter' span pl c args))
    (span : Span) (pl : Place) (callee : Value) (args : Args) :
    Refines (apply w enter span pl callee args)
      (apply { w with capacity } enter' span pl callee args) := by
  cases callee with
  | closure c => exact henter span pl c args
  | builtin b => exact .then fun v => refines_hold hcap span pl v
  | text t => exact .refl _
  | _ => exact .refl _

omit hcap in
theorem refines_all {α : Type} {f g : Place → α → Eval Value}
    (h : ∀ pl a, Refines (f pl a) (g pl a)) (pl : Place) (as : List α) :
    Refines (evalAll f pl as) (evalAll g pl as) := by
  induction as generalizing pl with
  | nil => exact .refl _
  | cons a as ih => exact (h pl a).bind fun v => (ih (pl.more 1)).bind fun vs => .refl _

variable (hsub : ∀ pl n, Refines (sub pl n) (sub' pl n))
include hsub

theorem refines_arg (piped : Option Value) (pl : Place) (arg : Node) :
    Refines (evalArg w sub piped pl arg) (evalArg { w with capacity } sub' piped pl arg) := by
  unfold evalArg
  split
  · exact .refl _
  · split
    · exact refines_hold hcap _ pl _
    · exact hsub pl _
  · exact hsub pl _

theorem refines_named (around : Span) (piped : Option Value) (pl : Place) (args : List Node) :
    Refines (evalNamed w sub around piped pl args)
      (evalNamed { w with capacity } sub' around piped pl args) := by
  induction args generalizing pl with
  | nil => exact .refl _
  | cons arg args ih =>
    rw [evalNamed, evalNamed]
    split
    · exact .refl _
    · refine (refines_hold hcap around pl _).bind fun _ => ?_
      refine (refines_arg hcap hsub piped (pl.more 1) arg).bind fun v => ?_
      exact (ih (pl.more 2)).bind fun rest => .refl _

variable (henter : ∀ span pl c args, Refines (enter span pl c args) (enter' span pl c args))
include henter

theorem refines_call (around span : Span) (piped : Option Value) (pl : Place) (name : Text)
    (args : List Node) :
    Refines (evalCall w enter sub around span piped pl name args)
      (evalCall { w with capacity } enter' sub' around span piped pl name args) := by
  refine .then fun v => (refines_hold hcap span pl v).bind fun callee => ?_
  refine (refines_all (fun pl v => refines_hold hcap around pl v) _ _).bind fun first => ?_
  refine (refines_all (refines_arg hcap hsub piped) _ _).bind fun rest => ?_
  refine (refines_named hcap hsub around piped _ _).bind fun named => ?_
  refine (refines_hold hcap span _ _).bind fun _ => (refines_hold hcap span _ _).bind fun _ => ?_
  exact refines_apply hcap henter span pl callee _

omit hsub in
theorem refines_bare (span : Span) (pl : Place) (name : Text) :
    Refines (evalBare w enter span pl name) (evalBare { w with capacity } enter' span pl name) := by
  refine .then fun v => ?_
  split
  · exact refines_apply hcap henter span pl v {}
  · exact refines_hold hcap span pl v

theorem refines_stages (around : Span) (pl : Place) (v : Value) (stages : List Node) :
    Refines (evalStages w enter sub around pl v stages)
      (evalStages { w with capacity } enter' sub' around pl v stages) := by
  induction stages generalizing v with
  | nil => exact .refl _
  | cons stage stages ih =>
    refine Refines.bind ?_ ih
    unfold evalStage
    split
    · exact .refl _
    · exact refines_call hcap hsub henter _ _ _ pl _ _

omit henter in
theorem refines_block (span : Span) (pl : Place) (ns : List Node) :
    Refines (evalBlock w sub span pl ns) (evalBlock { w with capacity } sub' span pl ns) := by
  induction ns with
  | nil => exact refines_hold hcap span pl .null
  | cons n ns ih =>
    cases ns with
    | nil => exact hsub pl n
    | cons m ns => exact (hsub pl n).bind fun _ => ih

omit henter in
theorem refines_piece (whole : Span) (pl : Place) (part : Node) :
    Refines (evalPiece w sub whole pl part) (evalPiece { w with capacity } sub' whole pl part) := by
  unfold evalPiece
  split
  · exact refines_hold hcap whole pl _
  · exact refines_hold hcap whole pl _
  · exact refines_hold hcap whole pl _
  · exact hsub pl _
  · exact .refl _

omit henter in
theorem refines_text (pl : Place) (n : Node) :
    Refines (evalText w sub pl n) (evalText { w with capacity } sub' pl n) := by
  unfold evalText
  split
  · exact refines_hold hcap _ pl _
  · exact (refines_all (refines_piece hcap hsub n.span) pl n.children).bind fun vs => .refl _

omit henter in
theorem refines_short (stopOn : Bool) (span : Span) (pl : Place) (left right : Node) :
    Refines (evalShort w sub stopOn span pl left right)
      (evalShort { w with capacity } sub' stopOn span pl left right) := by
  refine (hsub pl left).bind fun a => (refines_hold hcap span _ a).bind fun _ => ?_
  split
  · exact .refl _
  · exact hsub pl right

omit henter in
theorem refines_operator (pl : Place) (n : Node) :
    Refines (evalOperator w sub pl n) (evalOperator { w with capacity } sub' pl n) := by
  unfold evalOperator
  split
  · split
    · exact refines_short hcap hsub false _ pl _ _
    · split
      · exact refines_short hcap hsub true _ pl _ _
      · split
        · exact .refl _
        · exact (hsub pl _).bind fun a => (hsub _ _).bind fun b => .refl _
  · exact .refl _

omit henter in
theorem refines_branches (span : Span) (pl : Place) (otherwise : Option Node) (parts : List Node) :
    Refines (evalBranches w sub span pl otherwise parts)
      (evalBranches { w with capacity } sub' span pl otherwise parts) := by
  induction parts generalizing otherwise with
  | nil =>
    cases otherwise with
    | none => exact refines_hold hcap span pl .null
    | some block => exact hsub pl block
  | cons part rest ih =>
    simp only [evalBranches]
    split
    · split
      · refine (hsub pl _).bind fun v => ?_
        split
        · exact hsub pl _
        · exact ih otherwise
      · exact .refl _
    · exact ih _

/-- A node, if the nodes below it and calls of functions are taken care of. -/
theorem refines_parts (pl : Place) (n : Node) :
    Refines (evalParts w enter sub pl n) (evalParts { w with capacity } enter' sub' pl n) := by
  have hhold := refines_hold hcap n.span pl
  unfold evalParts
  cases n.kind <;> dsimp only
  case number =>
    split
    · exact hhold _
    · exact .refl _
  case boolean | regex => exact hhold _
  case string | word => exact refines_text hcap hsub pl n
  case identifier => exact .then hhold
  case dotGet =>
    split
    · exact .then fun v => (hhold v).bind fun _ => .refl _
    · exact .refl _
  case binOp | conditionalOp => exact refines_operator hcap hsub pl n
  case assign =>
    split
    · exact (hsub pl _).bind fun v => .refl _
    · exact .refl _
  case parenExpr =>
    split
    · exact hsub pl _
    · exact hhold _
  case pipeExpr =>
    split
    · exact (hsub pl _).bind fun v => refines_stages hcap hsub henter _ pl v _
    · exact .refl _
  case functionDef =>
    unfold evalFunction
    split
    · exact .then fun s => .then fun _ => hhold _
    · exact .refl _
  case functionCall =>
    split
    · exact refines_call hcap hsub henter _ _ none pl _ _
    · exact .refl _
  case callOrIdentifier =>
    split
    · exact refines_bare hcap henter _ pl _
    · exact .refl _
  case ifExpr =>
    unfold evalIf
    split
    · refine (hsub pl _).bind fun v => ?_
      split
      · exact hsub pl _
      · exact refines_branches hcap hsub _ pl none _
    · exact .refl _
  case thenBlock => exact refines_block hcap hsub _ pl _
  all_goals exact .refl _

omit hsub in
theorem refines_within (height : Nat) (pl : Place) (n : Node) :
    Refines (evalWithin w enter height pl n) (evalWithin { w with capacity } enter' height pl n) := by
  induction height generalizing pl n with
  | zero => exact .refl _
  | succ height ih => exact refines_parts hcap ih henter pl n

end Limits

theorem refines_enter {w : Setting} {capacity calls calls' : Nat} (hcap : w.capacity ≤ capacity)
    (hcalls : calls ≤ calls') (span : Span) (pl : Place) (c : Closure) (args : Args) :
    Refines (enterWithin w calls span pl c args)
      (enterWithin { w with capacity } calls' span pl c args) := by
  induction calls generalizing calls' span pl c args with
  | zero => exact fun s => .inr ⟨_, s, rfl, overflows_located rfl⟩
  | succ calls ih =>
    cases calls' with
    | zero => cases hcalls
    | succ calls' =>
      rw [enterWithin, enterWithin]
      split
      · exact .refl _
      · refine .then fun s => ?_
        split
        · exact .refl _
        · refine .then fun _ => refines_block hcap ?_ _ _ _
          exact fun pl n => refines_within hcap (ih (Nat.le_of_succ_le_succ hcalls)) n.height pl n

/-- Larger limits do not change the result of evaluation that stays within the smaller ones. -/
theorem evaluate_mono {w : Setting} {capacity calls calls' : Nat} (hcap : w.capacity ≤ capacity)
    (hcalls : calls ≤ calls') (globals : Closure.Vars) (tree : Node) :
    evaluate w calls globals tree = evaluate { w with capacity } calls' globals tree ∨
      ∃ e s, evaluate w calls globals tree = .error e s ∧ Overflows e :=
  refines_block hcap
    (fun pl n => refines_within hcap (refines_enter hcap hcalls) n.height pl n) _ _ _ _

end Bareword.Evaluation
