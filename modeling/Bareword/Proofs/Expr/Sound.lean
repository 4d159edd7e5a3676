import Bareword.Proofs.Machine.Instructions
import Bareword.Proofs.Pattern.Flags
import Bareword.Program.OfTree
import Mathlib.Data.List.Forall2

/-! # Expressions that can be run

The expressions of a tree push only literals that have a value, and operate only with operations that
have two operands.

* `Expr.Sound`: an expression whose literals have values and whose operations are some.
* `Expr.sound_of_ofNode`: the expression of a node is sound.
-/

namespace Bareword
set_option autoImplicit false
open Bareword.Tree (Node)
open OfTree (Result)

/-! ## Results -/

theorem bind_eq_ok {ε α β : Type} {x : Except ε α} {f : α → Except ε β} {b : β} :
    (x >>= f) = .ok b ↔ ∃ a, x = .ok a ∧ f a = .ok b := by
  cases x with
  | error e =>
    constructor
    · intro h
      cases h
    · rintro ⟨a, h, -⟩
      cases h
  | ok a =>
    constructor
    · exact fun h => ⟨a, rfl, h⟩
    · rintro ⟨a, h, hb⟩
      cases h
      exact hb

/-- What holds of every part that was read and of what it was read as. -/
theorem forall₂_of_mapM {ε α β : Type} {f : α → Except ε β} {as : List α} {bs : List β}
    {R : α → β → Prop} (h : as.mapM f = .ok bs) (hR : ∀ a ∈ as, ∀ b, f a = .ok b → R a b) :
    List.Forall₂ R as bs := by
  induction as generalizing bs with
  | nil =>
    rw [List.mapM_nil] at h
    cases h
    exact .nil
  | cons a as ih =>
    rw [List.mapM_cons] at h
    obtain ⟨b, hb, h⟩ := bind_eq_ok.mp h
    obtain ⟨bs, hbs, h⟩ := bind_eq_ok.mp h
    cases h
    exact .cons (hR a (List.mem_cons_self ..) b hb)
      (ih hbs fun a ha => hR a (List.mem_cons_of_mem _ ha))

/-! ## Operators -/

theorem operation_arithmetic {t : Text} {op : Opcode} (h : OfTree.arithmetic? t = some op) :
    ∃ f, Machine.operation op = some f := by
  unfold OfTree.arithmetic? at h
  split_ifs at h <;> cases h <;> exact ⟨_, rfl⟩

theorem operation_comparison {t : Text} {op : Opcode} (h : OfTree.comparison? t = some op) :
    ∃ f, Machine.operation op = some f := by
  unfold OfTree.comparison? at h
  split_ifs at h <;> cases h <;> exact ⟨_, rfl⟩

theorem operands_eq_ok {n l o r : Node} (h : OfTree.operands n = .ok (l, o, r)) :
    n.children = [l, o, r] := by
  unfold OfTree.operands at h
  split at h
  · rename_i hn
    split at h
    · cases h
      exact hn
    · cases h
  · cases h

/-! ## Shapes -/

namespace OfTree
variable {sub : Node → Result Expr} {n : Node} {e : Expr}

theorem dotGet_eq_ok (h : dotGet n = .ok e) :
    ∃ base field, n.child? 0 = some base ∧ n.child? 1 = some field ∧ base.kind = .identifier ∧
      e = .field n.span base.text field.text := by
  unfold dotGet at h
  split at h
  · rename_i base field hbase hfield
    split at h
    · rename_i hkinds
      cases h
      exact ⟨base, field, hbase, hfield, hkinds.1, rfl⟩
    · cases h
  · cases h

theorem assignment_eq_ok (h : assignment sub n = .ok e) :
    ∃ name value v, n.first? .assignable = some name ∧ n.child? 2 = some value ∧
      sub value = .ok v ∧ e = .assign n.span name.text v := by
  unfold assignment at h
  split at h
  · rename_i name value hname hvalue
    obtain ⟨v, hv, h⟩ := bind_eq_ok.mp h
    cases h
    exact ⟨name, value, v, hname, hvalue, hv, rfl⟩
  · cases h

theorem functionOf_eq_ok (h : functionOf sub n = .ok e) :
    ∃ params body names es, n.significant = params :: body ∧ params.children.mapM param = .ok names ∧
      body.mapM sub = .ok es ∧ e = .function n.span names es := by
  unfold functionOf at h
  split at h
  · rename_i params body hn
    split at h
    · obtain ⟨names, hnames, h⟩ := bind_eq_ok.mp h
      obtain ⟨es, hes, h⟩ := bind_eq_ok.mp h
      cases h
      exact ⟨params, body, names, es, hn, hnames, hes, rfl⟩
    · cases h
  · cases h

theorem conditional_eq_ok (h : conditional sub n = .ok e) :
    ∃ condition block rest b bs final last, n.significant = condition :: block :: rest ∧
      branch sub condition block = .ok b ∧ branches sub rest none = .ok (bs, final) ∧
      (match final with
        | none => last = .literal n.span .null
        | some block => sub block = .ok last) ∧
      e = .choose n.span (b :: bs) last := by
  unfold conditional at h
  split at h
  · rename_i condition block rest hsig
    split at h
    · obtain ⟨b, hb, h⟩ := bind_eq_ok.mp h
      obtain ⟨⟨bs, final⟩, hbs, h⟩ := bind_eq_ok.mp h
      cases final with
      | none =>
        cases h
        exact ⟨condition, block, rest, b, bs, none, _, hsig, hb, hbs, rfl, rfl⟩
      | some other =>
        obtain ⟨last, hlast, h⟩ := bind_eq_ok.mp h
        cases h
        exact ⟨condition, block, rest, b, bs, some other, last, hsig, hb, hbs, hlast, rfl⟩
    · cases h
  · cases h

/-- An argument is a placeholder, which may only stand in a stage, or else the expression of its value. -/
theorem argument_eq_ok {around arg : Node} {isStage : Bool} {a : Arg} (h : argument sub around isStage arg = .ok a) :
    ∃ value, argValue? arg = some value ∧
      ((isStage && isPlaceholder value) = true ∧ a = .piped value.span ∨
        (isStage && isPlaceholder value) = false ∧ ∃ e, sub value = .ok e ∧ a = .value e) := by
  unfold argument at h
  split at h
  · cases h
  · rename_i value hvalue
    refine ⟨value, hvalue, ?_⟩
    split at h
    · rename_i hpiped
      cases h
      exact .inl ⟨hpiped, rfl⟩
    · rename_i hpiped
      obtain ⟨e, he, h⟩ := bind_eq_ok.mp h
      cases h
      exact .inr ⟨Bool.eq_false_iff.mpr hpiped, e, he, rfl⟩

theorem namedArgument_eq_ok {around arg : Node} {isStage : Bool} {a : NamedArg}
    (h : namedArgument sub around isStage arg = .ok a) :
    ∃ name value, arg.first? .argName = some name ∧ argument sub around isStage arg = .ok value ∧
      a = .mk (Text.dropTail "=" name.text) value := by
  unfold namedArgument at h
  split at h
  · cases h
  · rename_i name hname
    obtain ⟨value, hvalue, h⟩ := bind_eq_ok.mp h
    cases h
    exact ⟨name, value, hname, hvalue, rfl⟩

theorem callee_eq_ok {name : Text} (h : callee n = .ok name) :
    ∃ c, n.child? 0 = some c ∧ c.kind = .identifier ∧ name = c.text := by
  unfold callee at h
  split at h
  · rename_i c hc
    split at h
    · rename_i hkind
      cases h
      exact ⟨c, hc, hkind, rfl⟩
    · cases h
  · cases h

theorem arguments_eq_ok {around call : Node} {isStage : Bool} {name : Text} {args : List Node} {c : Call}
    (h : arguments sub around isStage call name args = .ok c) :
    ∃ positional named, c = .mk call.span name positional named ∧
      (args.filter (·.kind == .positionalArg)).mapM (argument sub around isStage) = .ok positional ∧
      (args.filter (·.kind == .namedArg)).mapM (namedArgument sub around isStage) = .ok named ∧
      ∀ arg ∈ args, arg.kind = .positionalArg ∨ arg.kind = .namedArg := by
  unfold arguments at h
  split at h
  · cases h
  · rename_i hkinds
    obtain ⟨positional, hp, h⟩ := bind_eq_ok.mp h
    obtain ⟨named, hn, h⟩ := bind_eq_ok.mp h
    cases h
    refine ⟨positional, named, rfl, hp, hn, fun arg harg => ?_⟩
    have hkind := List.find?_eq_none.mp hkinds arg harg
    by_cases hpos : arg.kind = .positionalArg
    · exact .inl hpos
    · exact .inr (by simpa [hpos] using hkind)

def isPlaced (arg : Node) : Bool := (argValue? arg).any isPlaceholder

theorem isPiped_argument {around arg : Node} {a : Arg} (h : argument sub around true arg = .ok a) :
    a.isPiped = isPlaced arg := by
  obtain ⟨value, hvalue, ⟨hplaced, rfl⟩ | ⟨hplaced, e, -, rfl⟩⟩ := argument_eq_ok h
  · rw [isPlaced, hvalue]
    exact hplaced.symm
  · rw [isPlaced, hvalue]
    exact hplaced.symm

theorem any_of_forall₂ {α β : Type} {p : α → Bool} {q : β → Bool} {as : List α} {bs : List β}
    (h : List.Forall₂ (fun a b => q b = p a) as bs) : bs.any q = as.any p := by
  induction h with
  | nil => rfl
  | cons hab _ ih => rw [List.any_cons, List.any_cons, hab, ih]

/-- The value that comes through a pipe is taken where a placeholder is among the arguments. -/
theorem takesPiped_arguments {around call : Node} {name : Text} {args : List Node} {c : Call}
    (h : arguments sub around true call name args = .ok c) : c.takesPiped = args.any isPlaced := by
  obtain ⟨positional, named, rfl, hp, hn, hkinds⟩ := arguments_eq_ok h
  have hpositional := any_of_forall₂ (forall₂_of_mapM hp fun _ _ _ ha => isPiped_argument ha)
  have hnamed : named.any (·.arg.isPiped) = (args.filter (·.kind == .namedArg)).any isPlaced := by
    refine any_of_forall₂ (forall₂_of_mapM hn fun arg _ a ha => ?_)
    obtain ⟨name, value, -, hvalue, rfl⟩ := namedArgument_eq_ok ha
    exact isPiped_argument hvalue
  rw [Call.takesPiped, hpositional, hnamed, List.any_filter, List.any_filter, Bool.eq_iff_iff]
  simp only [Bool.or_eq_true, List.any_eq_true, Bool.and_eq_true, beq_iff_eq]
  constructor
  · rintro (⟨arg, hm, -, hplaced⟩ | ⟨arg, hm, -, hplaced⟩)
    · exact ⟨arg, hm, hplaced⟩
    · exact ⟨arg, hm, hplaced⟩
  · rintro ⟨arg, hm, hplaced⟩
    exact (hkinds arg hm).imp (fun hkind => ⟨arg, hm, hkind, hplaced⟩) fun hkind => ⟨arg, hm, hkind, hplaced⟩

end OfTree

/-! ## Sound expressions -/

mutual

/-- All literals have values, and operations with two operands are some. -/
def Expr.Sound : Expr → Prop
  | .literal _ value => ∃ v, Value.ofLiteral value = .ok v
  | .name _ _ | .field _ _ _ | .bare _ _ => True
  | .concat _ parts => Expr.AllSound parts
  | .binary _ op left right => (∃ f, Machine.operation op = some f) ∧ left.Sound ∧ right.Sound
  | .shortCircuit _ _ left right => left.Sound ∧ right.Sound
  | .assign _ _ value => value.Sound
  | .pipe _ first stages => first.Sound ∧ Call.AllSound stages
  | .function _ _ body => Expr.AllSound body
  | .call call => call.Sound
  | .choose _ branches otherwise => Branch.AllSound branches ∧ otherwise.Sound
  | .block _ statements => Expr.AllSound statements

def Expr.AllSound : List Expr → Prop
  | [] => True
  | e :: es => e.Sound ∧ Expr.AllSound es

def Call.Sound : Call → Prop
  | .mk _ _ positional named => Arg.AllSound positional ∧ NamedArg.AllSound named

def Call.AllSound : List Call → Prop
  | [] => True
  | c :: cs => c.Sound ∧ Call.AllSound cs

def Arg.Sound : Arg → Prop
  | .value e => e.Sound
  | .piped _ => True

def Arg.AllSound : List Arg → Prop
  | [] => True
  | a :: as => a.Sound ∧ Arg.AllSound as

def NamedArg.AllSound : List NamedArg → Prop
  | [] => True
  | .mk _ arg :: rest => arg.Sound ∧ NamedArg.AllSound rest

def Branch.AllSound : List Branch → Prop
  | [] => True
  | .mk condition block :: branches => condition.Sound ∧ block.Sound ∧ Branch.AllSound branches

end

theorem Expr.allSound_iff (es : List Expr) : Expr.AllSound es ↔ ∀ e ∈ es, e.Sound := by
  induction es with
  | nil => simp [Expr.AllSound]
  | cons e es ih => rw [Expr.AllSound, ih, List.forall_mem_cons]

theorem Call.allSound_iff (cs : List Call) : Call.AllSound cs ↔ ∀ c ∈ cs, c.Sound := by
  induction cs with
  | nil => simp [Call.AllSound]
  | cons c cs ih => rw [Call.AllSound, ih, List.forall_mem_cons]

theorem Arg.allSound_iff (as : List Arg) : Arg.AllSound as ↔ ∀ a ∈ as, a.Sound := by
  induction as with
  | nil => simp [Arg.AllSound]
  | cons a as ih => rw [Arg.AllSound, ih, List.forall_mem_cons]

theorem NamedArg.allSound_iff (ns : List NamedArg) :
    NamedArg.AllSound ns ↔ ∀ n ∈ ns, n.arg.Sound := by
  induction ns with
  | nil => simp [NamedArg.AllSound]
  | cons n ns ih =>
    obtain ⟨name, arg⟩ := n
    rw [NamedArg.AllSound, ih, List.forall_mem_cons]
    rfl

/-- What holds of everything that parts are read as. -/
theorem forall_of_mapM {ε α β : Type} {f : α → Except ε β} {as : List α} {bs : List β} {P : β → Prop}
    (h : as.mapM f = .ok bs) (hP : ∀ a ∈ as, ∀ b, f a = .ok b → P b) : ∀ b ∈ bs, P b := by
  have hforall := forall₂_of_mapM (R := fun _ b => P b) h hP
  intro b hb
  obtain ⟨i, hi, rfl⟩ := List.getElem_of_mem hb
  exact (List.forall₂_iff_get.mp hforall).2 i (hforall.length_eq ▸ hi) hi

namespace OfTree

section Nodes
variable {sub : Node → Result Expr} {n : Node} {e : Expr}

/-- Everything that is read below a node is sound. -/
def ReadsSound (sub : Node → Result Expr) : Prop := ∀ m e, sub m = .ok e → e.Sound

theorem sound_regex (h : regex n = .ok e) : e.Sound := by
  unfold regex at h
  dsimp only at h
  split at h
  · cases h
  · rename_i i hi
    split at h
    · cases h
    · rename_i inline hinline
      split at h
      · cases h
      · rename_i hcheck
        cases h
        have hperm := Pattern.perm_inlineFlags hinline
        have hletters : ∀ b ∈ inline, b ∈ Pattern.matchingFlags := fun b hb =>
          List.mem_of_mem_filter (hperm.mem_iff.mp hb)
        have hok := Pattern.check_withFlags hperm hletters ((Text.dropLead "//" n.text).take i)
        rw [hcheck] at hok
        rw [Expr.Sound, Value.ofLiteral]
        simp only [Literal.ofRegex]
        unfold Pattern.expression
        cases hfixed : Pattern.check (Pattern.withFlags
            (Pattern.inlineFlags ((Text.dropLead "//" n.text).drop (i + 2)))
            ((Text.dropLead "//" n.text).take i)) with
        | error fault =>
          rw [hfixed] at hok
          cases hok
        | ok u => exact ⟨_, rfl⟩

theorem sound_fragments (hsub : ReadsSound sub) (h : fragments sub n = .ok e) : e.Sound := by
  unfold fragments at h
  split at h
  · cases h
    exact ⟨_, rfl⟩
  · obtain ⟨parts, hparts, h⟩ := bind_eq_ok.mp h
    cases h
    refine (Expr.allSound_iff parts).mpr (forall_of_mapM hparts fun part _ e he => ?_)
    unfold fragment at he
    split at he
    · cases he
      exact ⟨_, rfl⟩
    · cases he
      exact ⟨_, rfl⟩
    · cases he
      exact ⟨_, rfl⟩
    · split at he
      · exact hsub _ _ he
      · cases he
    · cases he

theorem sound_binOp (hsub : ReadsSound sub) (h : binOp sub n = .ok e) : e.Sound := by
  obtain ⟨⟨left, operator, right⟩, -, h⟩ := bind_eq_ok.mp h
  dsimp only at h
  split at h
  · cases h
  · rename_i op hop
    obtain ⟨l, hl, h⟩ := bind_eq_ok.mp h
    obtain ⟨r, hr, h⟩ := bind_eq_ok.mp h
    cases h
    exact ⟨operation_arithmetic hop, hsub _ _ hl, hsub _ _ hr⟩

theorem sound_conditionalOp (hsub : ReadsSound sub) (h : conditionalOp sub n = .ok e) : e.Sound := by
  obtain ⟨⟨left, operator, right⟩, -, h⟩ := bind_eq_ok.mp h
  dsimp only at h
  split at h
  · obtain ⟨l, hl, h⟩ := bind_eq_ok.mp h
    obtain ⟨r, hr, h⟩ := bind_eq_ok.mp h
    cases h
    exact ⟨hsub _ _ hl, hsub _ _ hr⟩
  split at h
  · obtain ⟨l, hl, h⟩ := bind_eq_ok.mp h
    obtain ⟨r, hr, h⟩ := bind_eq_ok.mp h
    cases h
    exact ⟨hsub _ _ hl, hsub _ _ hr⟩
  split at h
  · cases h
  · rename_i op hop
    obtain ⟨l, hl, h⟩ := bind_eq_ok.mp h
    obtain ⟨r, hr, h⟩ := bind_eq_ok.mp h
    cases h
    exact ⟨operation_comparison hop, hsub _ _ hl, hsub _ _ hr⟩

theorem sound_branch (hsub : ReadsSound sub) {condition block : Node} {b : Branch}
    (h : branch sub condition block = .ok b) (bs : List Branch) (hbs : Branch.AllSound bs) :
    Branch.AllSound (b :: bs) := by
  obtain ⟨c, hc, h⟩ := bind_eq_ok.mp h
  obtain ⟨body, hbody, h⟩ := bind_eq_ok.mp h
  cases h
  exact ⟨hsub _ _ hc, hsub _ _ hbody, hbs⟩

theorem sound_branches (hsub : ReadsSound sub) {parts : List Node} {otherwise last : Option Node}
    {bs : List Branch} (h : branches sub parts otherwise = .ok (bs, last)) : Branch.AllSound bs := by
  induction parts generalizing otherwise bs with
  | nil =>
    cases h
    exact trivial
  | cons part parts ih =>
    unfold branches at h
    split at h
    · split at h
      · obtain ⟨b, hb, h⟩ := bind_eq_ok.mp h
        obtain ⟨⟨rest, last⟩, hrest, h⟩ := bind_eq_ok.mp h
        cases h
        exact sound_branch hsub hb rest (ih hrest)
      · cases h
    · exact ih h
    · cases h

theorem sound_conditional (hsub : ReadsSound sub) (h : conditional sub n = .ok e) : e.Sound := by
  obtain ⟨condition, block, rest, b, bs, final, last, -, hb, hbs, hlast, rfl⟩ := conditional_eq_ok h
  refine ⟨sound_branch hsub hb bs (sound_branches hsub hbs), ?_⟩
  cases final with
  | none =>
    cases hlast
    exact ⟨_, rfl⟩
  | some block => exact hsub _ _ hlast

theorem sound_argument (hsub : ReadsSound sub) {around arg : Node} {isStage : Bool} {a : Arg}
    (h : argument sub around isStage arg = .ok a) : a.Sound := by
  obtain ⟨value, -, ⟨-, rfl⟩ | ⟨-, e, he, rfl⟩⟩ := argument_eq_ok h
  · exact trivial
  · exact hsub _ _ he

theorem sound_arguments (hsub : ReadsSound sub) {around call : Node} {isStage : Bool} {name : Text}
    {args : List Node} {c : Call} (h : arguments sub around isStage call name args = .ok c) :
    c.Sound := by
  obtain ⟨positional, named, rfl, hpositional, hnamed, -⟩ := arguments_eq_ok h
  refine ⟨(Arg.allSound_iff _).mpr ?_, (NamedArg.allSound_iff _).mpr ?_⟩
  · exact forall_of_mapM hpositional fun _ _ _ ha => sound_argument hsub ha
  · refine forall_of_mapM hnamed fun arg _ a ha => ?_
    obtain ⟨name, value, -, hvalue, rfl⟩ := namedArgument_eq_ok ha
    exact sound_argument hsub hvalue

theorem sound_stage (hsub : ReadsSound sub) {pipe : Node} {c : Call}
    (h : stage sub pipe n = .ok c) : c.Sound := by
  unfold stage at h
  split at h
  · split at h
    · cases h
    · obtain ⟨name, -, h⟩ := bind_eq_ok.mp h
      exact sound_arguments hsub h
  · obtain ⟨name, -, h⟩ := bind_eq_ok.mp h
    exact sound_arguments hsub h
  · cases h

theorem sound_pipeline (hsub : ReadsSound sub) (h : pipeline sub n = .ok e) : e.Sound := by
  unfold pipeline at h
  split at h
  · obtain ⟨value, hvalue, h⟩ := bind_eq_ok.mp h
    obtain ⟨stages, hstages, h⟩ := bind_eq_ok.mp h
    cases h
    refine ⟨hsub _ _ hvalue, (Call.allSound_iff _).mpr ?_⟩
    exact forall_of_mapM hstages fun _ _ _ hc => sound_stage hsub hc
  · cases h

theorem sound_functionOf (hsub : ReadsSound sub) (h : functionOf sub n = .ok e) : e.Sound := by
  obtain ⟨params, body, names, es, -, -, hes, rfl⟩ := functionOf_eq_ok h
  exact (Expr.allSound_iff _).mpr (forall_of_mapM hes fun _ _ _ he => hsub _ _ he)

theorem sound_ofParts (hsub : ReadsSound sub) (h : ofParts sub n = .ok e) : e.Sound := by
  unfold ofParts at h
  split at h
  case h_1 =>
    unfold number at h
    split at h
    · cases h
      exact ⟨_, rfl⟩
    · cases h
    · cases h
  case h_2 =>
    cases h
    exact ⟨_, rfl⟩
  case h_3 => exact sound_regex h
  case h_4 | h_5 => exact sound_fragments hsub h
  case h_6 =>
    cases h
    exact trivial
  case h_7 =>
    obtain ⟨base, field, -, -, -, rfl⟩ := dotGet_eq_ok h
    exact trivial
  case h_8 => exact sound_binOp hsub h
  case h_9 => exact sound_conditionalOp hsub h
  case h_10 =>
    obtain ⟨name, value, v, -, -, hv, rfl⟩ := assignment_eq_ok h
    have hsound : v.Sound := hsub _ _ hv
    exact hsound
  case h_11 =>
    unfold paren at h
    split at h
    · cases h
      exact ⟨_, rfl⟩
    · exact hsub _ _ h
    · cases h
  case h_12 => exact sound_pipeline hsub h
  case h_13 => exact sound_functionOf hsub h
  case h_14 =>
    obtain ⟨name, -, h⟩ := bind_eq_ok.mp h
    obtain ⟨c, hc, h⟩ := bind_eq_ok.mp h
    cases h
    exact sound_arguments hsub hc
  case h_15 =>
    obtain ⟨name, -, h⟩ := bind_eq_ok.mp h
    cases h
    exact trivial
  case h_16 => exact sound_conditional hsub h
  case h_17 =>
    obtain ⟨es, hes, h⟩ := bind_eq_ok.mp h
    cases h
    exact (Expr.allSound_iff _).mpr (forall_of_mapM hes fun _ _ _ he => hsub _ _ he)
  case h_18 => cases h

end Nodes
end OfTree

theorem Expr.sound_of_ofNode {n : Node} {e : Expr} (h : Expr.ofNode n = .ok e) : e.Sound := by
  have hwithin : ∀ fuel, OfTree.ReadsSound (OfTree.ofNodeWithin fuel) := by
    intro fuel
    induction fuel with
    | zero => exact fun _ _ h => nomatch h
    | succ fuel ih => exact fun _ _ h => OfTree.sound_ofParts ih h
  exact hwithin n.height n e h

theorem Expr.allSound_of_ofProgram {n : Node} {es : List Expr} (h : Expr.ofProgram n = .ok es) :
    Expr.AllSound es :=
  (Expr.allSound_iff es).mpr (forall_of_mapM h fun _ _ _ he => Expr.sound_of_ofNode he)

theorem Program.ofTree_eq_ok {source filename : Text} {n : Node} {p : Program}
    (h : Program.ofTree source filename (some n) = .ok p) :
    ∃ es, Expr.ofProgram n = .ok es ∧ p = Expr.compile source filename es := by
  rw [Program.ofTree] at h
  dsimp only at h
  split at h
  · cases h
  · split at h
    · cases h
    · split at h
      · cases h
      · rename_i es hes
        cases h
        exact ⟨es, hes, rfl⟩

end Bareword
