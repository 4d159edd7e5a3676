import Bareword.Script
import Bareword.Proofs.Program.Covering

/-! # Temporary variables

Every pipe of a source has a temporary variable of its own, and no other code uses one, apart from the code of
an interpolated name, which may be spelled like one.

* `accounts_call`, `accounts_pipeline`: the code of a call, and that of a pipe, whose stages are calls.
* `accounts_ofNodeWithin`: the code of every node holds the pipes at and below it.
* `Script.compile_temporaries`: the accesses of a compiled script to temporary variables.
-/

namespace Bareword
set_option autoImplicit false
open Bareword.Tree (Node Kind)
open OfTree (Result)
open Gen (Accounts)
open Tree.Node

namespace OfTree
variable {sub : Node → Result Expr} {n : Node} {e : Expr} {es : List Expr}

/-! ## Arguments -/

/-- What arguments read from a temporary variable: the value for every placeholder, if they are those of a stage. -/
def handed (isStage : Bool) (args : List Node) (temporary : Text) : List Instruction :=
  if isStage then (placeholders args).map fun value => .load value.span temporary else []

theorem handed_append (isStage : Bool) (as bs : List Node) (temporary : Text) :
    handed isStage (as ++ bs) temporary = handed isStage as temporary ++ handed isStage bs temporary := by
  cases isStage with
  | false => rfl
  | true => exact (congrArg (List.map _) List.flatMap_append).trans List.map_append

theorem handed_perm {as bs : List Node} (isStage : Bool) (h : as.Perm bs) (temporary : Text) :
    (handed isStage as temporary).Perm (handed isStage bs temporary) := by
  cases isStage with
  | false => exact .nil
  | true => exact (h.flatMap_right _).map _

theorem pipes_arg {arg value : Node} (harg : arg.Proper) (hk : arg.kind = .positionalArg ∨ arg.kind = .namedArg)
    (h : argValue? arg = some value) : value ∈ arg.children ∧ arg.pipes = value.pipes := by
  have hfits := harg.shaped.fits
  rw [argValue?] at h
  split at h
  · rename_i hnamed
    rw [Fits, hnamed] at hfits
    rw [pipes_of_kind hnamed (by decide)]
    obtain ⟨name, value', hchildren, hname, -⟩ := hfits
    rw [child?, hchildren] at h
    obtain rfl : value' = value := Option.some.inj h
    have hleaf : name.pipes = [] := (harg.part (by rw [hchildren]; simp)).pipes_leaf hname rfl
    rw [hchildren, List.flatMap_cons, hleaf, List.flatMap_singleton]
    exact ⟨by simp, rfl⟩
  · rename_i hnamed
    have hpositional := hk.resolve_right hnamed
    rw [Fits, hpositional] at hfits
    rw [pipes_of_kind hpositional (by decide)]
    obtain ⟨value', hchildren, -⟩ := hfits
    rw [child?, hchildren] at h
    obtain rfl : value' = value := Option.some.inj h
    rw [hchildren, List.flatMap_singleton]
    exact ⟨by simp, rfl⟩

theorem pipes_placeholder {value : Node} (hvalue : value.Proper) (h : isPlaceholder value = true) : value.pipes = [] := by
  unfold isPlaceholder at h
  obtain ⟨hk, h⟩ := Bool.and_eq_true_iff.mp h
  rw [pipes_of_kind (eq_of_beq hk) (by decide)]
  split at h
  · rename_i part hchildren
    obtain ⟨hpart, -⟩ := Bool.and_eq_true_iff.mp h
    rw [hchildren, List.flatMap_singleton]
    exact (hvalue.part (by rw [hchildren]; simp)).pipes_leaf (eq_of_beq hpart) rfl
  · cases h

theorem accounts_argument {around arg : Node} {isStage : Bool} {a : Arg} (hsub : n.Covered sub) (harg : arg.Proper)
    (hin : arg ∈ n.preorder) (hk : arg.kind = .positionalArg ∨ arg.kind = .namedArg)
    (h : argument sub around isStage arg = .ok a) :
    Accounts n.Replaces n.Mentions arg.pipes (handed isStage [arg]) fun t => a.gen t := by
  obtain ⟨value, hvalue, hread⟩ := argument_eq_ok h
  obtain ⟨hmem, hpipes⟩ := pipes_arg harg hk hvalue
  have hplaceholders : placeholders [arg] = [value].filter isPlaceholder := by
    rw [placeholders, List.flatMap_singleton, hvalue, Option.toList_some]
  rw [hpipes]
  rcases hread with ⟨hplaced, rfl⟩ | ⟨hplaced, e, he, rfl⟩
  · obtain ⟨rfl, htaken⟩ := Bool.and_eq_true_iff.mp hplaced
    have hgiven : handed true [arg] = fun t => [.load value.span t] := by
      funext t
      rw [handed, if_pos rfl, hplaceholders, List.filter_cons_of_pos htaken]
      rfl
    rw [pipes_placeholder (harg.part hmem) htaken, hgiven]
    exact .access fun _ => rfl
  · have hgiven : handed isStage [arg] = fun _ => [] := by
      funext t
      cases isStage with
      | false => rfl
      | true =>
        rw [Bool.true_and] at hplaced
        rw [handed, if_pos rfl, hplaceholders, List.filter_cons_of_neg (ne_true_of_eq_false hplaced)]
        rfl
    have hcovers := hsub arg hin value hmem e he
    rw [Covers, List.flatMap_singleton] at hcovers
    rw [hgiven]
    exact hcovers

theorem handed_nil (isStage : Bool) : handed isStage [] = fun _ => [] := by
  cases isStage <;> rfl

theorem handed_cons (isStage : Bool) (arg : Node) (args : List Node) :
    handed isStage (arg :: args) = fun t => handed isStage [arg] t ++ handed isStage args t :=
  funext fun t => handed_append isStage [arg] args t

theorem accounts_positional {isStage : Bool} {args : List Node} {as : List Arg}
    (h : List.Forall₂ (fun arg a => Accounts n.Replaces n.Mentions arg.pipes (handed isStage [arg]) fun t => Arg.gen t a)
      args as) :
    Accounts n.Replaces n.Mentions (args.flatMap pipes) (handed isStage args) fun t => Arg.genAll t as := by
  induction h with
  | nil =>
    rw [handed_nil]
    exact .nil
  | cons ha _ ih =>
    rw [handed_cons, List.flatMap_cons]
    exact ha.append ih

theorem accounts_named {isStage : Bool} {args : List Node} {as : List NamedArg} (around : Span)
    (h : List.Forall₂ (fun arg a =>
      Accounts n.Replaces n.Mentions arg.pipes (handed isStage [arg]) fun t => Arg.gen t (NamedArg.arg a)) args as) :
    Accounts n.Replaces n.Mentions (args.flatMap pipes) (handed isStage args) fun t => NamedArg.genAll around t as := by
  induction h with
  | nil =>
    rw [handed_nil]
    exact .nil
  | @cons arg a args as ha _ ih =>
    obtain ⟨name, a⟩ := a
    rw [handed_cons, List.flatMap_cons]
    exact ((Accounts.push around (.ofText name)).append ha).append ih

/-! ## Calls -/

/-- The arguments of a call that is read below a node. -/
theorem accounts_arguments {around call : Node} {isStage : Bool} {name : Text} {args : List Node} {c : Call}
    (hsub : n.Covered sub) (hin : call ∈ n.preorder) (hcall : call.Proper) (hargs : ∀ arg ∈ args, arg ∈ call.children)
    (h : arguments sub around isStage call name args = .ok c) :
    ∃ positional named, c = .mk call.span name positional named ∧ ∀ span,
      Accounts n.Replaces n.Mentions (args.flatMap pipes) (handed isStage args)
        fun t => Arg.genAll t positional ++ NamedArg.genAll span t named := by
  obtain ⟨positional, named, rfl, hpositional, hnamed, hkinds⟩ := arguments_eq_ok h
  refine ⟨positional, named, rfl, fun span => ?_⟩
  have harg : ∀ arg ∈ args, ∀ a, argument sub around isStage arg = .ok a →
      Accounts n.Replaces n.Mentions arg.pipes (handed isStage [arg]) fun t => a.gen t := by
    intro arg hmem a ha
    have hbelow := (within_child (hargs arg hmem)).mem
    exact accounts_argument hsub (hcall.part (hargs arg hmem)) (preorder_subset hin arg hbelow) (hkinds arg hmem) ha
  have hfirst := accounts_positional (n := n) (forall₂_of_mapM hpositional fun arg hmem a ha =>
    harg arg (List.mem_of_mem_filter hmem) a ha)
  have hsecond := accounts_named (n := n) span (forall₂_of_mapM hnamed fun arg hmem a ha => by
    obtain ⟨label, value, -, hvalue, rfl⟩ := namedArgument_eq_ok ha
    exact harg arg (List.mem_of_mem_filter hmem) value hvalue)
  have hperm : (args.filter (·.kind == .positionalArg) ++ args.filter (·.kind == .namedArg)).Perm args := by
    have hsecondKind : args.filter (·.kind == .namedArg) = args.filter fun arg => !arg.kind == .positionalArg := by
      refine List.filter_congr fun arg hmem => ?_
      rcases hkinds arg hmem with hk | hk <;> rw [hk] <;> rfl
    rw [hsecondKind]
    exact List.filter_append_perm _ args
  -- The code takes the positional arguments first, wherever those with names stand between them.
  have hboth := hfirst.append hsecond
  rw [← List.flatMap_append] at hboth
  refine (hboth.perm (hperm.flatMap_right _)).given_perm fun t => ?_
  rw [← handed_append]
  exact handed_perm isStage hperm t

theorem pipes_call {call : Node} (hcall : call.Proper) (hk : call.kind = .functionCall) :
    call.pipes = (call.children.drop 1).flatMap pipes := by
  have hfits := hcall.shaped.fits
  rw [Fits, hk] at hfits
  obtain ⟨name, args, hchildren, hname, -⟩ := hfits
  have hleaf : name.pipes = [] := (hcall.part (by rw [hchildren]; simp)).pipes_leaf hname rfl
  rw [pipes_of_kind hk (by decide), hchildren, List.flatMap_cons, hleaf]
  rfl

/-- The code of a call, which may read its first argument from a temporary variable. -/
theorem accounts_call {ps : List Node} {given : Text → List Instruction} {positional : List Arg} {named : List NamedArg}
    {name : Text} (span around : Span) (implicit : Bool) (hname : n.Mentions (.load span name))
    (hargs : Accounts n.Replaces n.Mentions ps given
      fun t => Arg.genAll t positional ++ NamedArg.genAll around t named) :
    Accounts n.Replaces n.Mentions ps (fun t => (if implicit then [.load around t] else []) ++ given t)
      fun t => .load span name ++ (if implicit then .load around t else .nil) ++ Arg.genAll t positional ++
        NamedArg.genAll around t named ++ .push span (.ofNat (positional.length + if implicit then 1 else 0)) ++
        .push span (.ofNat named.length) ++ .instr { op := .call, span } := by
  have hfront : Accounts n.Replaces n.Mentions [] (fun t => if implicit then [.load around t] else [])
      fun t => if implicit then .load around t else .nil := by
    cases implicit with
    | false => exact .nil
    | true => exact .access (i := fun t => .load around t) fun _ => rfl
  have hloads := (Accounts.name (i := .load span name) rfl hname).append hfront
  have hcounts : Accounts n.Replaces n.Mentions [] (fun _ : Text => []) fun _ =>
      .push span (.ofNat (positional.length + if implicit then 1 else 0)) ++ .push span (.ofNat named.length) ++
        .instr { op := .call, span } :=
    ((Accounts.push ..).append (Accounts.push ..)).append (.plain fun _ => rfl)
  have hcall := (hloads.append hargs).append hcounts
  simp only [List.nil_append, List.append_nil, ← Gen.append_assoc] at hcall
  exact hcall

theorem covers_callOf (hsub : n.Covered sub) (hn : n.Proper) (hk : n.kind = .functionCall) (h : callOf sub n = .ok e) :
    n.Covers n.children fun _ => e.gen := by
  obtain ⟨name, hname, h⟩ := bind_eq_ok.mp h
  obtain ⟨c, hcall, h⟩ := bind_eq_ok.mp h
  cases h
  have hin := n.mem_preorder_self
  obtain ⟨positional, named, rfl, hargs⟩ :=
    accounts_arguments hsub hin hn (fun arg harg => List.mem_of_mem_drop harg) hcall
  have hmentions := mentions_callee hin hk (by decide) hname (.load n.span name) rfl
  -- Without a temporary variable the code is that for any name of one.
  have hcode := (accounts_call n.span n.span false hmentions (hargs n.span)).comp fun _ : Text => []
  rw [← pipes_call hn hk, pipes_of_kind hk (by decide)] at hcode
  exact hcode

theorem placeholders_eq_nil {args : List Node} : placeholders args = [] ↔ args.any isPlaced = false := by
  rw [placeholders, List.flatMap_eq_nil_iff, List.any_eq_false]
  refine forall₂_congr fun arg _ => ?_
  rw [isPlaced]
  cases argValue? arg <;> simp

/-- What a stage reads: the first argument, unless a placeholder stands for it. -/
theorem taken_eq (pipe stage : Node) (temporary : Text) :
    (if !stage.stageArgs.any isPlaced then [.load pipe.span temporary] else []) ++ handed true stage.stageArgs temporary =
      pipe.taken temporary stage := by
  rw [taken, handed, if_pos rfl]
  cases hplaceholders : placeholders stage.stageArgs with
  | nil =>
    rw [placeholders_eq_nil.mp hplaceholders]
    rfl
  | cons value values =>
    have hany : stage.stageArgs.any isPlaced = true := by
      refine Bool.not_eq_false _ ▸ fun hnone => ?_
      rw [placeholders_eq_nil.mpr hnone] at hplaceholders
      cases hplaceholders
    rw [hany]
    rfl

/-- A stage of a pipe reads the temporary variable of the pipe. -/
theorem accounts_stage {stage : Node} {c : Call} (hsub : n.Covered sub) (hn : n.Proper) (hstage : stage ∈ n.children)
    (h : OfTree.stage sub n stage = .ok c) :
    Accounts n.Replaces n.Mentions stage.pipes (fun t => n.taken t stage) fun t => c.gen n.span (some t) := by
  have hin := (within_child hstage).mem
  have hcommon : ∀ k name, stage.kind = k → k ≠ .interpolation → stage.pipes = stage.stageArgs.flatMap pipes →
      callee stage = .ok name → arguments sub n true stage name stage.stageArgs = .ok c →
      Accounts n.Replaces n.Mentions stage.pipes (fun t => n.taken t stage) fun t => c.gen n.span (some t) := by
    intro k name hk hne hpipes hname hcall
    have hargs : ∀ arg ∈ stage.stageArgs, arg ∈ stage.children := by
      intro arg harg
      rw [stageArgs] at harg
      split at harg
      · exact List.mem_of_mem_drop harg
      · cases harg
    have htakes := takesPiped_arguments hcall
    obtain ⟨positional, named, rfl, hargs⟩ := accounts_arguments hsub hin (hn.part hstage) hargs hcall
    have hmentions := mentions_callee hin hk hne hname (.load stage.span name) rfl
    have hcode := accounts_call stage.span n.span (!stage.stageArgs.any isPlaced) hmentions (hargs n.span)
    rw [← htakes, ← hpipes] at hcode
    refine hcode.given_perm fun t => .of_eq ?_
    rw [htakes]
    exact taken_eq n stage t
  unfold OfTree.stage at h
  split at h
  · rename_i hk
    split at h
    · cases h
    · obtain ⟨name, hname, h⟩ := bind_eq_ok.mp h
      have hargs : stage.stageArgs = stage.children.drop 1 := if_pos hk
      exact hcommon _ name hk (by decide) (by rw [hargs, pipes_call (hn.part hstage) hk]) hname (by rwa [hargs])
  · rename_i hk
    obtain ⟨name, hname, h⟩ := bind_eq_ok.mp h
    have hargs : stage.stageArgs = [] := if_neg (by rw [hk]; decide)
    have hfits := (hn.part hstage).shaped.fits
    rw [Fits, hk] at hfits
    obtain ⟨callee, hchildren, hidentifier⟩ := hfits
    have hleaf : callee.pipes = [] :=
      ((hn.part hstage).part (by rw [hchildren]; simp)).pipes_leaf hidentifier rfl
    have hpipes : stage.pipes = stage.stageArgs.flatMap pipes := by
      rw [hargs, pipes_of_kind hk (by decide), hchildren, List.flatMap_singleton, hleaf, List.flatMap_nil]
    exact hcommon _ name hk (by decide) hpipes hname (by rwa [hargs])
  · cases h

/-! ## Pipes -/

/-- The stages of a pipe store its temporary variable, and read it. -/
theorem accounts_stages {stages : List Node} {calls : List Call}
    (h : List.Forall₂ (fun stage c => Accounts n.Replaces n.Mentions stage.pipes (fun t => n.taken t stage)
      fun t => Call.gen n.span (some t) c) stages calls) :
    Accounts n.Replaces n.Mentions (stages.flatMap pipes)
      (fun t => stages.flatMap fun stage => { op := .store, name := t, span := n.span } :: n.taken t stage)
      fun t => Expr.genStages n.span t calls := by
  induction h with
  | nil => exact .nil
  | cons hstage _ ih =>
    have hstore : Accounts n.Replaces n.Mentions [] (fun t => [{ op := .store, name := t, span := n.span }]) fun t =>
        .instr { op := .store, name := t, span := n.span } ++ .instr { op := .pop, span := n.span } :=
      (Accounts.access (i := fun t => { op := .store, name := t, span := n.span }) fun _ => rfl).append
        (.plain fun _ => rfl)
    exact (hstore.append hstage).append ih

theorem accounts_pipeline (hsub : n.Covered sub) (hn : n.Proper) (hk : n.kind = .pipeExpr) (h : pipeline sub n = .ok e) :
    Accounts n.Replaces n.Mentions n.pipes (fun _ : Text => []) fun _ => e.gen := by
  unfold pipeline at h
  split at h
  · rename_i first second rest hstages
    obtain ⟨value, hvalue, h⟩ := bind_eq_ok.mp h
    obtain ⟨calls, hcalls, h⟩ := bind_eq_ok.mp h
    cases h
    have hmem : ∀ c ∈ first :: second :: rest, c ∈ n.children := fun c hc => List.mem_of_mem_filter (hstages ▸ hc)
    obtain ⟨hfirst, hmem⟩ := List.forall_mem_cons.mp hmem
    have hgiven : n.carried = fun t => (second :: rest).flatMap fun stage =>
        { op := .store, name := t, span := n.span } :: n.taken t stage := by
      funext t
      rw [carried, stages, hstages]
      rfl
    have hcode := accounts_stages (n := n) (forall₂_of_mapM hcalls fun stage hstage c hc =>
      accounts_stage hsub hn (hmem stage hstage) hc)
    rw [← hgiven] at hcode
    -- The first value is no stage: its pipes are numbered before this one, those of the stages behind it.
    have hboth := Accounts.append (hsub.child hfirst hvalue) hcode.withTemporary
    refine Accounts.perm hboth ?_
    rw [pipes_eq, if_pos hk, ← hn.flatMap_stages, stages, hstages, List.flatMap_singleton, @List.flatMap_cons _ _ first]
    exact List.perm_middle
  · cases h

/-! ## Nodes -/

/-- The names that the code of a node accesses: its own, if it is one, and those below it. -/
def Names (n : Node) (i : Instruction) : Prop := n.kind = .identifier ∧ i = .load n.span n.text ∨ n.Mentions i

theorem accounts_ofParts (hsub : n.Covered sub) (hn : n.Proper) (h : ofParts sub n = .ok e) :
    Accounts n.Replaces (Names n) n.pipes (fun _ : Text => []) fun _ => e.gen := by
  have hcovers {k : Kind} (hk : n.kind = k) (hne : k ≠ .pipeExpr) (hcode : n.Covers n.children fun _ => e.gen) :
      Accounts n.Replaces (Names n) n.pipes (fun _ : Text => []) fun _ => e.gen := by
    rw [pipes_of_kind hk hne]
    exact Accounts.imp hcode (fun _ hm => hm) fun _ => .inr
  have hleaf {k : Kind} (hk : n.kind = k) (hleaf : k.isLeaf = true) (value : Literal) (he : e = .literal n.span value) :
      Accounts n.Replaces (Names n) n.pipes (fun _ : Text => []) fun _ => e.gen := by
    rw [hn.pipes_leaf hk hleaf, he]
    exact .push n.span value
  have hfits := hn.shaped.fits
  unfold ofParts at h
  split at h
  case h_18 => cases h
  all_goals
    rename_i hk
    rw [Fits, hk] at hfits
  case h_1 =>
    unfold number at h
    split at h
    · cases h
      exact hleaf hk rfl _ rfl
    · cases h
    · cases h
  case h_2 =>
    cases h
    exact hleaf hk rfl _ rfl
  case h_3 =>
    unfold regex at h
    dsimp only at h
    split at h
    · cases h
    · split at h
      · cases h
      · split at h
        · cases h
        · cases h
          exact hleaf hk rfl _ rfl
  case h_4 | h_5 => exact hcovers hk (by decide) (covers_fragments hsub hn h)
  case h_6 =>
    cases h
    rw [hn.pipes_leaf hk rfl]
    exact .name (i := .load n.span n.text) rfl (.inl ⟨hk, rfl⟩)
  case h_7 => exact hcovers hk (by decide) (covers_dotGet hn hk hfits h)
  case h_8 => exact hcovers hk (by decide) (covers_binOp hsub hn hfits h)
  case h_9 => exact hcovers hk (by decide) (covers_conditionalOp hsub hn hfits h)
  case h_10 => exact hcovers hk (by decide) (covers_assignment hsub hn hk hfits h)
  case h_11 => exact hcovers hk (by decide) (covers_paren hsub h)
  case h_12 => exact (accounts_pipeline hsub hn hk h).imp (fun _ hm => hm) fun _ => .inr
  case h_13 => exact hcovers hk (by decide) (covers_functionOf hsub hn hfits h)
  case h_14 => exact hcovers hk (by decide) (covers_callOf hsub hn hk h)
  case h_15 =>
    obtain ⟨name, hname, h⟩ := bind_eq_ok.mp h
    cases h
    exact hcovers hk (by decide) (covers_callOrIdentifier hn hk hfits hname)
  case h_16 => exact hcovers hk (by decide) (covers_conditional hsub hn hk h)
  case h_17 =>
    obtain ⟨es, hes, h⟩ := bind_eq_ok.mp h
    cases h
    exact hcovers hk (by decide) (covers_block hsub hes)

/-- The nodes below a node have code that holds their pipes if nodes have so wherever they stand. -/
theorem covered_of_accounts (hn : n.Proper) (h : ∀ c e, c.Proper → sub c = .ok e →
      Accounts c.Replaces (Names c) c.pipes (fun _ : Text => []) fun _ => e.gen) : n.Covered sub := by
  intro q hq c hc e he
  have hin := preorder_subset hq c (within_child hc).mem
  have hcode := h c e ((hn.of_mem_preorder hq).part hc) he
  rw [Covers, List.flatMap_singleton]
  refine hcode.imp (fun m hm => hm.of_mem hin) ?_
  -- Whether a name is interpolated is said by the node around it.
  rintro i (⟨hk, rfl⟩ | hmentions)
  · exact ⟨q, hq, c, hc, .inl hk, rfl, fun _ => rfl⟩
  · exact hmentions.of_mem hin

/-- The code of every node holds the pipes at and below it. -/
theorem accounts_ofNodeWithin {fuel : Nat} (hn : n.Proper) (h : ofNodeWithin fuel n = .ok e) :
    Accounts n.Replaces (Names n) n.pipes (fun _ : Text => []) fun _ => e.gen := by
  induction fuel generalizing n e with
  | zero => cases h
  | succ fuel ih => exact accounts_ofParts (covered_of_accounts hn fun _ _ hc he => ih hc he) hn h

theorem covers_ofProgram (hn : n.Proper) (h : Expr.ofProgram n = .ok es) :
    n.Covers n.children fun _ => Expr.genStatements .zero es := by
  have hcovered : n.Covered Expr.ofNode := covered_of_accounts hn fun _ _ hc he => accounts_ofNodeWithin hc he
  exact covers_statements .zero (forall₂_of_sub hcovered (fun _ hc => hc) h)

end OfTree

/-! ## Scripts -/

/-- No name that the grammar takes is that of a temporary variable. -/
theorem Token.isTemporary_of_isName {name : Text} (h : isName name = true) : Program.isTemporary name = false := by
  cases htemporary : Program.isTemporary name with
  | false => rfl
  | true =>
    rw [Program.isTemporary, List.isPrefixOf_iff_prefix] at htemporary
    obtain ⟨tail, rfl⟩ := htemporary
    have hnext := Text.next?_cons_ascii (b := Text.byte '_') (by decide) ("pipe_" ++ tail)
    have hstart := isNameStart_of_namePrefix (namePrefix_of_front (List.prefix_refl _) h) (length_pos_of_isName h) hnext
    exact absurd hstart (by decide)

/-- The accesses of a program to temporary variables. -/
def Program.temporaryAccesses (p : Program) : List Instruction :=
  p.instructions.filter fun i => isTemporary i.name && i.isAccess

/-- The instruction reads a name that is interpolated below a node. -/
def Tree.Node.Interpolates (n : Node) (i : Instruction) : Prop :=
  ∃ m ∈ n.preorder, m.kind = .interpolation ∧ ∃ name ∈ m.children, name.kind = .identifier ∧ i = .load name.span name.text

theorem Tree.Node.isTemporary_carriedFrom (k : Nat) (ps : List Node) :
    ∀ i ∈ carriedFrom k ps, Program.isTemporary i.name = true := by
  intro i hi
  obtain ⟨⟨pipe, m⟩, -, hi⟩ := List.mem_flatMap.mp hi
  obtain ⟨stage, -, hi⟩ := List.mem_flatMap.mp hi
  suffices hname : i.name = Gen.temporary m by
    rw [hname]
    exact Gen.isTemporary_temporary m
  rcases List.mem_cons.mp hi with rfl | hi
  · rfl
  · rw [taken] at hi
    split at hi
    · rw [List.mem_singleton.mp hi]
      rfl
    · obtain ⟨value, -, rfl⟩ := List.mem_map.mp hi
      rfl

/-- A name that code takes from a tree and that is that of a temporary variable is interpolated. -/
theorem Tree.Node.Mentions.interpolates {n : Node} {i : Instruction} (h : n.Mentions i) (hn : n.Proper)
    (hi : Program.isTemporary i.name = true) : n.Interpolates i := by
  obtain ⟨m, hm, name, hname, hkind, htext, hload⟩ := h
  have hproper := hn.of_mem_preorder hm
  by_cases hk : m.kind = .interpolation
  · refine ⟨m, hm, hk, name, hname, ?_, hload hk⟩
    have hfits := hproper.shaped.fits
    rw [Fits, hk] at hfits
    obtain ⟨c, hchildren, hstatement⟩ := hfits
    rw [hchildren, List.mem_singleton] at hname
    subst hname
    rcases hkind with hkind | hkind
    · exact hkind
    · rw [hkind] at hstatement
      cases hstatement
  · rw [htext, Token.isTemporary_of_isName (hproper.spelled.names hk name hname hkind)] at hi
    cases hi

/-- The tree of a script that compiles has no faults. -/
theorem Script.proper_of_compile {s : Script} {p : Program} (h : s.compile = .ok p) :
    s.parse.tree.kind = .program ∧ s.parse.tree.Proper ∧
      ∃ es, Expr.ofProgram s.parse.tree = .ok es ∧ p = Expr.compile s.source s.filename es := by
  unfold compile at h
  dsimp only at h
  split at h
  · cases h
  · have herrors : s.parse.tree.errors = [] := by
      by_contra herrors
      obtain ⟨stop, hstop⟩ := @Tree.Grammar.ofTree_of_errors s.source s.filename _ herrors
      rw [hstop] at h
      cases h
    obtain ⟨stmts, t, houtcome⟩ := Tree.Grammar.parse_outcome s.setup False False.elim
    obtain ⟨hk, hshaped⟩ := houtcome.shaped herrors
    exact ⟨hk, ⟨hshaped, houtcome.spelled⟩, Program.ofTree_eq_ok h⟩

/-- Every pipe of a script that compiles has a temporary variable of its own, apart from pipes in alternatives
that are replaced. Besides the code of the pipes, which stores and reads these variables, only the code of an
interpolated name accesses a temporary variable, namely one that is spelled like that. -/
theorem Script.compile_temporaries {s : Script} {p : Program} (h : s.compile = .ok p) :
    Function.Injective Gen.temporary ∧ ∃ pipes replaced interpolated,
      s.parse.tree.pipes.Perm (pipes ++ replaced) ∧ (∀ m ∈ replaced, s.parse.tree.Replaces m) ∧
      p.temporaryAccesses.Perm (carriedFrom 0 pipes ++ interpolated) ∧
      ∀ i ∈ interpolated, s.parse.tree.Interpolates i := by
  refine ⟨Gen.temporary_injective, ?_⟩
  obtain ⟨hk, hproper, es, hes, rfl⟩ := proper_of_compile h
  have hcovers := (OfTree.covers_ofProgram hproper hes).snoc (i := fun _ => { op := .halt }) fun _ => rfl
  obtain ⟨names, pipes, replaced, hcensus, hpipes, hreplaced, hnames⟩ := hcovers
  rw [← pipes_of_kind hk (by decide)] at hpipes
  refine ⟨pipes, replaced, names.filter fun i => Program.isTemporary i.name, hpipes, hreplaced, ?_, ?_⟩
  · have haccesses := (hcensus.accesses [] {}).filter fun i => Program.isTemporary i.name
    have hcarried : (carriedFrom 0 pipes).filter (fun i => Program.isTemporary i.name) = carriedFrom 0 pipes :=
      List.filter_eq_self.mpr (isTemporary_carriedFrom 0 pipes)
    rw [List.nil_append, List.filter_append, hcarried, List.filter_filter] at haccesses
    exact haccesses.trans List.perm_append_comm
  · intro i hi
    obtain ⟨hi, htemporary⟩ := List.mem_filter.mp hi
    exact (hnames i hi).interpolates hproper htemporary

theorem Script.compile_temporaries_interpolated :
    let s : Script := { source := "1 | f $_pipe_1" }
    ∃ p, s.compile = .ok p ∧ p.temporaryAccesses =
        [{ op := .store, name := "_pipe_1", span := ⟨0, 14⟩ }, .load ⟨0, 14⟩ "_pipe_1", .load ⟨7, 14⟩ "_pipe_1"] ∧
      Function.Injective Gen.temporary ∧ ∃ pipes replaced interpolated,
        s.parse.tree.pipes.Perm (pipes ++ replaced) ∧ (∀ m ∈ replaced, s.parse.tree.Replaces m) ∧
        p.temporaryAccesses.Perm (carriedFrom 0 pipes ++ interpolated) ∧
        ∀ i ∈ interpolated, s.parse.tree.Interpolates i := by
  intro s
  let tree : Node :=
    { kind := .program, span := ⟨0, 14⟩
      children := [
        { kind := .pipeExpr, span := ⟨0, 14⟩
          children := [
            { kind := .number, span := ⟨0, 1⟩, text := "1" },
            { kind := .operator, span := ⟨2, 3⟩, text := "|" },
            { kind := .functionCall, span := ⟨4, 14⟩
              children := [
                { kind := .identifier, span := ⟨4, 5⟩, text := "f" },
                { kind := .positionalArg, span := ⟨6, 14⟩
                  children := [
                    { kind := .word, span := ⟨6, 14⟩
                      children := [
                        { kind := .interpolation, span := ⟨6, 14⟩
                          children := [{ kind := .identifier, span := ⟨7, 14⟩, text := "_pipe_1" }] }] }] }] }] }] }
  have hparse : (s.parse.tree, s.parse.failure?) = (tree, none) := by cbv
  obtain ⟨htree, hfailure⟩ := Prod.mk.inj hparse
  obtain ⟨p, hp, haccesses⟩ : ∃ p, Program.ofTree s.source [] (some tree) = .ok p ∧ p.temporaryAccesses =
      [{ op := .store, name := "_pipe_1", span := ⟨0, 14⟩ }, .load ⟨0, 14⟩ "_pipe_1", .load ⟨7, 14⟩ "_pipe_1"] :=
    ⟨_, rfl, rfl⟩
  have hcompile : s.compile = .ok p := by
    rw [Script.compile, hfailure, htree]
    exact hp
  exact ⟨p, hcompile, haccesses, Script.compile_temporaries hcompile⟩

end Bareword
