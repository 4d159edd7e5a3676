import Bareword.Proofs.Evaluation.Nodes

/-! # Code of calls with arguments and of pipes

The value that comes through a pipe is in a temporary variable, from which the code of the arguments
takes it. Nested pipes have larger numbers, so they leave it alone.

* `sim_callOf`: a call of a name, which may be a stage of a pipe.
* `sim_stages`: the stages of a pipe, one after the other.
-/

namespace Bareword.Evaluation
set_option autoImplicit false
open Bareword.Tree (Node)
open OfTree (Result)
open Machine (View Trouble namedEntries namedArgs callEntries)

section Arguments
variable {G : Ground} {calls k : Nat} {compile : Node → Result Expr}
  {sub : Place → Node → Eval Value} {n : Node} {temp : Option (Nat × Value)}

def pipedName (temp : Option (Nat × Value)) : Option Text := temp.map fun x => Gen.temporary x.1

/-! ## Arguments -/

theorem within_argValue? {arg value : Node} (h : OfTree.argValue? arg = some value) :
    value.Within arg := by
  unfold OfTree.argValue? at h
  split at h
  · exact Tree.Node.within_child (Tree.Node.mem_of_child? h)
  · exact Tree.Node.within_child (Tree.Node.mem_of_child? h)

theorem sim_argument {around arg : Node} {a : Arg} (hb : Below G calls compile sub n)
    (ht : ∀ x ∈ temp, x.1 ≤ k) (hin : arg.Within n)
    (h : OfTree.argument compile around temp.isSome arg = .ok a) :
    Sim G calls k temp [] (a.gen ((pipedName temp).getD []))
      (fun pl => evalArg G.setting sub (temp.map (·.2)) pl arg) (fun a => [a]) := by
  unfold OfTree.argument at h
  unfold evalArg
  split at h
  · cases h
  · rename_i value hvalue
    have hvin := (within_argValue? hvalue).trans hin
    simp only [hvalue]
    split at h
    · rename_i hpiped
      cases h
      cases temp with
      | none => simp at hpiped
      | some x =>
        have hplace : OfTree.isPlaceholder value = true := by simpa using hpiped
        simp only [Option.map_some, hplace, if_true]
        rw [Arg.gen]
        exact sim_load_temporary
    · rename_i hpiped
      obtain ⟨e, he, h⟩ := bind_eq_ok.mp h
      cases h
      rw [Arg.gen]
      have hsub := (hb value e hvin he k).known ht
      cases temp with
      | none => exact hsub
      | some x =>
        have hplace : ¬ OfTree.isPlaceholder value = true := by simpa using hpiped
        simp only [Option.map_some, if_neg hplace]
        exact hsub

theorem genAll_eq (name : Text) (args : List Arg) :
    Arg.genAll name args = (args.map (Arg.gen name)).foldr (· ++ ·) .nil := by
  induction args with
  | nil => rfl
  | cons a args ih =>
    rw [Arg.genAll, ih]
    rfl

theorem sim_positional {around : Node} {args : List Node} {as : List Arg}
    (hb : Below G calls compile sub n) (ht : ∀ x ∈ temp, x.1 ≤ k) (hin : ∀ arg ∈ args, arg.Within n)
    (h : args.mapM (OfTree.argument compile around temp.isSome) = .ok as) :
    Sim G calls k temp [] (Arg.genAll ((pipedName temp).getD []) as)
      (fun pl => evalAll (evalArg G.setting sub (temp.map (·.2))) pl args) (fun vs => vs) := by
  rw [genAll_eq]
  refine sim_all (List.forall₂_map_right_iff.mpr (forall₂_of_mapM h fun arg hm a ha => ?_))
  exact sim_argument hb ht (hin arg hm) ha

theorem evalNamed_length {around : Span} {piped : Option Value} {args : List Node} {pl : Place}
    {s s' : State} {named : List (Text × Value)}
    (h : evalNamed G.setting sub around piped pl args s = .ok named s') :
    named.length = args.length := by
  induction args generalizing pl s named with
  | nil =>
    cases h
    rfl
  | cons arg args ih =>
    rw [evalNamed] at h
    cases hlabel : arg.first? .argName with
    | none =>
      rw [hlabel] at h
      cases h
    | some label =>
      rw [hlabel] at h
      obtain ⟨_, s₁, -, h⟩ := eval_bind_ok h
      obtain ⟨v, s₂, -, h⟩ := eval_bind_ok h
      obtain ⟨rest, s₃, hrest, h⟩ := eval_bind_ok h
      cases h
      rw [List.length_cons, List.length_cons, ih hrest]

theorem sim_named {around : Node} {args : List Node} {as : List NamedArg}
    (hb : Below G calls compile sub n) (ht : ∀ x ∈ temp, x.1 ≤ k) (hin : ∀ arg ∈ args, arg.Within n)
    (h : args.mapM (OfTree.namedArgument compile around temp.isSome) = .ok as) :
    Sim G calls k temp [] (NamedArg.genAll around.span ((pipedName temp).getD []) as)
      (fun pl => evalNamed G.setting sub around.span (temp.map (·.2)) pl args) namedEntries := by
  induction args generalizing as with
  | nil =>
    rw [List.mapM_nil] at h
    cases h
    exact .nil [] rfl
  | cons arg args ih =>
    rw [List.mapM_cons] at h
    obtain ⟨a, ha, h⟩ := bind_eq_ok.mp h
    obtain ⟨as, has, h⟩ := bind_eq_ok.mp h
    cases h
    obtain ⟨label, value, hlabel, hvalue, rfl⟩ := OfTree.namedArgument_eq_ok ha
    simp only [evalNamed, hlabel]
    rw [NamedArg.genAll, Gen.append_assoc]
    have hname : Sim G calls k temp []
        (.push around.span (.ofText (Text.dropTail "=" label.text)))
        (fun pl => hold G.setting around.span pl (.text (Text.dropTail "=" label.text)))
        (fun _ => [.text (Text.dropTail "=" label.text)]) := by
      refine sim_push fun b hb => ?_
      cases hb
      rfl
    have harg := sim_argument hb ht (hin arg (List.mem_cons_self ..)) hvalue
    have hrest := ih (fun m hm => hin m (List.mem_cons_of_mem _ hm)) has
    refine hname.seq fun _ => (harg.frame [_] rfl).seq fun v => ?_
    exact (hrest.frame [_, v] rfl).map ((Text.dropTail "=" label.text, v) :: ·) fun _ => rfl

/-! ## Calls -/

/-- The value that comes through a pipe as the first argument, unless some argument takes it. -/
theorem sim_front (G : Ground) (calls k : Nat) (span : Span) {implicit takes : Bool}
    (h : implicit = (temp.isSome && !takes)) :
    Sim G calls k temp [] (if implicit then .load span ((pipedName temp).getD []) else .nil)
      (fun pl => evalAll (fun pl v => hold G.setting span pl v) pl
        (if takes then [] else (temp.map (·.2)).toList)) (fun vs => vs) := by
  cases temp with
  | none =>
    subst h
    cases takes <;> exact .nil [] rfl
  | some x =>
    cases takes with
    | true =>
      subst h
      exact .nil [] rfl
    | false =>
      subst h
      have hload : Sim G calls k (some x) [] (.load span (Gen.temporary x.1))
          (fun pl => hold G.setting span pl x.2) (fun a => [a]) := sim_load_temporary
      have hall := sim_all (f := fun pl v => hold G.setting span pl v) (.cons hload .nil)
      rw [List.foldr_cons, List.foldr_nil, append_nil] at hall
      exact hall

theorem sim_counts {span : Span} (positional named : Nat) :
    Sim G calls k temp [] (.push span (.ofNat positional) ++ .push span (.ofNat named))
      (fun pl => do
        let _ ← hold G.setting span pl .null
        hold G.setting span (pl.more 1) .null)
      (fun _ => [.number (Binary.ofInt positional), .number (Binary.ofInt named)]) := by
  have hpush : ∀ count : Nat, Sim G calls k temp [] (.push span (.ofNat count))
      (fun pl => hold G.setting span pl .null) (fun _ => [.number (Binary.ofInt count)]) := by
    intro count
    refine sim_push fun b hb => ?_
    cases hb
    rfl
  exact (hpush positional).seq fun _ => (hpush named).frame [_] rfl

theorem length_front {implicit takes : Bool} (h : implicit = (temp.isSome && !takes)) :
    (if takes then [] else (temp.map (·.2)).toList).length = if implicit then 1 else 0 := by
  subst h
  cases temp <;> cases takes <;> rfl

theorem length_of_mapM {ε α β : Type} {f : α → Except ε β} {as : List α} {bs : List β}
    (h : as.mapM f = .ok bs) : as.length = bs.length :=
  List.Forall₂.length_eq (forall₂_of_mapM (R := fun _ _ => True) h fun _ _ _ _ => trivial)

/-- The numbers of arguments and the call itself, when the callee and its arguments are there. -/
theorem sim_callEnd {span : Span} (hbodies : Bodies G calls) (ht : ∀ x ∈ temp, x.1 ≤ k)
    (callee : Value) (positional : List Value) (named : List (Text × Value)) :
    Sim G calls k temp ((callee :: positional) ++ namedEntries named)
      (.push span (.ofNat positional.length) ++
        (.push span (.ofNat named.length) ++ .instr { op := .call, span }))
      (fun pl => do
        let held := 1 + positional.length + 2 * named.length
        let _ ← hold G.setting span (pl.more held) .null
        let _ ← hold G.setting span (pl.more (held + 1)) .null
        apply G.setting (enterWithin G.setting calls) span pl callee ⟨positional, namedArgs named⟩)
      (fun a => [a]) := by
  have hlen : ((callee :: positional) ++ namedEntries named).length =
      1 + positional.length + 2 * named.length := by
    simp [namedEntries, List.length_flatMap]
    omega
  rw [← Gen.append_assoc]
  refine Sim.congr (((sim_counts _ _).above _ hlen).seq fun _ =>
    sim_call hbodies ht callee positional named) fun pl => ?_
  rw [bind_assoc]
  rfl

theorem sim_evalCall (temp : Option (Nat × Value)) (around : Node) {span : Span} {name : Text} {args : List Node}
    {positional : List Arg} {named : List NamedArg} (hbodies : Bodies G calls)
    (hb : Below G calls compile sub n) (ht : ∀ x ∈ temp, x.1 ≤ k) (hn : G.hidden name = false)
    (hin : ∀ arg ∈ args, arg.Within n)
    (hp : (args.filter (·.kind == .positionalArg)).mapM
      (OfTree.argument compile around temp.isSome) = .ok positional)
    (hnamed : (args.filter (·.kind == .namedArg)).mapM
      (OfTree.namedArgument compile around temp.isSome) = .ok named)
    (htakes : temp.isSome = true →
      (Call.mk span name positional named).takesPiped = takesPlaceholder args) :
    Sim G calls k temp [] (Call.gen around.span (pipedName temp) (.mk span name positional named))
      (fun pl => evalCall G.setting (enterWithin G.setting calls) sub around.span span
        (temp.map (·.2)) pl name args) (fun a => [a]) := by
  have himplicit : ((pipedName temp).isSome && !(Call.mk span name positional named).takesPiped) =
      (temp.isSome && !takesPlaceholder args) := by
    rw [pipedName, Option.isSome_map]
    cases temp with
    | none => rfl
    | some x => rw [htakes rfl]
  rw [Call.gen]
  generalize ((pipedName temp).isSome && !(Call.mk span name positional named).takesPiped) = implicit
    at himplicit ⊢
  simp only [Gen.append_assoc]
  have hfilter : ∀ p : Node → Bool, ∀ arg ∈ args.filter p, arg.Within n := fun p arg ha =>
    hin arg (List.mem_filter.mp ha).1
  have hfront := sim_front G calls k around.span himplicit
  have hpositional := sim_positional hb ht (hfilter _) hp
  have hnames := sim_named hb ht (hfilter _) hnamed
  -- There are as many values as there are arguments in the code.
  have hcount : ∀ first rest : List Value,
      first.length = (if takesPlaceholder args then [] else (temp.map (·.2)).toList).length →
      rest.length = (args.filter (·.kind == .positionalArg)).length →
      positional.length + (if implicit then 1 else 0) = (first ++ rest).length := by
    intro first rest hf hr
    rw [List.length_append, hf, hr, length_front himplicit, length_of_mapM hp, Nat.add_comm]
  refine Sim.congr ((sim_load hn).seq fun callee =>
    Sim.seqOf (hfront.above [callee] rfl) (fun _ _ _ _ => evalAll_length) (fun first hfirst =>
      Sim.seqOf (hpositional.above (callee :: first) (Nat.add_comm _ 1))
        (fun _ _ _ _ => evalAll_length) (fun rest hrest =>
          Sim.seqOf (hnames.above (callee :: (first ++ rest)) (Nat.add_comm _ 1))
            (fun _ _ _ _ => evalNamed_length) (fun values hvalues => by
              rw [hcount first rest hfirst hrest, ← length_of_mapM hnamed, ← hvalues]
              exact sim_callEnd hbodies ht callee (first ++ rest) values)
            ⟨(args.filter (·.kind == .namedArg)).map fun _ => ([], .null), by simp⟩)
        ⟨(args.filter (·.kind == .positionalArg)).map fun _ => .null, by simp⟩)
      ⟨_, rfl⟩) fun pl => ?_
  rw [evalCall]
  simp only [bind_assoc]
  rfl

theorem arguments_eq_ok {around call : Node} {isStage : Bool} {name : Text} {args : List Node}
    {c : Call} (h : OfTree.arguments compile around isStage call name args = .ok c) :
    ∃ positional named, c = .mk call.span name positional named ∧
      (args.filter (·.kind == .positionalArg)).mapM (OfTree.argument compile around isStage) =
        .ok positional ∧
      (args.filter (·.kind == .namedArg)).mapM (OfTree.namedArgument compile around isStage) =
        .ok named ∧
      (isStage = true → c.takesPiped = takesPlaceholder args) := by
  obtain ⟨positional, named, rfl, hp, hn, -⟩ := OfTree.arguments_eq_ok h
  refine ⟨positional, named, rfl, hp, hn, fun hstage => ?_⟩
  subst hstage
  exact OfTree.takesPiped_arguments h

theorem sim_callOf {e : Expr} (hbodies : Bodies G calls) (hb : Below G calls compile sub n)
    (hc : G.Clear n) (h : OfTree.callOf compile n = .ok e) (hk : n.kind = .functionCall) :
    Sim G calls k none [] e.gen
      (fun pl => evalParts G.setting (enterWithin G.setting calls) sub pl n) (fun a => [a]) := by
  obtain ⟨name, hname, h⟩ := bind_eq_ok.mp h
  obtain ⟨c, hcall, h⟩ := bind_eq_ok.mp h
  cases h
  obtain ⟨m, hm, hkind, rfl⟩ := OfTree.callee_eq_ok hname
  obtain ⟨positional, named, rfl, hp, hn, -⟩ := arguments_eq_ok hcall
  have hhidden := hc.child (Tree.Node.mem_of_child? hm) (.inl hkind)
  unfold evalParts
  simp only [hk, hm]
  rw [Expr.gen_call]
  refine sim_evalCall none n hbodies hb (fun _ h => nomatch h) hhidden ?_ hp hn ?_
  · exact fun arg harg => Tree.Node.within_child (List.mem_of_mem_drop harg)
  · exact fun h => nomatch h

/-! ## Pipes -/

theorem sim_stage {stage : Node} {c : Call} {m : Nat} {u : Value} (hbodies : Bodies G calls)
    (hb : Below G calls compile sub n) (hc : G.Clear n) (hin : stage ∈ n.children)
    (h : OfTree.stage compile n stage = .ok c) :
    Sim G calls m (some (m, u)) [] (c.gen n.span (some (Gen.temporary m)))
      (fun pl => evalStage G.setting (enterWithin G.setting calls) sub n.span pl u stage)
      (fun a => [a]) := by
  have hcommon : ∀ (name : Text) (args : List Node), OfTree.callee stage = .ok name →
      (∀ arg ∈ args, arg ∈ stage.children) →
      OfTree.arguments compile n true stage name args = .ok c →
      args = (if stage.kind = .functionCall then stage.children.drop 1 else []) →
      Sim G calls m (some (m, u)) [] (c.gen n.span (some (Gen.temporary m)))
        (fun pl => evalStage G.setting (enterWithin G.setting calls) sub n.span pl u stage)
        (fun a => [a]) := by
    intro name args hname hargs hcall heq
    obtain ⟨l, hl, hkind, rfl⟩ := OfTree.callee_eq_ok hname
    obtain ⟨positional, named, rfl, hp, hn, htakes⟩ := arguments_eq_ok hcall
    have hhidden : G.hidden l.text = false :=
      (hc.within (Tree.Node.within_child hin)).child (Tree.Node.mem_of_child? hl) (.inl hkind)
    unfold evalStage
    simp only [hl, ← heq]
    refine sim_evalCall (some (m, u)) n hbodies hb ?_ hhidden ?_ hp hn htakes
    · intro x hx
      cases hx
      exact Nat.le_refl _
    · intro arg harg
      exact (Tree.Node.within_child (hargs arg harg)).trans (Tree.Node.within_child hin)
  unfold OfTree.stage at h
  split at h
  · rename_i hkind
    split at h
    · cases h
    · obtain ⟨name, hname, h⟩ := bind_eq_ok.mp h
      exact hcommon name _ hname (fun arg ha => List.mem_of_mem_drop ha) h (by rw [if_pos hkind])
  · rename_i hkind
    obtain ⟨name, hname, h⟩ := bind_eq_ok.mp h
    exact hcommon name [] hname (fun _ h => nomatch h) h (by rw [if_neg (by simp [hkind])])
  · cases h

/-- The stages of a pipe, whose temporary variable has the number `m`. Each puts the value so far
into the variable, so only those with smaller numbers are kept. -/
theorem sim_stages {m : Nat} {stages : List Call} {nodes : List Node} (hk : k < m)
    (h : List.Forall₂ (fun stage c => ∀ u, Sim G calls m (some (m, u)) []
      (Call.gen n.span (some (Gen.temporary m)) c)
      (fun pl => evalStage G.setting (enterWithin G.setting calls) sub n.span pl u stage)
      (fun a => [a])) nodes stages) :
    (∀ c, c.pipes ≤ (Expr.genStages n.span (Gen.temporary m) stages c).next.pipes) ∧
    ∀ c q pl base v s a, m ≤ c.pipes →
      G.image.Placed (Expr.genStages n.span (Gen.temporary m) stages) c q →
      Ready G calls none [a] q pl base v s →
      Ends G k v s
        (fun a => Ready G calls none [a]
          (q + (Expr.genStages n.span (Gen.temporary m) stages).size c) pl base)
        (evalStages G.setting (enterWithin G.setting calls) sub n.span pl a nodes s) := by
  induction h with
  | nil =>
    refine ⟨fun c => Nat.le_refl _, fun c q pl base v s a _ _ hr => ?_⟩
    exact ⟨v, .refl G k v s, hr⟩
  | @cons stage call nodes stages hstage _ ih =>
    obtain ⟨hgrows, hrest⟩ := ih
    simp only [Expr.genStages]
    refine ⟨fun c => Nat.le_trans ((hstage .null).grows _) (hgrows _), ?_⟩
    intro c q pl base v s a hm hp hr
    obtain ⟨hp, hplaced⟩ := Image.placed_append hp
    obtain ⟨hp, hcall⟩ := Image.placed_append hp
    obtain ⟨hstore, hpop⟩ := Image.placed_append hp
    obtain ⟨st⟩ := Image.placed_instr rfl hstore
    -- The value goes into the variable and off the stack.
    obtain ⟨v₁, hm₁, hr₁⟩ := ends_store_temporary hk st hr
    refine Ends.after hm₁ ?_
    obtain ⟨v₂, hm₂, hr₂⟩ := (sim_pop n.span a).run (k := m) _ _ pl base v₁ s hm hpop hr₁
    refine Ends.after (hm₂.weaken (Nat.le_of_lt hk)) ?_
    -- The stage knows the variable; afterwards it may be overwritten.
    have hrun := (hstage a).run _ _ pl base v₂ s hm hcall hr₂
    refine Ends.bind (hrun.weaken (Nat.le_of_lt hk)) fun b v₃ s₃ _ _ hr₃ => ?_
    have hr₃' : Ready G calls none [b] _ pl base v₃ s₃ := { hr₃ with piped := fun _ h => nomatch h }
    have hm' := Nat.le_trans hm ((hstage a).grows c)
    rw [Gen.size_append, ← Nat.add_assoc] at hplaced
    have hfinal := hrest _ _ pl base v₃ s₃ b hm' hplaced hr₃'
    rw [Gen.size_append, Gen.size_append _ (Call.gen _ _ _), ← Nat.add_assoc, ← Nat.add_assoc]
    exact hfinal

theorem sim_pipeline {e : Expr} (hbodies : Bodies G calls) (hb : Below G calls compile sub n)
    (hc : G.Clear n) (h : OfTree.pipeline compile n = .ok e) (hk : n.kind = .pipeExpr) :
    Sim G calls k none [] e.gen
      (fun pl => evalParts G.setting (enterWithin G.setting calls) sub pl n) (fun a => [a]) := by
  unfold OfTree.pipeline at h
  unfold evalParts
  simp only [hk]
  split at h
  · rename_i first second rest hparts
    obtain ⟨value, hvalue, h⟩ := bind_eq_ok.mp h
    obtain ⟨stages, hstages, h⟩ := bind_eq_ok.mp h
    cases h
    have hmem : ∀ m ∈ first :: second :: rest, m ∈ n.children := by
      intro m hm
      rw [← hparts] at hm
      exact (List.mem_filter.mp hm).1
    simp only [hparts]
    rw [Expr.gen_pipe]
    have hforall := fun m => forall₂_of_mapM hstages fun stage hs c hcall u =>
      sim_stage (m := m) (u := u) hbodies hb hc (hmem stage (List.mem_cons_of_mem _ hs)) hcall
    refine (hb.child (hmem first (by simp)) hvalue k).seq fun a => ?_
    refine ⟨fun c => ?_, fun c q pl base v s hkc hp hr => ?_⟩
    · have hgrows := (sim_stages (k := 0) (Nat.succ_pos _) (hforall (c.pipes + 1))).1
        { c with pipes := c.pipes + 1 }
      exact Nat.le_trans (Nat.le_succ _) hgrows
    · have hrun := (sim_stages (Nat.lt_succ_of_le hkc) (hforall (c.pipes + 1))).2
        { c with pipes := c.pipes + 1 } q pl base v s a (Nat.le_refl _) ⟨hp.loaded, hp.bodies⟩ hr
      exact hrun
  · cases h

end Arguments
end Bareword.Evaluation
