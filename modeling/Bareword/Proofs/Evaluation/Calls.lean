import Bareword.Proofs.Evaluation.Code

/-! # Code of functions and calls

A call of a function runs the code of its body in a new environment and comes back with one value
more on the stack.

* `sim_function`: the making of a function.
* `Bodies`: the code of every function body does what evaluation of the body does.
* `sim_call`, `sim_bare`: calls with arguments, and of a name by itself.
-/

namespace Bareword.Evaluation
set_option autoImplicit false
open Bareword.Tree (Node)
open Machine (View Goes Refuses Yields Leads Trouble namedEntries namedArgs callEntries)

variable {G : Ground} {calls k : Nat} {temp : Option (Nat × Value)}

/-! ## Making functions -/

/-- The making of a function, which evaluation keeps with its body. -/
theorem sim_function {span : Span} {params : List Text} {es : List Expr} {body : List Node}
    {fuel : Nat} (hclear : ∀ n ∈ body, G.Clear n)
    (hbody : body.mapM (OfTree.ofNodeWithin fuel) = .ok es)
    (hgrows : ∀ c, c.pipes ≤ (Expr.genStatements span es c).next.pipes) :
    Sim G calls k temp [] (.function span params (Expr.genStatements span es))
      (fun pl => do
        let s ← get
        set { s with functions := s.functions ++ [(⟨params, span, body⟩ : Lambda)] }
        hold G.setting span pl (.closure ⟨s.functions.length, params, 0, pl.env⟩))
      (fun a => [a]) where
  grows c := hgrows { c with functions := c.functions + 1 }
  run c q pl base v s _ hp hr := by
    obtain ⟨i, entry, hi, hop, hspan, hparams, htarget, -, hplaced⟩ := Image.placed_function hp
    have hleads : Leads (Machine.step G.image.code G.setting.host) v _ _ :=
      Machine.leads_makeFunction hi hop hr.ip
    obtain ⟨bs, hlive, herase, -⟩ := hr.stack
    obtain rfl := List.map_eq_nil_iff.mp herase
    have hlive' : v.live = base := hlive
    have hprefix : s.functions <+: s.functions ++ [(⟨params, span, body⟩ : Lambda)] :=
      List.prefix_append _ _
    have hagrees : ∀ ip live, Agrees G
        { s with functions := s.functions ++ [(⟨params, span, body⟩ : Lambda)] }
        { v with ip, live, made := v.made + 1 } := by
      intro ip live
      refine ⟨hr.agrees.output, ?_, hr.agrees.store.mono hprefix⟩
      rw [List.length_append, List.length_singleton, ← hr.agrees.made]
    have hknown : Known G (s.functions ++ [(⟨params, span, body⟩ : Lambda)]) (Machine.madeBy i v) := by
      refine ⟨⟨params, span, body⟩, fuel, es, _, entry, ?_, hclear, hbody, htarget, hplaced⟩
      show (s.functions ++ [_])[v.made]? = _
      rw [hr.agrees.made, List.getElem?_concat_length]
    have hmade : (Machine.madeBy i v).erase = ⟨s.functions.length, params, 0, pl.env⟩ := by
      rw [Machine.madeBy, Closure.erase, Closure.rename, hparams, hr.agrees.made, hr.env]
      rfl
    have hheld : pl.held = v.live.length := by rw [hlive', hr.held]
    show Ends G k v s _ (hold G.setting span pl _ _)
    rw [hold, G.capacity, hheld, Gen.size_function]
    by_cases hroom : v.live.length < Stack.limit
    · rw [if_pos hroom]
      have hpush := Machine.yields_push (.closure (Machine.madeBy i v))
        { v with ip := Int64.ofNat (q + 1), made := v.made + 1 } hroom
      have hyields := hleads.yields (hpush.bind (Machine.yields_pure false _))
      refine ⟨_, .step hyields rfl rfl rfl hprefix, ?_⟩
      refine ⟨rfl, hr.env, hr.depth, hagrees _ _, hr.bound, hr.held, ?_, hroom, ?_⟩
      · refine ⟨[.closure (Machine.madeBy i v)], congrArg (List.cons _) hlive', ?_, ?_⟩
        · rw [← hmade]
          rfl
        · intro x hx
          rw [List.mem_singleton.mp hx]
          exact hknown
      · intro x hx
        obtain ⟨b, hb, he, hg⟩ := hr.piped x hx
        exact ⟨b, hb, he, hg.mono hprefix⟩
    · rw [if_neg hroom]
      have hpush := Machine.refuses_push (.closure (Machine.madeBy i v))
        { v with ip := Int64.ofNat (q + 1), made := v.made + 1 } hroom
      refine ⟨v, _, _, q, i, .refl v, hleads.refuses (hpush.bind _), rfl, hi, ?_, hagrees _ _⟩
      rw [hspan]

/-! ## Calls of functions -/

/-- The code of every function body does what evaluation of the body does, if a call can still be
nested. -/
def Bodies (G : Ground) : Nat → Prop
  | 0 => True
  | calls + 1 => ∀ (f : Lambda) (fuel : Nat) (es : List Expr), (∀ n ∈ f.body, G.Clear n) →
      f.body.mapM (OfTree.ofNodeWithin fuel) = .ok es →
      Sim G calls 0 none [] (Expr.genStatements f.span es)
        (fun pl => evalBlock G.setting (evalNode G.setting (enterWithin G.setting calls)) f.span pl
          f.body) (fun a => [a])

section Call
variable {q : Nat} {pl : Place} {ins base : List Value} {v : View} {s : State} {i : Instruction}
  {args : Args}

theorem enterWithin_succ {w : Setting} {span : Span} {c : Closure} {vars : Closure.Vars} {f : Lambda}
    (hb : c.bind args = .ok vars) (hf : s.functions[c.id]? = some f) :
    enterWithin w (calls + 1) span pl c args s =
      evalBlock w (evalNode w (enterWithin w calls)) f.span ⟨s.store.size, pl.held⟩ f.body
        { s with store := s.store.push ⟨vars, some c.env⟩ } := by
  rw [enterWithin, hb]
  dsimp only [bind, EStateM.bind, get, getThe, MonadStateOf.get, EStateM.get]
  rw [hf]
  rfl

/-- The machine after it has entered a function at index `q`. -/
def entered (v : View) (q : Nat) (base : List Value) (c : Closure) (vars : Closure.Vars) : View :=
  { v with
    ip := c.entry, live := base, env := v.store.size
    store := v.store.push ⟨vars, some c.env⟩
    frames := ⟨Int64.ofNat (q + 1), base.length, v.env⟩ :: v.frames }

theorem ready_entered {c : Closure} {vars : Closure.Vars} {entry : Nat}
    (hr : Ready G (calls + 1) temp ins q pl base v s) (hlimit : base.length ≤ Stack.limit)
    (hentry : c.entry = Int64.ofNat entry) (hvars : Value.FineVars (Value.onClosures (Known G s.functions)) vars) :
    Ready G calls none [] entry ⟨s.store.size, pl.held⟩ base (entered v q base c vars)
      { s with store := s.store.push ⟨Value.eraseVars vars, some c.env⟩ } where
  ip := hentry
  env := hr.agrees.store.size
  depth := by
    have := hr.depth
    show v.frames.length + 1 + calls + 1 = _
    omega
  agrees := ⟨hr.agrees.output, hr.agrees.made, hr.agrees.store.push hvars c.env⟩
  bound := by
    show s.store.size < (v.store.push _).size
    rw [Array.size_push, hr.agrees.store.size]
    exact Nat.lt_succ_self _
  held := hr.held
  stack := ⟨[], rfl, rfl, fun _ h => nomatch h⟩
  limit := hlimit
  piped := fun _ h => nomatch h

/-- After its body a function returns to the index after the call. -/
theorem ends_body {c : Closure} {vars : Closure.Vars} {s₁ : State} {r : EStateM.Result Trouble State Value}
    {exit : Nat} {span : Span} (ht : ∀ x ∈ temp, x.1 ≤ k)
    (hr : Ready G (calls + 1) temp ins q pl base v s)
    (henter : Yields (Machine.step G.image.code G.setting.host) v false (entered v q base c vars))
    (st : G.image.Stands exit { op := .return, span })
    (h : Ends G 0 (entered v q base c vars) s₁
      (fun a => Ready G calls none [a] exit ⟨s.store.size, pl.held⟩ base) r)
    (hs₁ : s₁.functions = s.functions) :
    Ends G k v s (fun a => Ready G (calls + 1) temp [a] (q + 1) pl base) r := by
  cases r with
  | error e s' => exact Fails.after (.single henter) h
  | ok a s' =>
    obtain ⟨u, hmoves, hready⟩ := h
    obtain ⟨b, hlive, rfl, hgood, hroom⟩ := hready.top
    have hreturn : Yields (Machine.step G.image.code G.setting.host) u false _ :=
      Machine.yields_return st.holds st.keeps.op hready.ip hlive hmoves.frames rfl hroom
    have hsize : v.store.size ≤ u.store.size := by
      have hle := hmoves.size
      simp only [entered, Array.size_push] at hle
      omega
    have hm : Moves G k v s { u with ip := Int64.ofNat (q + 1), env := v.env, frames := v.frames } s' :=
      { goes := .cons henter (hmoves.goes.trans (.single hreturn))
        frames := rfl
        env := rfl
        functions := hs₁ ▸ hmoves.functions
        size := hsize
        kept := by
          intro j hj n _
          have hkept := hmoves.kept j (by simp only [entered, Array.size_push]; omega) n fun he => by
            have : j = v.store.size := he
            omega
          exact hkept.trans (local?_push hj _ _) }
    refine ⟨_, hm, ?_⟩
    exact
      { ip := rfl
        env := hr.env
        depth := hr.depth
        agrees := ⟨hready.agrees.output, hready.agrees.made, hready.agrees.store⟩
        bound := Nat.lt_of_lt_of_le hr.bound hsize
        held := hr.held
        stack := ⟨[b], hlive, rfl, List.forall_mem_singleton.mpr hgood⟩
        limit := hready.limit
        piped := hr.piped_moves hm ht }

/-- A call of a function runs its body and goes on after the call. -/
theorem ends_enter {c : Closure} (hb : Bodies G calls) (ht : ∀ x ∈ temp, x.1 ≤ k)
    (hr : Ready G calls temp ins q pl base v s) (hi : G.image.code.Holds q i)
    (hlimit : base.length ≤ Stack.limit) (hc : Known G s.functions c)
    (hargs : args.Fine (Value.onClosures (Known G s.functions)))
    (hleads : Leads (Machine.step G.image.code G.setting.host) v
      (Machine.enter c args >>= fun _ => pure false)
      { v with ip := Int64.ofNat (q + 1), live := base }) :
    Ends G k v s (fun a => Ready G calls temp [a] (q + 1) pl base)
      (enterWithin G.setting calls i.span pl c.erase args.erase s) := by
  have hmax : Machine.maxFrames = 1024 := rfl
  let v₁ : View := { v with ip := Int64.ofNat (q + 1), live := base }
  cases calls with
  | zero =>
    have hdeep : ¬ v₁.frames.length + 1 < Machine.maxFrames := by
      have := hr.depth
      show ¬ v.frames.length + 1 < _
      omega
    have hrefuses := hleads.refuses ((Machine.refuses_enter_deep hdeep).bind _)
    exact hr.fails hi hrefuses rfl rfl rfl rfl
  | succ calls =>
    have hdepth : v₁.frames.length + 1 < Machine.maxFrames := by
      have := hr.depth
      show v.frames.length + 1 < _
      omega
    cases hbind : c.bind args with
    | error e =>
      have hrefuses := hleads.refuses ((Machine.refuses_enter_bind hdepth hbind).bind _)
      rw [enterWithin, Closure.bind_rename, hbind]
      exact hr.fails hi hrefuses rfl rfl rfl rfl
    | ok vars =>
      obtain ⟨f, fuel, es, numbers, entry, hf, hclear, hes, hentry, hplaced⟩ := hc
      obtain ⟨hcode, hreturn⟩ := Image.placed_append hplaced
      obtain ⟨st⟩ := Image.placed_instr rfl hreturn
      have hbind' : c.erase.bind args.erase = .ok (Value.eraseVars vars) := by
        rw [Closure.bind_rename, hbind]
        rfl
      have henter : Yields (Machine.step G.image.code G.setting.host) v false (entered v q base c vars) :=
        hleads.yields ((Machine.yields_enter hdepth hbind).bind (Machine.yields_pure false _))
      rw [enterWithin_succ hbind' hf]
      have hrun := (hb f fuel es hclear hes).run numbers entry _ base _ _ (Nat.zero_le _) hcode
        (ready_entered hr hlimit hentry (Closure.fine_bind hargs hbind))
      exact ends_body ht hr henter st hrun rfl

theorem native_ok {w : Setting} {span : Span} {b : Builtin} {u : Value} {written : Text}
    (h : b.call w.host args = .ok (u, written)) :
    native w span b args s = .ok u { s with output := s.output ++ written } := by
  rw [native, h]
  rfl

theorem native_error {w : Setting} {span : Span} {b : Builtin} {r : Refusal}
    (h : b.call w.host args = .error r) :
    native w span b args s = .error (w.located span (Machine.Refusal.trouble r)) s := by
  rw [native, h]
  rfl

theorem ends_native {b : Builtin} (hr : Ready G calls temp ins q pl base v s)
    (hi : G.image.code.Holds q i)
    (hleads : Leads (Machine.step G.image.code G.setting.host) v
      (Machine.native G.setting.host b args >>= fun u => Machine.push u >>= fun _ => pure false)
      { v with ip := Int64.ofNat (q + 1), live := base }) :
    Ends G k v s (fun a => Ready G calls temp [a] (q + 1) pl base)
      ((native G.setting i.span b args.erase >>= fun u => hold G.setting i.span pl u) s) := by
  show Ends G k v s _ (EStateM.bind _ _ s)
  rw [EStateM.bind]
  cases hcall : b.call G.setting.host args with
  | error r =>
    have hrefuses := hleads.refuses ((Machine.refuses_native hcall _).bind _)
    rw [native_error ((b.call_rename _ _ _).trans hcall)]
    exact hr.fails hi hrefuses rfl rfl rfl rfl
  | ok answer =>
    obtain ⟨u, written⟩ := answer
    have hplain := Builtin.isPlain_call hcall
    rw [native_ok ((b.call_rename _ _ _).trans hcall)]
    dsimp only
    rw [hold, G.capacity, ← hr.held]
    let v₂ : View :=
      { v with ip := Int64.ofNat (q + 1), live := base, output := v.output ++ written }
    have hgoes : Leads (Machine.step G.image.code G.setting.host) v
        (Machine.push u >>= fun _ => pure false) v₂ :=
      hleads.trans ((Machine.yields_native hcall _).leads _)
    have houtput : v.output ++ written = s.output ++ written := by rw [hr.agrees.output]
    by_cases hroom : base.length < Stack.limit
    · rw [if_pos hroom]
      have hyields := hgoes.yields ((Machine.yields_push u v₂ hroom).bind (Machine.yields_pure false _))
      refine ⟨_, .step hyields rfl rfl rfl List.prefix_rfl, ?_⟩
      refine ⟨rfl, hr.env, hr.depth, ⟨houtput, hr.agrees.made, hr.agrees.store⟩, hr.bound, hr.held,
        ⟨[u], rfl, ?_, ?_⟩, hroom, hr.piped⟩
      · rw [List.map_singleton, Value.erase_of_plain hplain]
      · intro x hx
        rw [List.mem_singleton.mp hx]
        exact Value.fine_of_plain hplain
    · rw [if_neg hroom]
      have hrefuses := hgoes.refuses ((Machine.refuses_push u v₂ hroom).bind _)
      exact ⟨v, v₂, _, q, i, .refl v, hrefuses, rfl, hi, rfl,
        ⟨houtput, hr.agrees.made, hr.agrees.store⟩⟩

theorem ends_apply {callee : Value} (hb : Bodies G calls) (ht : ∀ x ∈ temp, x.1 ≤ k)
    (hr : Ready G calls temp ins q pl base v s) (hi : G.image.code.Holds q i)
    (hlimit : base.length ≤ Stack.limit) (hc : Good G s.functions callee)
    (hargs : args.Fine (Value.onClosures (Known G s.functions)))
    (hleads : Leads (Machine.step G.image.code G.setting.host) v
      (Machine.call G.setting.host callee args >>= fun _ => pure false)
      { v with ip := Int64.ofNat (q + 1), live := base }) :
    Ends G k v s (fun a => Ready G calls temp [a] (q + 1) pl base)
      (apply G.setting (enterWithin G.setting calls) i.span pl callee.erase args.erase s) := by
  let v₁ : View := { v with ip := Int64.ofNat (q + 1), live := base }
  have hother : Machine.Value.isCallable callee = false → (∀ t, callee ≠ .text t) →
      Fails G v (G.setting.located i.span
        (.fault (.of .notCallable (callee.typeName ++ " is not callable")))) s := by
    intro hcall htext
    have hrefuses := hleads.refuses
      ((Machine.refuses_call_other args hcall htext hc.not_hole).bind _)
    exact hr.fails hi hrefuses rfl rfl rfl rfl
  cases callee with
  | closure c =>
    have henter := hleads.trans ((Machine.leads_call_closure c args).bind _)
    exact ends_enter hb ht hr hi hlimit hc hargs henter
  | builtin b =>
    have hnative := hleads.trans ((Machine.leads_call_builtin b args).bind _)
    rw [bind_assoc] at hnative
    exact ends_native hr hi hnative
  | text t =>
    have hrefuses := hleads.refuses ((Machine.refuses_call_text t args).bind _)
    have hfails := hr.fails hi hrefuses rfl rfl rfl rfl
    have hnames : v₁.store.names v₁.env = s.store.names pl.env := by
      show v.store.names v.env = _
      rw [hr.env, hr.agrees.store.names]
    rw [hnames] at hfails
    exact hfails
  | hole => exact hc.elim
  | null | bool _ | number _ | regex _ _ | record _ => exact hother rfl (fun _ h => nomatch h)

end Call

/-! ## Instructions that call -/

theorem fine_namedArgs {P : Value → Prop} {named : List (Text × Value)}
    (h : ∀ b ∈ namedEntries named, b.Fine P) : Value.FineVars P (namedArgs named) := by
  induction named with
  | nil => exact fun _ h => nomatch h
  | cons x named ih =>
    have hx : x.2.Fine P := h x.2 (by simp [namedEntries])
    refine Value.FineVars.setField (ih fun b hb => h b ?_) hx
    exact List.mem_append_right _ hb

/-- A call takes its entries from the stack and leaves its value there. -/
theorem sim_call {span : Span} (hb : Bodies G calls) (ht : ∀ x ∈ temp, x.1 ≤ k) (callee : Value)
    (positional : List Value) (named : List (Text × Value)) :
    Sim G calls k temp (callEntries callee positional named) (.instr { op := .call, span })
      (fun pl => apply G.setting (enterWithin G.setting calls) span pl callee
        ⟨positional, namedArgs named⟩) (fun a => [a]) := by
  refine sim_instr rfl fun q pl base v s st hr => ?_
  have hspan : st.linked.span = span := st.keeps.span
  obtain ⟨bs, hlive, herase, hgood⟩ := hr.stack
  obtain ⟨callee, positional, named, rfl, rfl, rfl, rfl⟩ := Machine.callEntries_of_rename herase
  have hlimit := hr.limit
  rw [hlive, List.length_append, List.length_reverse] at hlimit
  have hlen : (callEntries callee positional named).length =
      positional.length + 2 * named.length + 3 := by
    simp [callEntries, namedEntries, List.length_flatMap]
    omega
  have hleads : Leads (Machine.step G.image.code G.setting.host) v _ _ :=
    Machine.leads_call_step st.holds st.keeps.op hr.ip hlive (by omega) (by omega)
  have hargs : (⟨positional, namedArgs named⟩ : Args).Fine (Value.onClosures (Known G s.functions)) := by
    refine ⟨fun b hb => hgood b ?_, fine_namedArgs fun b hb => hgood b ?_⟩
    · simp [callEntries, hb]
    · simp [callEntries, hb]
  rw [← hspan, ← Machine.namedArgs_rename]
  exact ends_apply hb ht hr st.holds (by omega) (hgood callee (by simp [callEntries])) hargs hleads

/-- A name by itself is called if it is a function. -/
theorem sim_bare {span : Span} {name : Text} (hb : Bodies G calls) (ht : ∀ x ∈ temp, x.1 ≤ k)
    (hn : G.hidden name = false) :
    Sim G calls k temp [] (.instr { op := .tryCall, name, span })
      (fun pl => evalBare G.setting (enterWithin G.setting calls) span pl name) (fun a => [a]) := by
  refine sim_instr rfl fun q pl base v s st hr => ?_
  have hspan : st.linked.span = span := st.keeps.span
  have hname : st.linked.name = name := st.keeps.name
  obtain ⟨bs, hlive, herase, -⟩ := hr.stack
  obtain rfl := List.map_eq_nil_iff.mp herase
  have hlive' : v.live = base := hlive
  obtain ⟨hgood, hvalue⟩ := good_load hr.agrees hn pl.env
  rw [← hspan]
  show Ends G k v s _ ((if Machine.Value.isCallable ((s.store.get? pl.env name).getD (.text name)) then
    apply G.setting (enterWithin G.setting calls) st.linked.span pl
      ((s.store.get? pl.env name).getD (.text name)) {}
    else hold G.setting st.linked.span pl ((s.store.get? pl.env name).getD (.text name)) : Eval Value) s)
  rw [← hvalue, Value.isCallable_rename]
  cases hcall : Machine.Value.isCallable ((v.store.get? pl.env name).getD (.text name)) with
  | true =>
    rw [if_pos rfl]
    cases hv : v.store.get? pl.env name with
    | none =>
      rw [hv] at hcall
      cases hcall
    | some u =>
      rw [hv] at hcall hgood
      have hv' : v.store.get? v.env st.linked.name = some u := by rw [hr.env, hname, hv]
      have hleads : Leads (Machine.step G.image.code G.setting.host) v _ _ :=
        Machine.leads_bare_call st.holds st.keeps.op hr.ip hv' hcall
      rw [hlive'] at hleads
      have hargs : ({} : Args).Fine (Value.onClosures (Known G s.functions)) :=
        ⟨List.forall_mem_nil _, List.forall_mem_nil _⟩
      exact ends_apply hb ht hr st.holds (hlive' ▸ hr.limit) hgood hargs hleads
  | false =>
    rw [if_neg (by simp)]
    have hv' : (v.store.get? v.env st.linked.name).getD (.text st.linked.name) =
        (v.store.get? pl.env name).getD (.text name) := by rw [hr.env, hname]
    have hpush : Machine.Pushes G.image.code G.setting.host v q _ :=
      Machine.pushes_bare st.holds st.keeps.op hr.ip hv' hcall
    exact ends_hold hr st.holds hpush hgood rfl

end Bareword.Evaluation
