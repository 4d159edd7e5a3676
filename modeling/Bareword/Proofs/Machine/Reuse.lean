import Bareword.Proofs.Machine.Frames

/-! # Machines that are used again

A run may stop anywhere and leave values in the places above the top of the stack. The next run starts with
an empty stack, and it never looks at a place that it did not write itself: only a return moves the top up,
to where it was when the function was called. So what earlier runs left on the stack has no influence.

* `Stack.AgreesTo`, `Akin`: stacks and states with the same places, as far as these can be seen.
* `Oblivious`: an action that does the same on states that are akin.
* `Comes`: the outcomes of a run, whatever builtins from outside do and whenever it is called off.
* `run_withStack`, `Comes.withStack`: machines that differ in what is left on the stack.
-/

namespace Bareword
set_option autoImplicit false
open Report (RuntimeFault)

/-! ## Stacks -/

namespace Stack

/-- The stacks hold the same values, and above the top the same up to a height. -/
structure AgreesTo (h : Nat) (a b : Stack) : Prop where
  live : a.live = b.live
  above : a.above.take (h - a.height) = b.above.take (h - a.height)

variable {h : Nat} {a b : Stack}

theorem AgreesTo.height (hab : AgreesTo h a b) : a.height = b.height := congrArg List.length hab.live

theorem AgreesTo.symm (hab : AgreesTo h a b) : AgreesTo h b a := ⟨hab.live.symm, hab.height ▸ hab.above.symm⟩

/-- At the height of the stacks nothing above the top matters. -/
theorem agreesTo_of_live (hlive : a.live = b.live) : AgreesTo a.height a b :=
  ⟨hlive, by rw [Nat.sub_self, List.take_zero, List.take_zero]⟩

theorem AgreesTo.up (hab : AgreesTo h a b) (v : Value) :
    AgreesTo h ⟨v :: a.live, a.above.drop 1⟩ ⟨v :: b.live, b.above.drop 1⟩ := by
  refine ⟨congrArg (v :: ·) hab.live, ?_⟩
  have hheight : h - (⟨v :: a.live, a.above.drop 1⟩ : Stack).height = h - a.height - 1 := rfl
  rw [hheight, ← List.drop_take, ← List.drop_take, hab.above]

theorem AgreesTo.down (v w : Value) {rest rest' above above' : List Value}
    (hab : AgreesTo h ⟨v :: rest, above⟩ ⟨v :: rest', above'⟩) :
    AgreesTo h ⟨rest, w :: above⟩ ⟨rest', w :: above'⟩ := by
  obtain ⟨hlive, habove⟩ := hab
  refine ⟨(List.cons.inj hlive).2, ?_⟩
  have hheight : h - (⟨v :: rest, above⟩ : Stack).height = h - (rest.length + 1) := rfl
  have hheight' : h - (⟨rest, w :: above⟩ : Stack).height = h - rest.length := rfl
  rw [hheight] at habove
  rw [hheight']
  cases hn : h - rest.length with
  | zero => rw [List.take_zero, List.take_zero]
  | succ n =>
    have hn' : h - (rest.length + 1) = n := by omega
    rw [hn'] at habove
    rw [List.take_succ_cons, List.take_succ_cons, habove]

theorem AgreesTo.lower (hab : AgreesTo h a b) (n : Nat) : AgreesTo h (a.lower n) (b.lower n) := by
  induction n generalizing a b with
  | zero => exact hab
  | succ n ih =>
    obtain ⟨live, above⟩ := a
    obtain ⟨live', above'⟩ := b
    obtain rfl : live = live' := hab.live
    cases live with
    | nil => exact hab
    | cons v rest => exact ih (.down v v hab)

/-- The top can be moved up to a height up to which the stacks agree. -/
theorem AgreesTo.raise {k : Nat} (hab : AgreesTo h a b) (hk : AgreesTo k a b) {n : Nat}
    (hn : a.height + n ≤ k) : AgreesTo h (a.raise n) (b.raise n) := by
  induction n generalizing a b with
  | zero => exact hab
  | succ n ih =>
    have hplace : a.above.headD .hole = b.above.headD .hole := by
      have htake := hk.above
      cases hm : k - a.height with
      | zero => omega
      | succ m =>
        rw [hm] at htake
        cases ha : a.above <;> cases hb : b.above <;> rw [ha, hb] at htake <;> simp_all
    rw [Stack.raise, Stack.raise, hplace]
    refine ih (hab.up _) (hk.up _) ?_
    show a.live.length + 1 + n ≤ k
    rw [Nat.add_right_comm]
    exact hn

theorem AgreesTo.resize {k : Nat} (hab : AgreesTo h a b) (hk : AgreesTo k a b) :
    AgreesTo h (a.resize k) (b.resize k) := by
  rw [Stack.resize, Stack.resize, ← hab.height]
  split
  · exact hab.lower _
  · exact hab.raise hk (by omega)

end Stack

namespace Machine

/-! ## States -/

/-- The states differ at most in places above the top of the stack that no return gets back to. -/
structure Akin (s t : State) : Prop where
  view : s.view = t.view
  stack : ∀ f ∈ s.frames, s.stack.AgreesTo f.height t.stack

/-- The answers or troubles are the same, and the states are akin. -/
inductive AkinResult {α : Type} : EStateM.Result Trouble State α → EStateM.Result Trouble State α → Prop where
  | ok (a : α) {s t : State} (h : Akin s t) : AkinResult (.ok a s) (.ok a t)
  | error (e : Trouble) {s t : State} (h : Akin s t) : AkinResult (.error e s) (.error e t)

/-- The action does the same on states that are akin. -/
def Oblivious {α : Type} (x : Exec α) : Prop := ∀ s t, Akin s t → AkinResult (x s) (x t)

section Actions
variable {α β : Type} {s t : State} {x : Exec α} {f : α → Exec β}

theorem Akin.live (h : Akin s t) : s.stack.live = t.stack.live := congrArg View.live h.view

theorem Akin.frames (h : Akin s t) : s.frames = t.frames := congrArg View.frames h.view

theorem Akin.symm (h : Akin s t) : Akin t s :=
  ⟨h.view.symm, fun f hf => (h.stack f (h.frames ▸ hf)).symm⟩

/-- States that are akin differ in one part only. -/
theorem Akin.eq_above (h : Akin s t) : t = { s with stack := ⟨s.stack.live, t.stack.above⟩ } := by
  obtain ⟨hview, -⟩ := h
  obtain ⟨ip, ⟨live, above⟩, frames, env, store, made, output⟩ := t
  simp only [State.view, View.mk.injEq] at hview
  obtain ⟨rfl, rfl, rfl, rfl, rfl, rfl, rfl⟩ := hview
  rfl

theorem Akin.withStack (h : Akin s t) {a b : Stack} (hlive : a.live = b.live)
    (hstack : ∀ k, s.stack.AgreesTo k t.stack → a.AgreesTo k b) :
    Akin { s with stack := a } { t with stack := b } := by
  refine ⟨?_, fun f hf => hstack f.height (h.stack f hf)⟩
  rw [h.eq_above, State.view, State.view, hlive]

theorem Oblivious.bind (hx : Oblivious x) (hf : ∀ a, Oblivious (f a)) : Oblivious (x >>= f) := by
  intro s t h
  show AkinResult (EStateM.bind x f s) (EStateM.bind x f t)
  rw [EStateM.bind, EStateM.bind]
  have hfirst := hx s t h
  generalize x s = r, x t = r' at hfirst ⊢
  cases hfirst with
  | ok a h => exact hf a _ _ h
  | error e h => exact .error e h

theorem Stateless.oblivious (hx : Stateless x) : Oblivious x := by
  intro s t h
  rw [hx s, hx t]
  cases outcome x with
  | ok a => exact .ok a h
  | error e => exact .error e h

/-- What an action looks at is the same in states that are akin, except for places above the top. -/
theorem oblivious_get {f : State → Exec β}
    (h : ∀ (s : State) (above : List Value), Akin s { s with stack := ⟨s.stack.live, above⟩ } →
      AkinResult (f s s)
        (f { s with stack := ⟨s.stack.live, above⟩ } { s with stack := ⟨s.stack.live, above⟩ })) :
    Oblivious (get >>= f) := by
  intro s t hst
  have hresult := h s t.stack.above (hst.eq_above ▸ hst)
  rw [← hst.eq_above] at hresult
  exact hresult

/-- A change of other things than the stack. -/
theorem oblivious_modify {g : State → State} (hstack : ∀ s, (g s).stack = s.stack ∧ (g s).frames = s.frames)
    (hview : ∀ s t : State, s.view = t.view → (g s).view = (g t).view) : Oblivious (modify g) := by
  refine fun s t h => .ok () ⟨hview s t h.view, fun f hf => ?_⟩
  rw [(hstack s).2] at hf
  rw [(hstack s).1, (hstack t).1]
  exact h.stack f hf

end Actions

/-! ## Oblivious actions -/

theorem oblivious_push (v : Value) : Oblivious (push v) := by
  refine oblivious_get fun s above h => ?_
  have hheight : (⟨s.stack.live, above⟩ : Stack).height = s.stack.height := rfl
  rw [Stack.push?, Stack.push?, hheight]
  split
  · exact .error _ h
  · exact .ok () (h.withStack rfl fun k hk => hk.up v)

theorem oblivious_pop : Oblivious pop := by
  refine oblivious_get fun s above h => ?_
  obtain ⟨ip, ⟨live, above'⟩, frames, env, store, made, output⟩ := s
  cases live with
  | nil => exact .error _ h
  | cons v rest => exact .ok v (h.withStack rfl fun k hk => .down v .hole hk)

theorem oblivious_top : Oblivious top := by
  refine oblivious_get fun s above h => ?_
  have htop : (⟨s.stack.live, above⟩ : Stack).top? = s.stack.top? := rfl
  rw [htop]
  cases s.stack.top? with
  | none => exact .error _ h
  | some v => exact .ok v h

theorem oblivious_makeFunction (i : Instruction) : Oblivious (makeFunction i) := by
  refine oblivious_get fun s above h => ?_
  have hmade : Akin { s with made := s.made + 1 }
      { s with stack := ⟨s.stack.live, above⟩, made := s.made + 1 } := ⟨rfl, h.stack⟩
  exact oblivious_push (.closure ⟨s.made, i.params, i.target, s.env⟩) _ _ hmade

theorem compositional_oblivious : Compositional Oblivious where
  bind := Oblivious.bind
  stateless := Stateless.oblivious
  push := oblivious_push
  pop := oblivious_pop
  top := oblivious_top
  load _ := oblivious_get fun _ _ h => .ok _ h
  jumpTo target := oblivious_modify (fun _ => ⟨rfl, rfl⟩) fun _ _ => congrArg fun c : View => { c with ip := target }
  write written :=
    oblivious_modify (fun _ => ⟨rfl, rfl⟩) fun _ _ => congrArg fun c : View => { c with output := c.output ++ written }
  makeFunction := oblivious_makeFunction

/-! ## Calls and returns -/

/-- Later the function returns to the height that the stack has now. -/
theorem oblivious_enter (c : Closure) (args : Args) : Oblivious (enter c args) := by
  refine oblivious_get fun s above h => ?_
  dsimp only
  split
  · exact .error _ h
  · cases c.bind args with
    | error e => exact .error _ h
    | ok vars => exact .ok () ⟨rfl, List.forall_mem_cons.mpr ⟨Stack.agreesTo_of_live rfl, h.stack⟩⟩

theorem oblivious_call (host : Host) (callee : Value) (args : Args) : Oblivious (call host callee args) := by
  refine (compositional_oblivious.present callee).bind fun v => ?_
  split
  · exact oblivious_enter _ args
  · exact (compositional_oblivious.native host _ args).bind fun v => oblivious_push v
  · exact oblivious_get fun s above h => .error _ h
  · exact compositional_oblivious.fail _ _

theorem oblivious_callTop (host : Host) : Oblivious (callTop host) := by
  have hcount := compositional_oblivious.popCount
  refine hcount.bind fun named => hcount.bind fun positional => ?_
  split
  · exact compositional_oblivious.throw _
  · refine (compositional_oblivious.popNamed _ _).bind fun namedArgs => ?_
    refine (compositional_oblivious.popInto _ _).bind fun positionalArgs => ?_
    exact oblivious_pop.bind fun callee => oblivious_call host callee _

theorem oblivious_bare (host : Host) (name : Text) : Oblivious (bare host name) := by
  refine oblivious_get fun s above h => ?_
  dsimp only
  cases s.store.get? s.env name with
  | none => exact oblivious_push _ _ _ h
  | some v =>
    cases v with
    | closure c => exact oblivious_call host _ _ _ _ h
    | builtin b => exact oblivious_call host _ _ _ _ h
    | _ => exact oblivious_push _ _ _ h

/-- A return gets back to a height up to which the stacks agree. -/
theorem oblivious_leave : Oblivious leave := by
  refine oblivious_pop.bind fun v => oblivious_get fun s above h => ?_
  obtain ⟨ip, stack, frames, env, store, made, output⟩ := s
  cases frames with
  | nil => exact .error _ h
  | cons f frames =>
    obtain ⟨hback, hstack⟩ := List.forall_mem_cons.mp h.stack
    refine oblivious_push v _ _ ⟨?_, fun g hg => (hstack g hg).resize hback⟩
    have hlive := (hback.resize hback).live
    dsimp only at hlive ⊢
    rw [State.view, State.view, hlive]

/-! ## Instructions -/

theorem oblivious_execute (code : Code) (host : Host) (index : Nat) (i : Instruction) :
    Oblivious (execute code host index i) := by
  have hdone {x : Exec Unit} (hx : Oblivious x) : Oblivious (x >>= fun _ => pure false : Exec Bool) :=
    hx.bind fun _ => compositional_oblivious.pure false
  by_cases hcall : i.op = .call ∨ i.op = .tryCall
  · unfold execute
    rcases hcall with hop | hop <;> simp only [hop]
    · exact hdone (oblivious_callTop host)
    · exact hdone (oblivious_bare host _)
  by_cases hstore : i.op = .store
  · unfold execute
    simp only [hstore]
    exact oblivious_top.bind fun v => hdone <| oblivious_modify (fun _ => ⟨rfl, rfl⟩) fun _ _ =>
      congrArg fun c : View => { c with store := c.store.set c.env i.name v }
  by_cases hreturn : i.op = .return
  · unfold execute
    simp only [hreturn]
    exact hdone oblivious_leave
  · exact compositional_oblivious.execute code host index hstore hcall hreturn

/-! ## Runs -/

theorem oblivious_step (code : Code) (host : Host) : Oblivious (step code host) := by
  refine oblivious_get fun s above h => ?_
  dsimp only
  cases code.get? s.ip with
  | none => exact .error _ h
  | some i =>
    have hnext : Akin { s with ip := s.ip + 1 } { s with ip := s.ip + 1, stack := ⟨s.stack.live, above⟩ } :=
      ⟨rfl, h.stack⟩
    exact oblivious_execute code host _ i _ _ hnext

section Runs
variable {code : Code} {host : Host} {s s' t : State}

theorem Akin.step_ok {halts : Bool} (h : Akin s t) (hs : step code host s = .ok halts s') :
    ∃ t', step code host t = .ok halts t' ∧ Akin s' t' := by
  have hresult := oblivious_step code host s t h
  generalize step code host t = r at hresult ⊢
  rw [hs] at hresult
  cases hresult with
  | ok _ h => exact ⟨_, rfl, h⟩

theorem Akin.step_error {e : Trouble} (h : Akin s t) (hs : step code host s = .error e s') :
    ∃ t', step code host t = .error e t' ∧ Akin s' t' := by
  have hresult := oblivious_step code host s t h
  generalize step code host t = r at hresult ⊢
  rw [hs] at hresult
  cases hresult with
  | error _ h => exact ⟨_, rfl, h⟩

theorem Akin.withOutput (h : Akin s t) (written : Text) :
    Akin { s with output := written } { t with output := written } :=
  ⟨congrArg (fun c : View => { c with output := written }) h.view, h.stack⟩

theorem Akin.next (h : Akin s t) (hs : Next code host s s') : ∃ t', Next code host t t' ∧ Akin s' t' := by
  cases hs with
  | own hs =>
    obtain ⟨t', ht, h'⟩ := h.step_ok hs
    exact ⟨t', .own ht, h'⟩
  | @outside _ _ v written hcalls hnative hs hv hpush =>
    obtain ⟨t₁, ht, h₁⟩ := h.step_error hs
    have hresult := oblivious_push v _ _ (h₁.withOutput written)
    rw [hpush] at hresult
    generalize ht' : push v { t₁ with output := written } = r at hresult
    cases hresult with
    | ok _ h' => exact ⟨_, .outside written (h.view ▸ hcalls) hnative ht hv ht', h'⟩

theorem Akin.reaches (h : Akin s t) (hs : Reaches code host s s') :
    ∃ t', Reaches code host t t' ∧ Akin s' t' := by
  induction hs with
  | refl => exact ⟨t, .refl, h⟩
  | tail _ hnext ih =>
    obtain ⟨t₁, ht, h₁⟩ := ih
    obtain ⟨t', hnext', h'⟩ := h₁.next hnext.2
    exact ⟨t', ht.tail ⟨trivial, hnext'⟩, h'⟩

/-- Runs with the same fuel end in the same way. -/
theorem Akin.loop (h : Akin s t) (code : Code) (host : Host) (fuel : Nat) :
    (loop code host fuel s = none ∧ loop code host fuel t = none) ∨
      ∃ ending s' t', loop code host fuel s = some (ending, s') ∧
        loop code host fuel t = some (ending, t') ∧ Akin s' t' := by
  induction fuel generalizing s t with
  | zero => exact .inl ⟨rfl, rfl⟩
  | succ fuel ih =>
    rw [Machine.loop, Machine.loop]
    have hresult := oblivious_step code host s t h
    generalize step code host s = r, step code host t = r' at hresult ⊢
    cases hresult with
    | error e h => exact .inr ⟨.error e, _, _, rfl, rfl, h⟩
    | ok halts h =>
      cases halts with
      | true => exact .inr ⟨.ok (), _, _, rfl, rfl, h⟩
      | false => exact ih h

end Runs

/-! ## Outcomes -/

/-- What can come of a run whose states have a property, if builtins from outside do anything that they can, and
if it may be called off anywhere. -/
inductive ComesAlong (P : State → Prop) (m : Machine) (host : Host) : Outcome → Prop where
  | calledOff {s : State} (reason : Text) (hs : Along P m.code host m.startState s) :
      ComesAlong P m host (m.ended (.error (.fault (cancelledFault reason))) s)
  | halted {s t : State} (hs : Along P m.code host m.startState s) (hP : P s) (h : step m.code host s = .ok true t) :
      ComesAlong P m host (m.ended (.ok ()) t)
  | stopped {s t : State} {e : Trouble} (hs : Along P m.code host m.startState s) (hP : P s)
      (h : step m.code host s = .error e t) : ComesAlong P m host (m.ended (.error e) t)
  | refused {s t : State} {b : Builtin} (written : Text) (e : RuntimeFault)
      (hs : Along P m.code host m.startState s) (hP : P s) (hcalls : Calls m.code s.view (.builtin b))
      (hnative : b.native = none) (h : step m.code host s = .error .breakdown t) :
      ComesAlong P m host (m.ended (.error (.fault e)) { t with output := written })

/-- What can come of a run. -/
abbrev Comes (m : Machine) : Host → Outcome → Prop := ComesAlong (fun _ => True) m

/-- A run that is called off before its first step has no place in the source. -/
theorem stopOf_cancelled (p : Program) (reason : Text) :
    stopOf p 0 (.fault (cancelledFault reason)) = .fault (.running (cancelledFault reason)) := by
  rw [stopOf, locate]
  split
  · rw [if_pos (.inr (.inl (by decide)))]
  · rfl

theorem Comes.of_run {m : Machine} {start : Start} {o : Outcome} (hidle : m.isRunning = false)
    (h : m.run start = some o) : m.Comes start.host o := by
  rw [run, if_neg (by rw [hidle]; decide)] at h
  split at h
  · cases h
    have hcomes : m.Comes start.host (m.ended (.error (.fault (cancelledFault start.reason))) m.startState) :=
      .calledOff start.reason .refl
    have hip : m.startState.ip = 0 := rfl
    rw [ended, hip, stopOf_cancelled, ← hidle] at hcomes
    exact hcomes
  · obtain ⟨⟨ending, t⟩, hloop, rfl⟩ := Option.map_eq_some_iff.mp h
    obtain ⟨r, hr, ⟨rfl, hstep⟩ | ⟨e, rfl, hstep⟩⟩ := loop_eq_some hloop
    · exact .halted hr trivial hstep
    · exact .stopped hr trivial hstep

/-- All of an outcome but what the run left on the stack. -/
def Outcome.shown (o : Outcome) : Outcome := { o with machine := { o.machine with stack := {} } }

section Outcomes
variable {m m' : Machine} {host : Host}

theorem Akin.ended {s t : State} (h : Akin s t) (ending : Except Trouble Unit) (stack : Stack) :
    (m.ended ending s).shown = ({ m with stack }.ended ending t).shown := by
  rw [h.eq_above]
  rfl

/-- A run starts with an empty stack and without calls. -/
theorem akin_startState (m : Machine) (stack : Stack) : Akin m.startState { m with stack }.startState := by
  have hempty (m : Machine) : m.startState.stack.live = [] := by
    refine (Stack.live_lower _ _).trans ?_
    exact List.drop_length
  refine ⟨?_, List.forall_mem_nil _⟩
  rw [State.view, State.view, hempty, hempty]
  rfl

theorem Comes.withStack {o : Outcome} (h : m.Comes host o) (stack : Stack) :
    ∃ o', { m with stack }.Comes host o' ∧ o.shown = o'.shown := by
  have hstart := akin_startState m stack
  cases h with
  | calledOff reason hs =>
    obtain ⟨t, ht, h⟩ := hstart.reaches hs
    exact ⟨_, .calledOff reason ht, h.ended _ stack⟩
  | halted hs _ hstep =>
    obtain ⟨t, ht, h⟩ := hstart.reaches hs
    obtain ⟨t', hstep', h'⟩ := h.step_ok hstep
    exact ⟨_, .halted ht trivial hstep', h'.ended _ stack⟩
  | stopped hs _ hstep =>
    obtain ⟨t, ht, h⟩ := hstart.reaches hs
    obtain ⟨t', hstep', h'⟩ := h.step_error hstep
    exact ⟨_, .stopped ht trivial hstep', h'.ended _ stack⟩
  | refused written e hs _ hcalls hnative hstep =>
    obtain ⟨t, ht, h⟩ := hstart.reaches hs
    obtain ⟨t', hstep', h'⟩ := h.step_error hstep
    exact ⟨_, .refused written e ht trivial (h.view ▸ hcalls) hnative hstep', (h'.withOutput written).ended _ stack⟩

end Outcomes

end Machine
end Bareword
