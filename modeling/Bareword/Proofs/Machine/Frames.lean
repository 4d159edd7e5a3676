import Bareword.Proofs.Program.Discipline

/-! # The environments of calls

An assignment writes the innermost environment, and every call starts with one that did not exist before.
So whatever happens in a call, up to the return that ends it, the environments that were there when it
was entered stay as they are. This holds for code that nobody compiled just as well.

* `Compositional`: properties that actions have if their parts do.
* `Change`: all that an instruction may do to a scene.
* `Nested`: every call has an environment of its own, and the main part has the global variables.
* `Inside`: the states of a run from the entry of a call to its return.
* `calls_keep_environments`: what steps and calls do to environments.
-/

namespace Bareword.Machine
set_option autoImplicit false

/-! ## Properties of actions -/

/-- A property that simple actions have, and that actions have if their parts do. -/
structure Compositional (P : {α : Type} → Exec α → Prop) : Prop where
  bind {α β : Type} {x : Exec α} {f : α → Exec β} (hx : P x) (hf : ∀ a, P (f a)) : P (x >>= f)
  stateless {α : Type} {x : Exec α} (hx : Stateless x) : P x
  push (v : Value) : P (push v)
  pop : P pop
  top : P top
  load (name : Text) : P (load name)
  jumpTo (target : Int64) : P (jumpTo target)
  write (written : Text) : P (modify fun s => { s with output := s.output ++ written })
  makeFunction (i : Instruction) : P (makeFunction i)

namespace Compositional
variable {P : {α : Type} → Exec α → Prop} {i : Instruction} (hP : Compositional P)
include hP

theorem pure {α : Type} (a : α) : P (pure a : Exec α) := hP.stateless (stateless_pure a)

theorem throw {α : Type} (e : Trouble) : P (throw e : Exec α) := hP.stateless (stateless_throw e)

theorem fail {α : Type} (code : Report.Code) (message : Text) : P (fail code message : Exec α) := hP.throw _

theorem present (v : Value) : P (present v) := hP.stateless (stateless_present v)

theorem popInto (n : Nat) (vs : List Value) : P (popInto n vs) := by
  induction n generalizing vs with
  | zero => exact hP.pure vs
  | succ n ih => exact hP.bind hP.pop fun v => ih (v :: vs)

theorem popCount : P popCount := by
  refine hP.bind hP.pop fun v => hP.bind (hP.present v) fun w => ?_
  dsimp only
  split
  · exact hP.pure _
  · exact hP.fail _ _

theorem popNamed (n : Nat) (named : List (Text × Value)) : P (popNamed n named) := by
  induction n generalizing named with
  | zero => exact hP.pure named
  | succ n ih =>
    refine hP.bind hP.pop fun v => hP.bind hP.pop fun w => hP.bind (hP.present w) fun w => ?_
    split
    · exact ih _
    · exact hP.fail _ _

theorem concat (n : Int64) : P (concat n) := by
  unfold Machine.concat
  split
  · exact hP.throw _
  · refine hP.bind (hP.popInto _ _) fun parts => ?_
    split
    · exact hP.throw _
    · exact hP.push _

theorem native (host : Host) (b : Builtin) (args : Args) : P (native host b args) := by
  unfold Machine.native
  split
  · rename_i v written _
    exact hP.bind (hP.write written) fun _ => hP.pure v
  all_goals exact hP.throw _

/-- Only assignments, calls and returns are not composed of simple actions. -/
theorem execute (code : Code) (host : Host) (index : Nat) (hstore : i.op ≠ .store)
    (hcall : ¬ (i.op = .call ∨ i.op = .tryCall)) (hreturn : i.op ≠ .return) : P (execute code host index i) := by
  have hdone {x : Exec Unit} (hx : P x) : P (x >>= fun _ => Pure.pure false : Exec Bool) :=
    hP.bind hx fun _ => hP.pure false
  have hpushes {x : Exec Value} (hx : P x) :
      P (x >>= fun v => Machine.push v >>= fun _ => Pure.pure false : Exec Bool) :=
    hP.bind hx fun v => hdone (hP.push v)
  cases hf : operation i.op with
  | some f =>
    rw [execute_operation hf]
    exact hP.bind hP.pop fun b => hP.bind hP.pop fun a => hpushes (hP.stateless (stateless_operation hf a b))
  | none =>
    unfold Machine.execute
    cases hop : i.op <;> simp only [hop, operation, reduceCtorEq] at hf ⊢
    case halt => exact hP.pure true
    case push => exact hpushes (hP.pure _)
    case tryLoad => exact hpushes (hP.load _)
    case dotGet => exact hP.bind hP.pop fun base => hpushes (hP.stateless (stateless_fieldOf _ base))
    case dup => exact hpushes hP.top
    case pop => exact hP.bind hP.pop fun _ => hP.pure false
    case strConcat => exact hdone (hP.concat _)
    case jump => exact hdone (hP.jumpTo _)
    case jumpIfFalse | jumpIfTrue =>
      refine hP.bind hP.pop fun v => hP.bind (hP.present v) fun w => ?_
      split
      · exact hdone (hP.jumpTo _)
      · exact hP.pure false
    case makeFunction => exact hdone (hP.makeFunction i)
    case label | undefined => exact hdone (hP.fail _ _)
    case store => exact absurd hop hstore
    case call => exact absurd (.inl hop) hcall
    case tryCall => exact absurd (.inr hop) hcall
    case «return» => exact absurd hop hreturn

end Compositional

/-! ## Effects -/

/-- All that an instruction may do to a scene: assign a variable in the current environment, enter a
function with a new environment, go back to the environment of the call before, or nothing. -/
inductive Change (i : Instruction) (c : Scene) : Scene → Prop where
  | none : Change i c c
  | assign (hop : i.op = .store) (v : Value) :
      Change i c { c with store := c.store.set c.env i.name v }
  | enter (hop : i.op = .call ∨ i.op = .tryCall) {f : Frame} (hf : f.env = c.env) {callee : Closure}
      {args : Args} {vars : Closure.Vars} (hbind : callee.bind args = .ok vars) :
      Change i c ⟨f :: c.frames, c.store.size, c.store.push ⟨vars, some callee.env⟩⟩
  | leave (hop : i.op = .return) {f : Frame} {frames : List Frame} (hframes : c.frames = f :: frames) :
      Change i c ⟨frames, f.env, c.store⟩

/-! ## What actions do to scenes -/

/-- However the action ends, it has no other effects than the instruction may have. -/
def Changes {α : Type} (i : Instruction) (x : Exec α) : Prop :=
  ∀ s, Change i s.scene (finalState (x s)).scene

/-- However the action ends, it leaves calls and environments alone. -/
def Quiet {α : Type} (x : Exec α) : Prop := ∀ s, (finalState (x s)).scene = s.scene

section Actions
variable {α β : Type} {i : Instruction} {x : Exec α} {f : α → Exec β}

theorem Quiet.bind (hx : Quiet x) (hf : ∀ a, Quiet (f a)) : Quiet (x >>= f) := by
  intro s
  have h := hx s
  show (finalState (EStateM.bind x f s)).scene = _
  rw [EStateM.bind]
  cases hr : x s with
  | ok a t =>
    rw [hr] at h
    exact (hf a t).trans h
  | error e t =>
    rw [hr] at h
    exact h

theorem Quiet.changes (hx : Quiet x) : Changes i x := fun s => (hx s).symm ▸ .none

/-- What goes before an effect does not matter if it is quiet. -/
theorem Quiet.before (hx : Quiet x) (hf : ∀ a, Changes i (f a)) : Changes i (x >>= f) := by
  intro s
  have h := hx s
  show Change i _ (finalState (EStateM.bind x f s)).scene
  rw [EStateM.bind]
  cases hr : x s with
  | ok a t =>
    rw [hr] at h
    exact h ▸ hf a t
  | error e t =>
    rw [hr] at h
    exact h.symm ▸ .none

/-- What comes after an effect does not matter if it is quiet. -/
theorem Changes.bind (hx : Changes i x) (hf : ∀ a, Quiet (f a)) : Changes i (x >>= f) := by
  intro s
  have h := hx s
  show Change i _ (finalState (EStateM.bind x f s)).scene
  rw [EStateM.bind]
  cases hr : x s with
  | ok a t =>
    rw [hr] at h
    exact (hf a t).symm ▸ h
  | error e t =>
    rw [hr] at h
    exact h

theorem quiet_get {f : State → Exec β} (h : ∀ s : State, (finalState (f s s)).scene = s.scene) :
    Quiet (get >>= f) := h

theorem quiet_push (v : Value) : Quiet (push v) := by
  refine quiet_get fun s => ?_
  cases s.stack.push? v <;> rfl

theorem compositional_quiet : Compositional Quiet where
  bind := Quiet.bind
  stateless {_ x} hx s := by
    rw [hx s]
    cases outcome x <;> rfl
  push := quiet_push
  pop := quiet_get fun s => by cases s.stack.pop? <;> rfl
  top := quiet_get fun s => by cases s.stack.top? <;> rfl
  load _ _ := rfl
  jumpTo _ _ := rfl
  write _ _ := rfl
  makeFunction i s := quiet_push (.closure ⟨s.made, i.params, i.target, s.env⟩) { s with made := s.made + 1 }

end Actions

/-! ## Calls and returns -/

section Instructions
variable {i : Instruction} (host : Host)

theorem changes_get {β : Type} {f : State → Exec β} (h : ∀ s : State, Change i s.scene (finalState (f s s)).scene) :
    Changes i (get >>= f) := h

theorem changes_enter (hop : i.op = .call ∨ i.op = .tryCall) (callee : Closure) (args : Args) :
    Changes i (enter callee args) := by
  refine changes_get fun s => ?_
  split
  · exact .none
  · cases hbind : callee.bind args with
    | error e => exact .none
    | ok vars => exact .enter hop rfl hbind

theorem changes_call (hop : i.op = .call ∨ i.op = .tryCall) (callee : Value) (args : Args) :
    Changes i (call host callee args) := by
  refine (compositional_quiet.present callee).before fun v => ?_
  split
  · exact changes_enter hop _ args
  · exact ((compositional_quiet.native host _ args).bind fun v => quiet_push v).changes
  · exact Quiet.changes (quiet_get fun _ => rfl)
  · exact (compositional_quiet.fail _ _).changes

theorem changes_callTop (hop : i.op = .call) : Changes i (callTop host) := by
  refine compositional_quiet.popCount.before fun named => compositional_quiet.popCount.before fun positional => ?_
  split
  · exact (compositional_quiet.throw _).changes
  · refine (compositional_quiet.popNamed _ _).before fun namedArgs => ?_
    refine (compositional_quiet.popInto _ _).before fun positionalArgs => compositional_quiet.pop.before fun callee => ?_
    exact changes_call host (.inl hop) callee _

theorem changes_bare (hop : i.op = .tryCall) (name : Text) : Changes i (bare host name) := by
  refine changes_get fun s => ?_
  cases s.store.get? s.env name with
  | none => exact (quiet_push _).changes s
  | some v =>
    cases v with
    | closure c => exact changes_call host (.inr hop) _ _ s
    | builtin b => exact changes_call host (.inr hop) _ _ s
    | _ => exact (quiet_push _).changes s

theorem changes_leave (hop : i.op = .return) : Changes i leave := by
  refine compositional_quiet.pop.before fun v => changes_get fun s => ?_
  cases hframes : s.frames with
  | nil => exact .none
  | cons f frames =>
    have hpush := quiet_push v { s with ip := f.returnTo, stack := s.stack.resize f.height, env := f.env, frames }
    exact hpush.symm ▸ .leave hop hframes

/-- However an instruction ends, it has one of its effects. -/
theorem changes_execute (code : Code) (index : Nat) : Changes i (execute code host index i) := by
  have hdone {x : Exec Unit} (hx : Changes i x) : Changes i (x >>= fun _ => pure false : Exec Bool) :=
    hx.bind fun _ => compositional_quiet.pure false
  by_cases hcall : i.op = .call ∨ i.op = .tryCall
  · unfold execute
    rcases hcall with hop | hop <;> simp only [hop]
    · exact hdone (changes_callTop host hop)
    · exact hdone (changes_bare host hop _)
  by_cases hstore : i.op = .store
  · unfold execute
    simp only [hstore]
    exact compositional_quiet.top.before fun v s => .assign hstore v
  by_cases hreturn : i.op = .return
  · unfold execute
    simp only [hreturn]
    exact hdone (changes_leave hreturn)
  · exact (compositional_quiet.execute code host index hstore hcall hreturn).changes

end Instructions

/-! ## Steps -/

/-- The step from one state to the other has an effect that the instruction may have, if there is one. -/
def Turns (code : Code) (s t : State) : Prop :=
  t.scene = s.scene ∨ ∃ i, code.get? s.ip = some i ∧ Change i s.scene t.scene

section Steps
variable {code : Code} {host : Host} {s t : State}

theorem turns_step (code : Code) (host : Host) (s : State) : Turns code s (finalState (step code host s)) := by
  cases hi : code.get? s.ip with
  | none =>
    left
    simp only [step, hi, bind, EStateM.bind, get, getThe, MonadStateOf.get, EStateM.get]
    rfl
  | some i =>
    refine .inr ⟨i, hi, ?_⟩
    have h := changes_execute (i := i) host code s.ip.toInt.toNat { s with ip := s.ip + 1 }
    simp only [step, hi, bind, EStateM.bind, get, getThe, MonadStateOf.get, EStateM.get, set, EStateM.set]
    exact h

theorem Next.turns (h : Next code host s t) : Turns code s t := by
  have hstep := turns_step code host s
  cases h with
  | own h =>
    rw [h] at hstep
    exact hstep
  | @outside u b v written _ _ h _ hpush =>
    rw [h] at hstep
    have hscene : t.scene = u.scene := by
      have hquiet := quiet_push v { u with output := written }
      rw [hpush] at hquiet
      exact hquiet
    rwa [Turns, hscene]

theorem Leaves.turns (h : Leaves code host s t) : Turns code s t := by
  have hstep := turns_step code host s
  cases h with
  | calledOff => exact .inl rfl
  | halted h | stopped h =>
    rw [h] at hstep
    exact hstep

end Steps

/-! ## Environments of calls -/

namespace Scene

/-- The environments of the calls that have not returned, the innermost one first and that of the main part
last. -/
def environments (c : Scene) : List Nat := c.env :: c.frames.map (·.env)

/-- The main part has the global variables, and every call has an environment that is newer than those of
the calls around it. -/
structure Nested (c : Scene) : Prop where
  main : c.environments.getLast? = some Store.globals
  newer : c.environments.Pairwise (· > ·)
  known : c.env < c.store.size

/-- The environments of the first scene are the same in the second one. -/
def KeptIn (c d : Scene) : Prop := ∀ e < c.store.size, d.store[e]? = c.store[e]?

/-- The second scene lies in a call that was entered from the first one, or after its return. Until then
the current environment and those of the calls inside are newer than all that there were. -/
inductive Encloses (c d : Scene) : Prop where
  | during {inner : List Frame} {f : Frame} (hf : f.env = c.env) (hframes : d.frames = inner ++ f :: c.frames)
      (hnewer : ∀ e ∈ d.env :: inner.map (·.env), c.store.size ≤ e)
  | returned (hframes : d.frames = c.frames) (henv : d.env = c.env)

end Scene

section Scenes
variable {i : Instruction} {c d d' : Scene}

theorem Store.size_set (st : Store) (e : Nat) (name : Text) (v : Value) : (st.set e name v).size = st.size :=
  Array.size_modify

theorem Store.getElem?_set_ne {st : Store} {e e' : Nat} (h : e ≠ e') (name : Text) (v : Value) :
    (st.set e name v)[e']? = st[e']? := by
  rw [Store.set, Array.getElem?_modify, if_neg h]

theorem Change.size_le (h : Change i c d) : c.store.size ≤ d.store.size := by
  cases h with
  | none | leave => exact Nat.le_refl _
  | assign => exact Nat.le_of_eq (Store.size_set ..).symm
  | enter =>
    rw [Array.size_push]
    exact Nat.le_succ _

theorem Scene.Nested.change (hc : c.Nested) (h : Change i c d) : d.Nested := by
  obtain ⟨hmain, hnewer, hknown⟩ := hc
  cases h with
  | none => exact ⟨hmain, hnewer, hknown⟩
  | assign _ v => exact ⟨hmain, hnewer, (Store.size_set ..).symm ▸ hknown⟩
  | @enter _ f hf callee args vars _ =>
    have henvironments : (f :: c.frames).map (·.env) = c.environments := by
      rw [List.map_cons, hf]
      rfl
    refine ⟨?_, ?_, ?_⟩
    · rw [environments, henvironments]
      exact hmain
    · rw [environments, henvironments]
      refine List.pairwise_cons.mpr ⟨fun e he => ?_, hnewer⟩
      rcases List.mem_cons.mp he with rfl | he
      · exact hknown
      · exact Nat.lt_trans (List.rel_of_pairwise_cons hnewer he) hknown
    · rw [Array.size_push]
      exact Nat.lt_succ_self _
  | @leave _ f frames hframes =>
    rw [environments, hframes] at hmain hnewer
    obtain ⟨hlt, hnewer⟩ := List.pairwise_cons.mp hnewer
    exact ⟨hmain, hnewer, Nat.lt_trans (hlt f.env (List.mem_cons_self ..)) hknown⟩

/-- In a call nothing is assigned but in newer environments. -/
theorem Scene.KeptIn.change {inner : List Frame} (hkept : c.KeptIn d) (hle : c.store.size ≤ d.store.size)
    (hnewer : ∀ e ∈ d.env :: inner.map (·.env), c.store.size ≤ e) (h : Change i d d') : c.KeptIn d' := by
  intro e he
  rw [← hkept e he]
  cases h with
  | none | leave => rfl
  | assign =>
    have hne : d.env ≠ e := Nat.ne_of_gt (Nat.lt_of_lt_of_le he (hnewer _ (List.mem_cons_self ..)))
    exact Store.getElem?_set_ne hne _ _
  | enter => rw [Array.getElem?_push, if_neg (by omega)]

/-- What happens in a call either stays in it or is its return. -/
theorem Scene.Encloses.change {inner : List Frame} {f : Frame} (hf : f.env = c.env)
    (hframes : d.frames = inner ++ f :: c.frames) (hle : c.store.size ≤ d.store.size)
    (hnewer : ∀ e ∈ d.env :: inner.map (·.env), c.store.size ≤ e) (h : Change i d d') : c.Encloses d' := by
  cases h with
  | none | assign => exact .during hf hframes hnewer
  | @enter _ g hg =>
    have hframes : g :: d.frames = (g :: inner) ++ f :: c.frames := congrArg (g :: ·) hframes
    refine .during hf hframes ?_
    rw [List.map_cons, hg]
    exact List.forall_mem_cons.mpr ⟨hle, hnewer⟩
  | @leave _ g frames hleave =>
    rw [hframes] at hleave
    cases inner with
    | nil =>
      cases hleave
      exact .returned rfl hf
    | cons g' inner =>
      cases hleave
      exact .during hf rfl (List.forall_mem_cons.mp hnewer).2

/-- In a call that was entered from the first scene, or after its return, all environments that there were
are kept. -/
structure Scene.Spares (c d : Scene) : Prop where
  encloses : c.Encloses d
  kept : c.KeptIn d
  size_le : c.store.size ≤ d.store.size

theorem Scene.Spares.change (h : c.Spares d) (hin : c.frames.length < d.frames.length) (hd : Change i d d') :
    c.Spares d' := by
  obtain ⟨hencloses, hkept, hle⟩ := h
  cases hencloses with
  | during hf hframes hnewer =>
    exact ⟨.change hf hframes hle hnewer hd, hkept.change hle hnewer hd, Nat.le_trans hle hd.size_le⟩
  | returned hframes => exact absurd hin (by rw [hframes]; exact Nat.lt_irrefl _)

/-- An instruction after which there are more calls has entered a function. -/
theorem Change.entered (h : Change i c d) (hmore : c.frames.length < d.frames.length) : c.Spares d := by
  cases h with
  | none | assign => exact absurd hmore (Nat.lt_irrefl _)
  | @enter _ f hf =>
    have hframes : f :: c.frames = [] ++ f :: c.frames := rfl
    refine ⟨.during hf hframes (List.forall_mem_singleton.mpr (Nat.le_refl _)), fun e he => ?_, ?_⟩
    · rw [Array.getElem?_push, if_neg (Nat.ne_of_lt he)]
    · rw [Array.size_push]
      exact Nat.le_succ _
  | @leave _ f frames hframes =>
    have hmore : c.frames.length < frames.length := hmore
    rw [hframes, List.length_cons] at hmore
    omega

end Scenes

/-! ## Runs -/

/-- The states of a run as long as more than `n` calls have not returned, up to the first one where that is
over. -/
def Inside (code : Code) (host : Host) (n : Nat) : State → State → Prop :=
  Along (fun s => n < s.frames.length) code host

section Runs
variable {code : Code} {host : Host} {s t u v : State}

theorem Turns.nested (hs : s.scene.Nested) (h : Turns code s t) : t.scene.Nested := by
  obtain h | ⟨i, -, h⟩ := h
  · rwa [h]
  · exact hs.change h

theorem Reaches.nested (hs : s.scene.Nested) (h : Reaches code host s t) : t.scene.Nested :=
  Along.preserves (Q := fun u => u.scene.Nested) h hs fun _ _ hu _ hnext => hnext.turns.nested hu

theorem Turns.spares (h : s.scene.Spares u.scene) (hin : s.frames.length < u.frames.length)
    (ht : Turns code u v) : s.scene.Spares v.scene := by
  obtain ht | ⟨i, -, ht⟩ := ht
  · rwa [ht]
  · exact h.change hin ht

/-- From the entry of a call to its return all environments are kept that were there before. -/
theorem Inside.spares (hs : s.scene.Spares t.scene) (h : Inside code host s.frames.length t u) :
    s.scene.Spares u.scene :=
  Along.preserves (Q := fun v => s.scene.Spares v.scene) h hs fun _ _ hv hin hnext => hnext.turns.spares hv hin

theorem Turns.entered (h : Turns code s t) (hmore : s.frames.length < t.frames.length) :
    s.scene.Spares t.scene := by
  obtain h | ⟨i, -, h⟩ := h
  · have hframes : t.frames = s.frames := congrArg Scene.frames h
    exact absurd hmore (by rw [hframes]; exact Nat.lt_irrefl _)
  · exact h.entered hmore

end Runs

/-! ## Machines -/

section Machines
variable {m m' : Machine} {globals : List (Text × Value)} {p : Program}

theorem nested_of_size (h : 0 < m.store.size) : m.startState.scene.Nested :=
  ⟨rfl, List.pairwise_singleton _ _, h⟩

/-- The machine of a program has an environment with its global variables, and so it is after all runs. -/
theorem Later.nested (hm : ofProgram globals p = .ok m) (h : m.Later m') : m'.startState.scene.Nested := by
  induction h with
  | refl =>
    unfold ofProgram at hm
    split at hm
    · cases hm
    split at hm
    · cases hm
    · cases hm
      exact nested_of_size Nat.one_pos
  | run host _ _ hs ht ih =>
    have hlast := ht.turns.nested (Reaches.nested ih hs)
    exact nested_of_size (Nat.lt_of_le_of_lt (Nat.zero_le _) hlast.known)

/-- In every run of every program each call has an environment of its own, which is newer than those of the
calls around it, and the main part has the global variables. A step assigns in the environment of the
call that takes it, enters a function with a new environment, goes back to the call before, or leaves all
of this alone. From the step that enters a function to the return that leaves it, or to the end of the
run in between, all environments that were there before stay as they are. -/
theorem calls_keep_environments (hm : ofProgram globals p = .ok m) (hm' : m.Later m') {host : Host} {s : State}
    (hs : Reaches m'.code host m'.startState s) :
    s.scene.Nested ∧
      (∀ t, Next m'.code host s t ∨ Leaves m'.code host s t → Turns m'.code s t) ∧
      ∀ t, Next m'.code host s t → s.frames.length < t.frames.length →
        ∀ u, Inside m'.code host s.frames.length t u →
          s.scene.Encloses u.scene ∧ s.scene.KeptIn u.scene ∧
            ∀ v, s.frames.length < u.frames.length → Leaves m'.code host u v → s.scene.KeptIn v.scene := by
  refine ⟨hs.nested (hm'.nested hm), fun t ht => ht.elim Next.turns Leaves.turns, fun t ht hmore u hu => ?_⟩
  have hspares := Inside.spares (ht.turns.entered hmore) hu
  exact ⟨hspares.encloses, hspares.kept, fun v hin hv => (hv.turns.spares hspares hin).kept⟩

/-- A function that assigns the name by which it is called. -/
theorem calls_keep_environments_function :
    let f : Value := .closure ⟨0, [], 4, 0⟩
    let p : Program :=
      { instructions :=
          [{ op := .makeFunction, mode := .absolute, target := 4 }, { op := .store, name := "f" },
            { op := .tryCall, name := "f" }, { op := .halt }, { op := .push }, { op := .store, name := "f" },
            { op := .return }]
        linked := true }
    let code : Code := ⟨p.instructions.toArray, #[.hole, .hole, .hole, .hole, .null, .hole, .hole]⟩
    let m : Machine := { program := p, code, store := #[{}] }
    let host : Host := ⟨fun _ => none, []⟩
    let s : State := { ip := 2, stack := ⟨[f], []⟩, store := #[⟨[("f", f)], none⟩], made := 1 }
    let t : State :=
      { s with ip := 4, frames := [⟨3, 1, 0⟩], env := 1, store := #[⟨[("f", f)], none⟩, ⟨[], some 0⟩] }
    let u : State :=
      { s with
        ip := 3, stack := ⟨[.null, f], []⟩
        store := #[⟨[("f", f)], none⟩, ⟨[("f", .null)], some 0⟩] }
    (ofProgram [] p = .ok m ∧ m.Later m ∧ Reaches code host m.startState s) ∧
      (Next code host s t ∧ s.frames.length < t.frames.length ∧ Inside code host s.frames.length t u) ∧
        s.scene.Nested ∧ s.scene.Encloses u.scene ∧ s.scene.KeptIn u.scene := by
  intro f p code m host s t u
  have hm : ofProgram [] p = .ok m := rfl
  have hs : Reaches code host m.startState s :=
    .head (b := { s with ip := 1, store := #[{}] }) ⟨trivial, .own rfl⟩ (.single ⟨trivial, .own rfl⟩)
  have ht : Next code host s t := .own rfl
  let v : State := { t with ip := 5, stack := ⟨[.null, f], []⟩ }
  let w : State := { v with ip := 6, store := u.store }
  have hpushed : Next code host t v := .own rfl
  have hassigned : Next code host v w := .own rfl
  have hleft : Next code host w u := .own rfl
  have hu : Inside code host s.frames.length t u :=
    .head ⟨Nat.one_pos, hpushed⟩ (.head ⟨Nat.one_pos, hassigned⟩ (.single ⟨Nat.one_pos, hleft⟩))
  obtain ⟨hnested, -, hkept⟩ := calls_keep_environments hm .refl hs
  obtain ⟨hencloses, hkept, -⟩ := hkept t ht Nat.one_pos u hu
  exact ⟨⟨hm, .refl, hs⟩, ⟨ht, Nat.one_pos, hu⟩, hnested, hencloses, hkept⟩

end Machines
end Bareword.Machine
