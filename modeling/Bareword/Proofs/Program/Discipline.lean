import Bareword.Proofs.Evaluation.Correctness
import Bareword.Proofs.Program.Layouts
import Mathlib.Logic.Relation

/-! # The stack discipline of compiled code

Whatever a compiled program does, the height of its stack is known beforehand for every instruction,
and it never meets trouble that only code without sense leads to. This holds for every run of every
length, also if it calls builtins from outside and whatever they answer. It ends where a function is called
that belongs to another program, since its body is not in the code.

* `Machine.Reaches`: the states that a run gets to.
* `Machine.Later`: what becomes of a machine through its runs.
* `Machine.Familiar`: the next step calls no function of another program.
* `Machine.Disciplined`: the stack of a state is as high as its next instruction expects.
* `Script.machine_keeps_discipline`: runs of compiled programs are disciplined as long as they are familiar.
-/

namespace Bareword
set_option autoImplicit false
open Bareword.Tree (Node)
open Report (Stop)

theorem Stack.live_lower (n : Nat) (s : Stack) :
    (s.lower n).live = s.live.drop n := by
  induction n generalizing s with
  | zero => rfl
  | succ n ih =>
    rw [Stack.lower]
    cases hs : s.live with
    | nil => rw [hs, List.drop_nil]
    | cons v rest =>
      dsimp only
      rw [ih, List.drop_succ_cons]

/-! ## Runs -/

namespace Machine

/-- The next step leads from one state to the other. A step that calls a builtin from outside breaks off
where the result is expected; the run goes on with what the builtin answers, and the builtin may write
something. -/
inductive Next (code : Code) (host : Host) (s t : State) : Prop where
  | own (h : step code host s = .ok false t)
  | outside {u : State} {b : Builtin} {v : Value} (written : Text) (hcalls : Calls code s.view (.builtin b))
      (hnative : b.native = none) (h : step code host s = .error .breakdown u) (hv : v.Whole)
      (hpush : push v { u with output := written } = .ok () t)

/-- A state that a run gets to, if all states before it have a property. -/
def Along (P : State → Prop) (code : Code) (host : Host) : State → State → Prop :=
  Relation.ReflTransGen fun s t => P s ∧ Next code host s t

/-- A state that a run gets to. -/
def Reaches (code : Code) (host : Host) : State → State → Prop := Along (fun _ => True) code host

/-- A run that got to the first state can leave the second one behind: it was called off, or the next
step was its last one. -/
inductive Leaves (code : Code) (host : Host) (s : State) : State → Prop where
  | calledOff : Leaves code host s s
  | halted {t : State} (h : step code host s = .ok true t) : Leaves code host s t
  | stopped {e : Trouble} {t : State} (h : step code host s = .error e t) : Leaves code host s t

/-- A machine after some runs whose states have a property, but perhaps for the last state of each. -/
inductive LaterAlong (P : State → Prop) (m : Machine) : Machine → Prop where
  | refl : LaterAlong P m m
  | run {m' : Machine} (host : Host) {s t : State} (isRunning : Bool) (h : LaterAlong P m m')
      (hs : Along P m'.code host m'.startState s) (ht : Leaves m'.code host s t) :
      LaterAlong P m { m' with store := t.store, stack := t.stack, made := t.made, isRunning }

/-- A machine after some runs. -/
abbrev Later (m : Machine) : Machine → Prop := LaterAlong (fun _ => True) m

section Runs
variable {P Q : State → Prop} {code : Code} {host : Host} {s t : State}

/-- What every step preserves holds along a run. -/
theorem Along.preserves (h : Along P code host s t) (hs : Q s)
    (hstep : ∀ u v, Q u → P u → Next code host u v → Q v) : Q t := by
  induction h with
  | refl => exact hs
  | tail _ hnext ih => exact hstep _ _ ih hnext.1 hnext.2

/-- A run that meets no state without the property goes on with it. -/
theorem Reaches.along (h : Reaches code host s t) (hP : ∀ u, Along P code host s u → P u) :
    Along P code host s t :=
  Along.preserves h .refl fun u _ hu _ hnext => hu.tail ⟨hP u hu, hnext⟩

end Runs

/-- The height of the stack where the current call began. -/
def State.base (s : State) : Nat := (s.frames.head?.map (·.height)).getD 0

/-- Some instruction makes functions that start where the function does. -/
def Made (code : Code) (f : Closure) : Prop := ∃ k i, code.Holds k i ∧ i.op = .makeFunction ∧ f.entry = i.target

/-- If the next step calls a function, the code makes such functions. -/
def Familiar (code : Code) (s : State) : Prop := ∀ f : Closure, Calls code s.view (.closure f) → Made code f

/-- A loop ends with a step from a state that is reached. -/
theorem loop_eq_some {code : Code} {host : Host} {fuel : Nat} {s t : State}
    {ending : Except Trouble Unit} (h : loop code host fuel s = some (ending, t)) :
    ∃ r, Reaches code host s r ∧
      (ending = .ok () ∧ step code host r = .ok true t ∨
        ∃ e, ending = .error e ∧ step code host r = .error e t) := by
  induction fuel generalizing s with
  | zero => cases h
  | succ fuel ih =>
    rw [loop] at h
    split at h
    · rename_i hstep
      cases h
      exact ⟨s, .refl, .inl ⟨rfl, hstep⟩⟩
    · rename_i s' hstep
      obtain ⟨r, hr, hend⟩ := ih h
      exact ⟨r, .head ⟨trivial, .own hstep⟩ hr, hend⟩
    · rename_i e s' hstep
      cases h
      exact ⟨s, .refl, .inr ⟨e, rfl, hstep⟩⟩

theorem LaterAlong.trans {P : State → Prop} {m m' m'' : Machine} (h : LaterAlong P m m') (h' : LaterAlong P m' m'') :
    LaterAlong P m m'' := by
  induction h' with
  | refl => exact h
  | run host isRunning _ hs ht ih => exact .run host isRunning ih hs ht

/-- A run makes a later machine. -/
theorem Later.of_run {m : Machine} {start : Start} {o : Outcome} (h : m.run start = some o) :
    m.Later o.machine := by
  unfold Machine.run at h
  split at h
  · cases h
    exact .refl
  split at h
  · cases h
    exact .run start.host m.isRunning .refl .refl .calledOff
  · rw [Option.map_eq_some_iff] at h
    obtain ⟨⟨ending, t⟩, hloop, rfl⟩ := h
    obtain ⟨r, hr, ⟨-, hstep⟩ | ⟨e, -, hstep⟩⟩ := loop_eq_some hloop
    · exact .run start.host _ .refl hr (.halted hstep)
    · exact .run start.host _ .refl hr (.stopped hstep)

/-! ## Disciplined machines -/

namespace Plan
variable {S : Plan} {host : Host}

/-- The machine runs the code of the plan, and its variables are fine. -/
structure Ready (S : Plan) (m : Machine) : Prop where
  code : m.code = S.code
  main : ∃ last, S.Within false 0 0 last
  store : Value.FineStore S.Known m.store

theorem Ready.laid {m : Machine} (h : S.Ready m) : S.Laid m.startState.view := by
  obtain ⟨last, hmain⟩ := h.main
  have hlive : m.startState.view.live = [] := by
    show (m.stack.lower m.stack.height).live = []
    rw [Stack.live_lower]
    exact List.drop_length
  have hwait : S.Waiting m.startState.view.frames [] := .nil
  refine ⟨0, 0, last, [], [], hmain, rfl, hlive, ?_, hwait, ?_, h.store⟩
  · rw [hmain.2.2.starts]
    exact .nil
  · rw [hlive]
    exact Nat.zero_le _

/-- The functions that the code makes start at entries. -/
theorem entry_of_make {k : Nat} {i : Instruction} (hi : S.code.Holds k i) (hop : i.op = .makeFunction) :
    ∃ e, i.target = Int64.ofNat e ∧ S.entry e := by
  obtain ⟨first, last, isBody, hfirst, hlast, hregion⟩ := S.covers k i hi
  rcases Nat.lt_or_eq_of_le hlast with hk | rfl
  · obtain ⟨j, hj, hfits⟩ := hregion.inner k hfirst hk
    obtain rfl : i = j := Option.some.inj (hi.fetch.symm.trans hj.fetch)
    exact hfits.entry hop
  · obtain ⟨j, hj, hop'⟩ := hregion.final
    obtain rfl : i = j := Option.some.inj (hi.fetch.symm.trans hj.fetch)
    rw [hop] at hop'
    cases isBody <;> cases hop'

theorem Made.not_strange {f : Closure} (h : Made S.code f) : ¬ S.Strange (.closure f) := by
  rintro ⟨f', hf', hentry⟩
  cases hf'
  obtain ⟨k, i, hi, hop, htarget⟩ := h
  obtain ⟨e, he, hentry'⟩ := entry_of_make hi hop
  exact hentry ⟨e, htarget.trans he, hentry'⟩

theorem not_callsStrange {s : State} (h : Familiar S.code s) : ¬ S.CallsStrange s.view := by
  rintro ⟨v, hcalls, hstrange⟩
  obtain ⟨f, rfl, -⟩ := id hstrange
  exact Made.not_strange (h f hcalls) hstrange

theorem fine_of_whole {v : Value} (h : v.Whole) (hforeign : S.hasForeign) : v.Fine S.Known := by
  refine Value.Fine.mono (fun w _ => ?_) v h
  cases w with
  | builtin b => exact fun _ => hforeign
  | _ => trivial

theorem Laid.next {s t : State} (h : S.Laid s.view) (hs : Familiar S.code s) (hn : Next S.code host s t) :
    S.Laid t.view := by
  have hkeeps := (h.step : S.Keeps _ _ (Machine.step S.code host) _) s rfl
  cases hn with
  | own hstep =>
    rw [hstep] at hkeeps
    exact (hkeeps.2.resolve_left (by simp)).resolve_right (not_callsStrange hs)
  | @outside u b v written _ _ hstep hv hpush =>
    rw [hstep] at hkeeps
    obtain ⟨-, hinternal | ⟨-, ⟨-, -, hforeign, -⟩, k, first, last, σ, values, rest, hexp⟩⟩ := hkeeps
    · cases hinternal
    · have hpushes := (hexp.output written).push (F := False) (A := False) (fine_of_whole hv hforeign)
        { u with output := written } rfl
      have hdone : (push v >>= fun _ => pure false : Exec Bool) { u with output := written } =
          .ok false t := by
        show EStateM.bind _ _ _ = _
        rw [EStateM.bind, hpush]
        rfl
      rw [hdone] at hpushes
      exact (hpushes.2.resolve_left (by simp)).resolve_right id

theorem Laid.along {s t : State} (h : S.Laid s.view) (ht : Along (Familiar S.code) S.code host s t) :
    S.Laid t.view :=
  ht.preserves (Q := fun u => S.Laid u.view) h fun _ _ hu hP hnext => hu.next hP hnext

theorem Laid.leaves {s t : State} (h : S.Laid s.view) (ht : Leaves S.code host s t) :
    Value.FineStore S.Known t.store := by
  have hkeeps := (h.step : S.Keeps _ _ (Machine.step S.code host) _) s rfl
  cases ht with
  | calledOff => exact h.store
  | halted hstep | stopped hstep =>
    rw [hstep] at hkeeps
    exact hkeeps.1

theorem Ready.later {m m' : Machine} (h : S.Ready m) (hl : LaterAlong (Familiar S.code) m m') : S.Ready m' := by
  induction hl with
  | refl => exact h
  | run _ _ _ hs ht ih =>
    rw [ih.code] at hs ht
    exact ⟨ih.code, ih.main, (ih.laid.along hs).leaves ht⟩

/-- The height that an instruction expects above the base of its call. -/
def expected (S : Plan) (k : Nat) : Nat := (S.layout k).length

theorem Within.holds {isBody : Bool} {k first last : Nat} (h : S.Within isBody k first last) :
    ∃ i, S.code.Holds k i := by
  obtain ⟨hfirst, hlast, hregion⟩ := h
  rcases Nat.lt_or_eq_of_le hlast with hk | rfl
  · obtain ⟨i, hi, -⟩ := hregion.inner k hfirst hk
    exact ⟨i, hi⟩
  · obtain ⟨i, hi, -⟩ := hregion.final
    exact ⟨i, hi⟩

theorem Waiting.length_eq {frames : List Frame} {rest : List Value} (h : S.Waiting frames rest) :
    rest.length = (frames.head?.map (·.height)).getD 0 := by
  cases h with
  | nil => rfl
  | cons _ _ _ _ hheight _ => exact hheight.symm

end Plan

/-! ## Outcomes of runs -/

theorem isInternal_locate (p : Program) (index : Int) (e : Report.RuntimeFault) :
    (Trouble.fault (locate p index e)).isInternal = (Trouble.fault e).isInternal := by
  unfold locate
  split
  · split <;> rfl
  · rfl

end Machine

/-- Whether only code that makes no sense leads to the stop. -/
def Report.Stop.isInternal : Stop → Bool
  | .fault (.running e) => (Machine.Trouble.fault e).isInternal
  | .fault _ | .failed _ | .awaiting _ => false
  | .breakdown => true

namespace Machine

theorem isInternal_stopOf (p : Program) (ip : Int64) (e : Trouble) :
    (stopOf p ip e).isInternal = e.isInternal := by
  cases e with
  | fault e => exact isInternal_locate p _ e
  | breakdown => rfl
  | awaiting path => rfl

/-- A run only ever stops because of what its values are, or in a builtin from outside, unless it calls a
function of another program. -/
theorem Plan.Ready.stop {S : Plan} {m : Machine} (h : S.Ready m) {start : Start} {o : Outcome}
    {stop : Stop} (ho : m.run start = some o) (hstop : o.result = .error stop) :
    stop.isInternal = false ∨ stop = .breakdown ∧ S.hasForeign ∨
      ∃ s, Along (Familiar S.code) S.code start.host m.startState s ∧ ¬ Familiar S.code s := by
  unfold Machine.run at ho
  split at ho
  · cases ho
    cases hstop
    exact .inl rfl
  split at ho
  · cases ho
    cases hstop
    exact .inl rfl
  · rw [Option.map_eq_some_iff] at ho
    obtain ⟨⟨ending, t⟩, hloop, rfl⟩ := ho
    rw [h.code] at hloop
    obtain ⟨r, hr, ⟨rfl, -⟩ | ⟨e, rfl, hstep⟩⟩ := loop_eq_some hloop
    · cases hstop
    · cases hstop
      by_cases hfamiliar : ∃ s, Along (Familiar S.code) S.code start.host m.startState s ∧ ¬ Familiar S.code s
      · exact .inr (.inr hfamiliar)
      have halong := hr.along fun u hu => not_not.mp fun hP => hfamiliar ⟨u, hu, hP⟩
      have hkeeps := ((h.laid.along halong).step : S.Keeps _ _ (step S.code start.host) _) r rfl
      rw [hstep] at hkeeps
      rcases hkeeps.2 with hmild | ⟨rfl, ⟨-, -, hforeign, -⟩, -⟩
      · left
        rw [isInternal_stopOf]
        exact hmild
      · exact .inr (.inl ⟨rfl, hforeign⟩)

end Machine

/-! ## Compiled programs -/

def Builtin.variables (builtins : List Builtin) : List (Text × Value) :=
  builtins.map fun b => (b.name, .builtin b)

/-- Some builtins come from outside: they are among those of the machine, or in what it is given. -/
def Script.HasForeign (builtins : List Builtin) (globals : List (Text × Datum)) (heap : Store) : Prop :=
  ¬ ((∀ b ∈ builtins, b.native ≠ none) ∧ (∀ x ∈ globals, x.2.Fine (Machine.Knows False)) ∧
    Value.FineStore (Machine.Knows False) heap)

/-- What a machine starts with, if nothing in it is a hole. -/
theorem Script.knows_given (builtins : List Builtin) {globals : List (Text × Datum)} {heap : Store}
    {given : List (Text × Value)} (hglobals : Value.ofGlobals globals = .ok given)
    (hwhole : ∀ x ∈ globals, x.2.Whole) (hheap : Value.FineStore (fun _ => True) heap) :
    Value.FineVars (Machine.Knows (Script.HasForeign builtins globals heap)) (Builtin.variables builtins ++ given) ∧
      Value.FineStore (Machine.Knows (Script.HasForeign builtins globals heap)) heap := by
  by_cases hforeign : Script.HasForeign builtins globals heap
  · have hknows : ∀ w, Machine.Knows (Script.HasForeign builtins globals heap) w := by
      intro w
      cases w with
      | builtin b => exact fun _ => hforeign
      | _ => trivial
    refine ⟨fun x hx => ?_, fun e x hx => (hheap e x hx).mono fun w _ => hknows w⟩
    rcases List.mem_append.mp hx with hx | hx
    · obtain ⟨b, -, rfl⟩ := List.mem_map.mp hx
      exact hknows (.builtin b)
    · exact (Value.fine_ofGlobals hglobals hwhole).mono (fun w _ => hknows w) x hx
  · obtain ⟨hbuiltins, hgiven, hheap⟩ := not_not.mp hforeign
    have hknows : ∀ w, Machine.Knows False w → Machine.Knows (Script.HasForeign builtins globals heap) w := by
      intro w hw
      cases w with
      | builtin b => exact fun hnone => (hw hnone).elim
      | _ => trivial
    refine ⟨fun x hx => ?_, fun e x hx => (hheap e x hx).mono hknows⟩
    rcases List.mem_append.mp hx with hx | hx
    · obtain ⟨b, hb, rfl⟩ := List.mem_map.mp hx
      exact hknows (.builtin b) (hbuiltins b hb)
    · exact (Value.fine_ofGlobals hglobals hgiven).mono hknows x hx

end Bareword
