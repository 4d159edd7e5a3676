import Bareword.Machine.Run
import Mathlib

/-! # What a machine shows

The places above the top of the stack never matter to code that takes only what it has put there.
A state is looked at without them, and actions are described by what they do to such a view.

* `State.view`: a state without the places above its top.
* `Yields`, `Refuses`: what an action answers and leaves behind, or why it stops.
* `Leads`: how an action goes on after its first part.
* `Goes`: some steps, none of which halts; `Goes.loop` turns them into a run with enough fuel.
* `ended`: what a run shows that ended in a state.
* `withHeap`: a machine whose global variables hold functions that were made elsewhere.
* `State.scene`: the calls of a state with their environments.
-/

namespace Bareword.Machine
set_option autoImplicit false

/-! ## Views -/

/-- A state without the places above the top of its stack. -/
structure View where
  ip : Int64
  live : List Value
  frames : List Frame
  env : Nat
  store : Store
  made : Nat
  output : Text

/-- What a state shows. -/
def State.view (s : State) : View :=
  ⟨s.ip, s.stack.live, s.frames, s.env, s.store, s.made, s.output⟩

/-- The action answers `a` and takes every state that shows `c` to one that shows `d`. -/
def Yields {α : Type} (x : Exec α) (c : View) (a : α) (d : View) : Prop :=
  ∀ s : State, s.view = c → ∃ s', x s = .ok a s' ∧ s'.view = d

/-- The action stops in trouble `e` from every state that shows `c`, in one that shows `d`. -/
def Refuses {α : Type} (x : Exec α) (c : View) (e : Trouble) (d : View) : Prop :=
  ∀ s : State, s.view = c → ∃ s', x s = .error e s' ∧ s'.view = d

section Actions
variable {α β : Type} {x : Exec α} {f : α → Exec β} {a : α} {b : β} {c d d' : View} {e : Trouble}

theorem Refuses.bind (hx : Refuses x c e d) (f : α → Exec β) : Refuses (x >>= f) c e d := by
  intro s hs
  obtain ⟨s₁, h₁, hs₁⟩ := hx s hs
  refine ⟨s₁, ?_, hs₁⟩
  show EStateM.bind x f s = _
  rw [EStateM.bind, h₁]

/-- The action `x` from a state that shows `c` goes on as `y` from one that shows `d`. -/
def Leads {α : Type} (x : Exec α) (c : View) (y : Exec α) (d : View) : Prop :=
  ∀ s : State, s.view = c → ∃ s' : State, s'.view = d ∧ x s = y s'

theorem Yields.leads (hx : Yields x c a d) (f : α → Exec β) : Leads (x >>= f) c (f a) d := by
  intro s hs
  obtain ⟨s₁, h₁, hs₁⟩ := hx s hs
  refine ⟨s₁, hs₁, ?_⟩
  show EStateM.bind x f s = _
  rw [EStateM.bind, h₁]

theorem Leads.trans {x y z : Exec α} (h₁ : Leads x c y d) (h₂ : Leads y d z d') :
    Leads x c z d' := by
  intro s hs
  obtain ⟨s₁, hs₁, e₁⟩ := h₁ s hs
  obtain ⟨s₂, hs₂, e₂⟩ := h₂ s₁ hs₁
  exact ⟨s₂, hs₂, e₁.trans e₂⟩

theorem Leads.bind {x y : Exec α} (h : Leads x c y d) (f : α → Exec β) :
    Leads (x >>= f) c (y >>= f) d := by
  intro s hs
  obtain ⟨s₁, hs₁, e₁⟩ := h s hs
  refine ⟨s₁, hs₁, ?_⟩
  show EStateM.bind x f s = EStateM.bind y f s₁
  rw [EStateM.bind, EStateM.bind, e₁]

theorem Leads.yields {x y : Exec α} (h : Leads x c y d) (hy : Yields y d a d') :
    Yields x c a d' := by
  intro s hs
  obtain ⟨s₁, hs₁, e₁⟩ := h s hs
  rw [e₁]
  exact hy s₁ hs₁

theorem Leads.refuses {x y : Exec α} (h : Leads x c y d) (hy : Refuses y d e d') :
    Refuses x c e d' := by
  intro s hs
  obtain ⟨s₁, hs₁, e₁⟩ := h s hs
  rw [e₁]
  exact hy s₁ hs₁

theorem Yields.bind (hx : Yields x c a d) (hf : Yields (f a) d b d') : Yields (x >>= f) c b d' :=
  (hx.leads f).yields hf

theorem Yields.refuses (hx : Yields x c a d) (hf : Refuses (f a) d e d') :
    Refuses (x >>= f) c e d' :=
  (hx.leads f).refuses hf

end Actions

theorem yields_pure {α : Type} (a : α) (c : View) : Yields (pure a) c a c :=
  fun s hs => ⟨s, rfl, hs⟩

theorem refuses_throw {α : Type} (e : Trouble) (c : View) : Refuses (throw e : Exec α) c e c :=
  fun s hs => ⟨s, rfl, hs⟩

theorem refuses_fail {α : Type} (code : Report.Code) (message : Text) (c : View) :
    Refuses (fail code message : Exec α) c (.fault (.of code message)) c :=
  refuses_throw _ c

/-- What is asked about a state does not depend on the places above its top. -/
theorem yields_get {α : Type} {c d : View} {a : α} {f : State → Exec α}
    (h : ∀ s : State, s.view = c → Yields (f s) c a d) : Yields (get >>= f) c a d :=
  fun s hs => h s hs s hs

theorem refuses_get {α : Type} {c d : View} {e : Trouble} {f : State → Exec α}
    (h : ∀ s : State, s.view = c → Refuses (f s) c e d) : Refuses (get >>= f) c e d :=
  fun s hs => h s hs s hs

theorem leads_get {α : Type} {c d : View} {f : State → Exec α} {y : Exec α}
    (h : ∀ s : State, s.view = c → Leads (f s) c y d) : Leads (get >>= f) c y d :=
  fun s hs => h s hs s hs

theorem yields_modify {c d : View} {f : State → State}
    (h : ∀ s : State, s.view = c → (f s).view = d) : Yields (modify f) c () d :=
  fun s hs => ⟨f s, rfl, h s hs⟩

/-! ## The stack -/

theorem yields_set {c d : View} {s : State} (h : s.view = d) : Yields (set s) c () d :=
  fun _ _ => ⟨s, rfl, h⟩

theorem yields_push (v : Value) (c : View) (h : c.live.length < Stack.limit) :
    Yields (push v) c () { c with live := v :: c.live } := by
  refine yields_get fun s hs => ?_
  subst hs
  have h' : ¬ (s.stack.height + 1 > Stack.limit) := by
    have : s.stack.live.length < Stack.limit := h
    unfold Stack.height
    omega
  rw [Stack.push?, if_neg h']
  exact yields_set rfl

def overflow : Trouble := .fault (.of .stackOverflow "stack overflow")

theorem refuses_push (v : Value) (c : View) (h : ¬ c.live.length < Stack.limit) :
    Refuses (push v) c overflow c := by
  refine refuses_get fun s hs => ?_
  subst hs
  have h' : s.stack.height + 1 > Stack.limit := by
    have : ¬ s.stack.live.length < Stack.limit := h
    unfold Stack.height
    omega
  rw [Stack.push?, if_pos h']
  exact refuses_fail _ _ _

theorem yields_pop (v : Value) (rest : List Value) (c : View) :
    Yields pop { c with live := v :: rest } v { c with live := rest } := by
  refine yields_get fun s hs => ?_
  have hl : s.stack.live = v :: rest := congrArg View.live hs
  rw [Stack.pop?, hl]
  refine (yields_set ?_).bind (yields_pure v _)
  simp only [State.view, View.mk.injEq] at hs ⊢
  exact ⟨hs.1, trivial, hs.2.2⟩

theorem yields_top (v : Value) (rest : List Value) (c : View) :
    Yields top { c with live := v :: rest } v { c with live := v :: rest } := by
  refine yields_get fun s hs => ?_
  have hl : s.stack.live = v :: rest := congrArg View.live hs
  rw [Stack.top?, hl]
  exact yields_pure v _

/-- Taking several values gives them back in the order in which they were put on the stack. -/
theorem yields_popInto (vs acc rest : List Value) (c : View) :
    Yields (popInto vs.length acc) { c with live := vs.reverse ++ rest } (vs ++ acc)
      { c with live := rest } := by
  induction vs using List.reverseRecOn generalizing acc with
  | nil => exact yields_pure acc _
  | append_singleton vs v ih =>
    rw [List.length_append, List.length_singleton, List.reverse_append, List.reverse_singleton,
      List.singleton_append, List.cons_append, List.append_assoc, List.singleton_append]
    exact (yields_pop v (vs.reverse ++ rest) c).bind (ih (v :: acc))

/-- The stack entries of values with names, each name below its value. -/
def namedEntries (named : List (Text × Value)) : List Value :=
  named.flatMap fun (name, v) => [.text name, v]

/-- Of two values of one name the first counts. -/
def namedArgs (named : List (Text × Value)) : List (Text × Value) :=
  named.foldr (fun (name, v) fields => Value.setField name v fields) []

theorem yields_popNamed (named acc : List (Text × Value)) (rest : List Value) (c : View) :
    Yields (popNamed named.length acc) { c with live := (namedEntries named).reverse ++ rest }
      (named.foldr (fun (name, v) fields => Value.setField name v fields) acc)
      { c with live := rest } := by
  induction named using List.reverseRecOn generalizing acc with
  | nil => exact yields_pure acc _
  | append_singleton named entry ih =>
    obtain ⟨name, v⟩ := entry
    have hentries : (namedEntries (named ++ [(name, v)])).reverse ++ rest =
        v :: .text name :: ((namedEntries named).reverse ++ rest) := by
      simp [namedEntries]
    rw [hentries, List.length_append, List.length_singleton, List.foldr_append]
    refine (yields_pop v _ c).bind ?_
    refine (yields_pop (.text name) _ c).bind ?_
    exact (yields_pure (Value.text name) _).bind (ih (Value.setField name v acc))

/-! ## Steps -/

/-- Some steps, none of which halts. -/
inductive Goes (code : Code) (host : Host) : View → View → Prop where
  | refl (c : View) : Goes code host c c
  | cons {c d e : View} : Yields (step code host) c false d → Goes code host d e → Goes code host c e

theorem Goes.single {code : Code} {host : Host} {c d : View}
    (h : Yields (step code host) c false d) : Goes code host c d :=
  .cons h (.refl d)

theorem Goes.trans {code : Code} {host : Host} {c d e : View} (h₁ : Goes code host c d)
    (h₂ : Goes code host d e) : Goes code host c e := by
  induction h₁ with
  | refl => exact h₂
  | cons hs _ ih => exact .cons hs (ih h₂)

/-- Steps are taken by a run with enough fuel. -/
theorem Goes.loop {code : Code} {host : Host} {c d : View} (h : Goes code host c d) :
    ∀ s : State, s.view = c → ∃ n s', s'.view = d ∧
      ∀ fuel, Machine.loop code host (n + fuel) s = Machine.loop code host fuel s' := by
  induction h with
  | refl =>
    intro s hs
    refine ⟨0, s, hs, fun fuel => ?_⟩
    rw [Nat.zero_add]
  | cons hs _ ih =>
    intro s hv
    obtain ⟨s₁, h₁, hv₁⟩ := hs s hv
    obtain ⟨n, s', hv', hloop⟩ := ih s₁ hv₁
    refine ⟨n + 1, s', hv', fun fuel => ?_⟩
    have hn : n + 1 + fuel = (n + fuel) + 1 := by omega
    rw [hn, Machine.loop, h₁]
    exact hloop fuel

/-! ## Outcomes -/

/-- What a run that ended shows. -/
def ended (m : Machine) (ending : Except Trouble Unit) (s : State) : Outcome :=
  { result :=
      match ending with
      | .ok () => .ok (s.stack.top?.getD .null)
      | .error e => .error (stopOf m.program s.ip e)
    output := s.output
    machine :=
      { m with
        store := s.store, stack := s.stack, made := s.made
        isRunning := match ending with | .error .breakdown => true | _ => false } }

/-! ## Functions from elsewhere -/

/-- A machine whose global variables may hold functions that were made elsewhere. It has the environments that
they were made in, and `made` tells its own functions from them. -/
def withHeap (m : Machine) (heap : Store) (made : Nat) : Machine := { m with store := m.store ++ heap, made }

/-! ## Scenes -/

/-- The calls that have not returned, the current environment and all environments. -/
structure Scene where
  frames : List Frame
  env : Nat
  store : Store

def State.scene (s : State) : Scene := ⟨s.frames, s.env, s.store⟩

/-- The state that an action ends in, whether it comes to a result or not. -/
def finalState {α : Type} : EStateM.Result Trouble State α → State
  | .ok _ t | .error _ t => t

end Bareword.Machine
