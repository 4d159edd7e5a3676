import Bareword.Proofs.Machine.View
import Mathlib.Data.List.Basic

/-! # What instructions do to a view

One lemma for every kind of instruction, in terms of the values on the stack.

* `Code.Holds`: the instruction at an index.
* `Stateless`: an action that neither looks at the state nor changes it; its `outcome` is all there
  is to it.
* `Pushes`: a step that puts one value on the stack or finds it full.
-/

namespace Bareword.Machine
set_option autoImplicit false

/-! ## Actions that do not touch the state -/

/-- What an action comes to that does not look at the state. -/
def outcome {α : Type} (x : Exec α) : Except Trouble α :=
  match x default with
  | .ok a _ => .ok a
  | .error e _ => .error e

/-- The action neither looks at the state nor changes it. -/
def Stateless {α : Type} (x : Exec α) : Prop :=
  ∀ s : State, x s =
    match outcome x with
    | .ok a => .ok a s
    | .error e => .error e s

theorem stateless_pure {α : Type} (a : α) : Stateless (pure a : Exec α) := fun _ => rfl

theorem stateless_throw {α : Type} (e : Trouble) : Stateless (throw e : Exec α) := fun _ => rfl

theorem stateless_fail {α : Type} (code : Report.Code) (message : Text) :
    Stateless (fail code message : Exec α) := stateless_throw _

theorem Stateless.yields {α : Type} {x : Exec α} {a : α} (h : Stateless x) (ho : outcome x = .ok a)
    (c : View) : Yields x c a c := by
  intro s hs
  refine ⟨s, ?_, hs⟩
  rw [h s, ho]

theorem Stateless.refuses {α : Type} {x : Exec α} {e : Trouble} (h : Stateless x)
    (ho : outcome x = .error e) (c : View) : Refuses x c e c := by
  intro s hs
  refine ⟨s, ?_, hs⟩
  rw [h s, ho]

theorem Stateless.bind {α β : Type} {x : Exec α} {f : α → Exec β} (hx : Stateless x)
    (hf : ∀ a, Stateless (f a)) : Stateless (x >>= f) := by
  intro s
  show EStateM.bind x f s = _
  have hd : outcome (x >>= f) = (outcome x).bind fun a => outcome (f a) := by
    show (match EStateM.bind x f default with | .ok a _ => _ | .error e _ => _) = _
    rw [EStateM.bind, hx default]
    cases outcome x with
    | error e => rfl
    | ok a => rfl
  rw [hd, EStateM.bind, hx s]
  cases outcome x with
  | error e => rfl
  | ok a => exact hf a s

theorem stateless_present (v : Value) : Stateless (present v) := by
  cases v <;> first | exact stateless_pure _ | exact stateless_throw _

theorem stateless_arithmetic (op : Opcode) (a b : Value) : Stateless (arithmetic op a b) := by
  unfold arithmetic
  split
  · split
    · exact stateless_pure _
    · exact stateless_pure _
    · exact stateless_pure _
    · split
      · exact stateless_fail _ _
      · exact stateless_pure _
  · exact (stateless_present _).bind fun _ => (stateless_present _).bind fun _ => stateless_fail _ _

theorem stateless_compare (op : Opcode) (a b : Value) : Stateless (compare op a b) := by
  unfold compare
  split
  · exact stateless_pure _
  · exact stateless_pure _
  · exact (stateless_present _).bind fun _ => (stateless_present _).bind fun _ => stateless_fail _ _

theorem stateless_equal (a b : Value) : Stateless (equal a b) := by
  refine (stateless_present _).bind fun a => ?_
  split
  · exact (stateless_present _).bind fun _ => stateless_pure _
  · exact stateless_pure _

theorem stateless_fieldOf (name : Text) (base : Value) : Stateless (fieldOf name base) := by
  refine (stateless_present _).bind fun a => ?_
  split
  · split
    · exact stateless_pure _
    · exact stateless_fail _ _
  · exact stateless_fail _ _

/-! ## One step -/

theorem ofNat_add_one (p : Nat) : Int64.ofNat p + 1 = Int64.ofNat (p + 1) :=
  (Int64.ofNat_add p 1).symm

/-- The instruction at an index of a program that is not too long for its indices. -/
structure Code.Holds (code : Code) (p : Nat) (i : Instruction) : Prop where
  small : code.instructions.size < 2 ^ 63
  fetch : code.instructions[p]? = some i

theorem Code.Holds.lt {code : Code} {p : Nat} {i : Instruction} (h : code.Holds p i) :
    p < 2 ^ 63 := by
  have := (Array.getElem?_eq_some_iff.mp h.fetch).1
  have := h.small
  omega

theorem Code.Holds.get? {code : Code} {p : Nat} {i : Instruction} (h : code.Holds p i) :
    code.get? (Int64.ofNat p) = some i := by
  have hi := Int64.toInt_ofNat_of_lt h.lt
  have hneg : ¬ (Int64.ofNat p < 0) := by
    rw [Int64.lt_iff_toInt_lt, hi]
    simp
  rw [Code.get?, if_neg hneg, hi, Int.toNat_natCast]
  exact h.fetch

section Steps
variable {code : Code} {host : Host} {p : Nat} {i : Instruction} {c d : View}

/-- A step does what its instruction does, with the index moved on. -/
theorem Code.Holds.leads (h : code.Holds p i) (hip : c.ip = Int64.ofNat p) :
    Leads (step code host) c (execute code host p i) { c with ip := Int64.ofNat (p + 1) } := by
  refine leads_get fun s hs => ?_
  have hs' : s.ip = Int64.ofNat p := (congrArg View.ip hs).trans hip
  rw [hs', h.get?, Int64.toInt_ofNat_of_lt h.lt, Int.toNat_natCast]
  refine (yields_set ?_).leads _
  subst hs
  rw [State.view, State.view, ofNat_add_one]

/-- The next step puts `v` on the stack, or finds the stack full. -/
structure Pushes (code : Code) (host : Host) (c : View) (p : Nat) (v : Value) : Prop where
  room : c.live.length < Stack.limit →
    Yields (step code host) c false { c with ip := Int64.ofNat (p + 1), live := v :: c.live }
  full : ¬ c.live.length < Stack.limit →
    Refuses (step code host) c overflow { c with ip := Int64.ofNat (p + 1) }

theorem Code.Holds.pushes {v : Value} (h : code.Holds p i) (hip : c.ip = Int64.ofNat p)
    (hx : Leads (execute code host p i) { c with ip := Int64.ofNat (p + 1) }
      (push v >>= fun _ => pure false) { c with ip := Int64.ofNat (p + 1) }) :
    Pushes code host c p v where
  room hr := ((h.leads hip).trans hx).yields
    ((yields_push v { c with ip := Int64.ofNat (p + 1) } hr).bind (yields_pure false _))
  full hf := ((h.leads hip).trans hx).refuses
    ((refuses_push v { c with ip := Int64.ofNat (p + 1) } hf).bind _)

theorem leads_refl {α : Type} (x : Exec α) (c : View) : Leads x c x c := fun s hs => ⟨s, hs, rfl⟩

theorem pushes_constant {v : Value} (h : code.Holds p i) (hop : i.op = .push)
    (hv : code.constants[p]? = some v) (hip : c.ip = Int64.ofNat p) : Pushes code host c p v := by
  refine h.pushes hip ?_
  unfold execute
  simp only [hop]
  have hget : code.constants.getD p .hole = v := by
    rw [Array.getD_eq_getD_getElem?, hv, Option.getD_some]
  rw [hget]
  exact leads_refl _ _

theorem yields_load (name : Text) (c : View) :
    Yields (load name) c ((c.store.get? c.env name).getD (.text name)) c := by
  refine yields_get fun s hs => ?_
  subst hs
  exact yields_pure _ _

theorem pushes_load (h : code.Holds p i) (hop : i.op = .tryLoad) (hip : c.ip = Int64.ofNat p) :
    Pushes code host c p ((c.store.get? c.env i.name).getD (.text i.name)) := by
  refine h.pushes hip ?_
  unfold execute
  simp only [hop]
  exact (yields_load i.name _).leads _

theorem pushes_dup {v : Value} {rest : List Value} (h : code.Holds p i) (hop : i.op = .dup)
    (hip : c.ip = Int64.ofNat p) (hl : c.live = v :: rest) : Pushes code host c p v := by
  refine h.pushes hip ?_
  unfold execute
  simp only [hop]
  rw [hl]
  exact (yields_top v rest { c with ip := Int64.ofNat (p + 1) }).leads _

theorem yields_pop_step {v : Value} {rest : List Value} (h : code.Holds p i) (hop : i.op = .pop)
    (hip : c.ip = Int64.ofNat p) (hl : c.live = v :: rest) :
    Yields (step code host) c false { c with ip := Int64.ofNat (p + 1), live := rest } := by
  refine (h.leads hip).yields ?_
  unfold execute
  simp only [hop]
  rw [hl]
  exact (yields_pop v rest { c with ip := Int64.ofNat (p + 1) }).bind (yields_pure _ _)

theorem yields_store_step {v : Value} {rest : List Value} (h : code.Holds p i) (hop : i.op = .store)
    (hip : c.ip = Int64.ofNat p) (hl : c.live = v :: rest) :
    Yields (step code host) c false
      { c with ip := Int64.ofNat (p + 1), store := c.store.set c.env i.name v } := by
  refine (h.leads hip).yields ?_
  unfold execute
  simp only [hop]
  rw [hl]
  refine (yields_top v rest { c with ip := Int64.ofNat (p + 1) }).bind ?_
  refine (yields_modify ?_).bind (yields_pure _ _)
  intro s hs
  simp only [State.view, View.mk.injEq] at hs ⊢
  obtain ⟨h₁, h₂, h₃, h₄, h₅, h₆, h₇⟩ := hs
  exact ⟨h₁, h₂, h₃, h₄, by rw [h₄, h₅], h₆, h₇⟩

/-! ## Operations on values -/

def operation : Opcode → Option (Value → Value → Exec Value)
  | .add => some (arithmetic .add)
  | .sub => some (arithmetic .sub)
  | .mul => some (arithmetic .mul)
  | .div => some (arithmetic .div)
  | .eq => some fun a b => do return .bool (← equal a b)
  | .neq => some fun a b => do return .bool (!(← equal a b))
  | .lt => some (compare .lt)
  | .gt => some (compare .gt)
  | .lte => some (compare .lte)
  | .gte => some (compare .gte)
  | _ => none

theorem stateless_operation {op : Opcode} {f : Value → Value → Exec Value}
    (h : operation op = some f) (a b : Value) : Stateless (f a b) := by
  cases op <;> simp only [operation, Option.some.injEq, reduceCtorEq] at h <;> subst h
  case eq => exact (stateless_equal a b).bind fun _ => stateless_pure _
  case neq => exact (stateless_equal a b).bind fun _ => stateless_pure _
  case lt | gt | lte | gte => exact stateless_compare _ a b
  case add | sub | mul | div => exact stateless_arithmetic _ a b

theorem execute_operation {k : Nat} {f : Value → Value → Exec Value}
    (hop : operation i.op = some f) :
    execute code host k i = do
      let b ← pop
      let a ← pop
      let v ← f a b
      push v
      return false := by
  unfold execute
  cases h : i.op <;> simp only [h, operation, Option.some.injEq, reduceCtorEq] at hop <;> subst hop <;>
    simp only [bind_assoc, pure_bind]

theorem leads_operation {f : Value → Value → Exec Value} {a b : Value} {rest : List Value}
    (hop : operation i.op = some f) :
    Leads (execute code host p i) { c with live := b :: a :: rest }
      (f a b >>= fun v => push v >>= fun _ => pure false) { c with live := rest } := by
  rw [execute_operation hop]
  exact ((yields_pop b (a :: rest) c).leads _).trans ((yields_pop a rest c).leads _)

theorem yields_operation {f : Value → Value → Exec Value} {a b v : Value} {rest : List Value}
    (h : code.Holds p i) (hop : operation i.op = some f) (hip : c.ip = Int64.ofNat p)
    (hl : c.live = b :: a :: rest) (hroom : rest.length < Stack.limit)
    (hv : outcome (f a b) = .ok v) :
    Yields (step code host) c false { c with ip := Int64.ofNat (p + 1), live := v :: rest } := by
  refine (h.leads hip).yields ?_
  rw [hl]
  refine (leads_operation (c := { c with ip := Int64.ofNat (p + 1) }) hop).yields ?_
  refine ((stateless_operation hop a b).yields hv _).bind ?_
  exact (yields_push v { c with ip := Int64.ofNat (p + 1), live := rest } hroom).bind
    (yields_pure false _)

theorem refuses_operation {f : Value → Value → Exec Value} {a b : Value} {e : Trouble}
    {rest : List Value} (h : code.Holds p i) (hop : operation i.op = some f)
    (hip : c.ip = Int64.ofNat p) (hl : c.live = b :: a :: rest) (he : outcome (f a b) = .error e) :
    Refuses (step code host) c e { c with ip := Int64.ofNat (p + 1), live := rest } := by
  refine (h.leads hip).refuses ?_
  rw [hl]
  refine (leads_operation (c := { c with ip := Int64.ofNat (p + 1) }) hop).refuses ?_
  exact ((stateless_operation hop a b).refuses he _).bind _

theorem leads_field {base : Value} {rest : List Value} (h : code.Holds p i) (hop : i.op = .dotGet)
    (hip : c.ip = Int64.ofNat p) (hl : c.live = base :: rest) :
    Leads (step code host) c (fieldOf i.name base >>= fun v => push v >>= fun _ => pure false)
      { c with ip := Int64.ofNat (p + 1), live := rest } := by
  refine (h.leads hip).trans ?_
  unfold execute
  simp only [hop]
  rw [hl]
  exact (yields_pop base rest { c with ip := Int64.ofNat (p + 1) }).leads _

theorem yields_field {base v : Value} {rest : List Value} (h : code.Holds p i)
    (hop : i.op = .dotGet) (hip : c.ip = Int64.ofNat p) (hl : c.live = base :: rest)
    (hroom : rest.length < Stack.limit) (hv : outcome (fieldOf i.name base) = .ok v) :
    Yields (step code host) c false { c with ip := Int64.ofNat (p + 1), live := v :: rest } := by
  refine (leads_field h hop hip hl).yields (((stateless_fieldOf _ _).yields hv _).bind ?_)
  exact (yields_push v { c with ip := Int64.ofNat (p + 1), live := rest } hroom).bind
    (yields_pure false _)

theorem refuses_field {base : Value} {e : Trouble} {rest : List Value} (h : code.Holds p i)
    (hop : i.op = .dotGet) (hip : c.ip = Int64.ofNat p) (hl : c.live = base :: rest)
    (he : outcome (fieldOf i.name base) = .error e) :
    Refuses (step code host) c e { c with ip := Int64.ofNat (p + 1), live := rest } :=
  (leads_field h hop hip hl).refuses (((stateless_fieldOf _ _).refuses he _).bind _)

theorem leads_concat {parts rest : List Value} (h : code.Holds p i) (hop : i.op = .strConcat)
    (hip : c.ip = Int64.ofNat p) (hl : c.live = parts.reverse ++ rest)
    (hn : i.count = Int64.ofNat parts.length) (hsmall : parts.length ≤ Stack.limit)
    (hholes : parts.any (·.isHole) = false) :
    Leads (step code host) c (push (.text (Value.joinAll [] parts)) >>= fun _ => pure false)
      { c with ip := Int64.ofNat (p + 1), live := rest } := by
  refine (h.leads hip).trans ?_
  unfold execute
  simp only [hop]
  rw [hl, concat]
  have hlimit : Stack.limit = 1024 := rfl
  have hint : i.count.toInt = parts.length := by
    rw [hn]
    exact Int64.toInt_ofNat_of_lt (by omega)
  have hsign : ¬ (i.count < 0 ∨ i.count.toInt > maxGathered) := by
    rw [Int64.lt_iff_toInt_lt, hint, maxGathered]
    simp
    omega
  rw [if_neg hsign, hint, Int.toNat_natCast]
  have hpop := yields_popInto parts [] rest { c with ip := Int64.ofNat (p + 1) }
  rw [List.append_nil] at hpop
  refine Leads.bind ((hpop.leads _).trans ?_) _
  rw [hholes]
  exact leads_refl _ _

theorem yields_concat {parts rest : List Value} (h : code.Holds p i) (hop : i.op = .strConcat)
    (hip : c.ip = Int64.ofNat p) (hl : c.live = parts.reverse ++ rest)
    (hn : i.count = Int64.ofNat parts.length) (hsmall : parts.length ≤ Stack.limit)
    (hholes : parts.any (·.isHole) = false) (hroom : rest.length < Stack.limit) :
    Yields (step code host) c false
      { c with ip := Int64.ofNat (p + 1), live := .text (Value.joinAll [] parts) :: rest } :=
  (leads_concat h hop hip hl hn hsmall hholes).yields
    ((yields_push _ { c with ip := Int64.ofNat (p + 1), live := rest } hroom).bind
      (yields_pure false _))

/-! ## Jumps -/

theorem yields_jumpTo (target : Int64) (c : View) :
    Yields (jumpTo target) c () { c with ip := target } :=
  yields_modify fun _ hs => hs ▸ rfl

theorem yields_jump (h : code.Holds p i) (hop : i.op = .jump) (hip : c.ip = Int64.ofNat p) :
    Yields (step code host) c false { c with ip := i.target } := by
  refine (h.leads hip).yields ?_
  unfold execute
  simp only [hop]
  exact (yields_jumpTo i.target _).bind (yields_pure false _)

/-- A conditional jump; `stopOn` is the truth value that it jumps on. -/
theorem yields_jumpIf {v : Value} {rest : List Value} (stopOn : Bool) (h : code.Holds p i)
    (hop : i.op = if stopOn then .jumpIfTrue else .jumpIfFalse) (hip : c.ip = Int64.ofNat p)
    (hl : c.live = v :: rest) (hv : v.isHole = false) :
    Yields (step code host) c false
      { c with ip := if v.isTruthy = stopOn then i.target else Int64.ofNat (p + 1), live := rest } := by
  refine (h.leads hip).yields ?_
  have hpresent : outcome (present v) = .ok v := by
    cases v <;> first | rfl | cases hv
  have hpop := (yields_pop v rest { c with ip := Int64.ofNat (p + 1) })
  have hpv := (stateless_present v).yields hpresent { c with ip := Int64.ofNat (p + 1), live := rest }
  unfold execute
  rw [hl]
  cases stopOn with
  | true =>
    simp only [hop, if_true]
    refine hpop.bind (hpv.bind ?_)
    cases v.isTruthy with
    | true => exact (yields_jumpTo i.target _).bind (yields_pure false _)
    | false => exact yields_pure false _
  | false =>
    simp only [hop, Bool.false_eq_true, if_false]
    refine hpop.bind (hpv.bind ?_)
    cases v.isTruthy with
    | true => exact yields_pure false _
    | false => exact (yields_jumpTo i.target _).bind (yields_pure false _)

/-! ## Functions and calls -/

/-- The function that an instruction makes. -/
def madeBy (i : Instruction) (c : View) : Closure := ⟨c.made, i.params, i.target, c.env⟩

theorem leads_makeFunction (h : code.Holds p i) (hop : i.op = .makeFunction)
    (hip : c.ip = Int64.ofNat p) :
    Leads (step code host) c (push (.closure (madeBy i c)) >>= fun _ => pure false)
      { c with ip := Int64.ofNat (p + 1), made := c.made + 1 } := by
  refine (h.leads hip).trans ?_
  unfold execute
  simp only [hop]
  refine Leads.bind ?_ _
  refine leads_get fun s hs => ?_
  simp only [State.view, View.mk.injEq] at hs
  obtain ⟨h₁, h₂, h₃, h₄, h₅, h₆, h₇⟩ := hs
  have hc : (⟨s.made, i.params, i.target, s.env⟩ : Closure) = madeBy i c := by
    rw [madeBy, h₄, h₆]
  rw [hc]
  refine (yields_set ?_).leads _
  simp only [State.view, View.mk.injEq]
  exact ⟨h₁, h₂, h₃, h₄, h₅, by rw [h₆], h₇⟩

/-- The trouble that a builtin without a result leads to. -/
def Refusal.trouble : Refusal → Trouble
  | .fault e => .fault e
  | .plain message => .fault (.of .invalidOperation message)
  | .noValue => .breakdown
  | .awaiting path => .awaiting path

theorem yields_native {b : Builtin} {args : Args} {v : Value} {written : Text}
    (hb : b.call host args = .ok (v, written)) (c : View) :
    Yields (native host b args) c v { c with output := c.output ++ written } := by
  unfold native
  rw [hb]
  refine (yields_modify ?_).bind (yields_pure v _)
  intro s hs
  subst hs
  rfl

theorem refuses_native {b : Builtin} {args : Args} {r : Refusal}
    (hb : b.call host args = .error r) (c : View) :
    Refuses (native host b args) c (Refusal.trouble r) c := by
  unfold native
  rw [hb]
  cases r <;> exact refuses_throw _ c

def tooDeep : Trouble :=
  .fault (.of .stackOverflow ("maximum call depth of " ++ Text.ofNat maxFrames ++ " exceeded"))

theorem yields_enter {f : Closure} {args : Args} {vars : Closure.Vars}
    (hdepth : c.frames.length + 1 < maxFrames) (hb : f.bind args = .ok vars) :
    Yields (enter f args) c ()
      { c with
        ip := f.entry, env := c.store.size, store := c.store.push ⟨vars, some f.env⟩
        frames := ⟨c.ip, c.live.length, c.env⟩ :: c.frames } := by
  refine yields_get fun s hs => ?_
  subst hs
  have hdepth' : ¬ (s.frames.length + 1 ≥ maxFrames) := by
    have : s.frames.length + 1 < maxFrames := hdepth
    omega
  rw [if_neg hdepth', hb]
  exact yields_set rfl

theorem refuses_enter_deep {f : Closure} {args : Args} (hdepth : ¬ c.frames.length + 1 < maxFrames) :
    Refuses (enter f args) c tooDeep c := by
  refine refuses_get fun s hs => ?_
  subst hs
  have hdepth' : s.frames.length + 1 ≥ maxFrames := by
    have : ¬ s.frames.length + 1 < maxFrames := hdepth
    omega
  rw [if_pos hdepth']
  exact refuses_fail _ _ _

theorem refuses_enter_bind {f : Closure} {args : Args} {e : Report.RuntimeFault}
    (hdepth : c.frames.length + 1 < maxFrames) (hb : f.bind args = .error e) :
    Refuses (enter f args) c (.fault e) c := by
  refine refuses_get fun s hs => ?_
  subst hs
  have hdepth' : ¬ (s.frames.length + 1 ≥ maxFrames) := by
    have : s.frames.length + 1 < maxFrames := hdepth
    omega
  rw [if_neg hdepth', hb]
  exact refuses_throw _ _

/-- The fault of calling a text; `names` are those that can be seen. -/
def notAFunction (t : Text) (names : List Text) : Trouble :=
  .fault
    { code := Report.Code.notCallable.text
      message := Text.quoted t ++ " is not a function"
      hint := Report.didYouMean (Report.suggest t names) }

theorem leads_call_closure (f : Closure) (args : Args) :
    Leads (call host (.closure f) args) c (enter f args) c :=
  (yields_pure (Value.closure f) c).leads _

theorem leads_call_builtin (b : Builtin) (args : Args) :
    Leads (call host (.builtin b) args) c (native host b args >>= push) c :=
  (yields_pure (Value.builtin b) c).leads _

theorem refuses_call_text (t : Text) (args : Args) :
    Refuses (call host (.text t) args) c (notAFunction t (c.store.names c.env)) c := by
  refine (yields_pure (Value.text t) c).refuses ?_
  refine refuses_get fun s hs => ?_
  subst hs
  exact refuses_throw _ _

/-- Whether a value is called as a function, as a builtin, or to no avail. -/
def Value.isCallable : Value → Bool
  | .closure _ | .builtin _ => true
  | _ => false

theorem refuses_call_other {v : Value} (args : Args) (hc : Value.isCallable v = false)
    (ht : ∀ t, v ≠ .text t) (hh : v.isHole = false) :
    Refuses (call host v args) c (.fault (.of .notCallable (v.typeName ++ " is not callable"))) c := by
  cases v with
  | closure _ | builtin _ => cases hc
  | text t => exact absurd rfl (ht t)
  | hole => cases hh
  | null => exact (yields_pure Value.null c).refuses (refuses_fail _ _ c)
  | bool b => exact (yields_pure (Value.bool b) c).refuses (refuses_fail _ _ c)
  | number x => exact (yields_pure (Value.number x) c).refuses (refuses_fail _ _ c)
  | regex r f => exact (yields_pure (Value.regex r f) c).refuses (refuses_fail _ _ c)
  | record fs => exact (yields_pure (Value.record fs) c).refuses (refuses_fail _ _ c)

/-- A count of at most as many things as the stack can hold is read back as it was written. -/
theorem countOf?_ofInt {n : Nat} (h : n ≤ Stack.limit) : countOf? (Binary.ofInt n) = some (n : Int) := by
  have hall : ∀ k : Fin 1025, countOf? (Binary.ofInt (k : Nat)) = some ((k : Nat) : Int) := by
    decide +kernel
  exact hall ⟨n, Nat.lt_succ_of_le h⟩

theorem yields_popCount {n : Nat} {rest : List Value} (h : n ≤ Stack.limit) (c : View) :
    Yields popCount { c with live := .number (Binary.ofInt n) :: rest } n { c with live := rest } := by
  refine (yields_pop _ rest c).bind ?_
  refine (yields_pure (Value.number (Binary.ofInt n)) _).bind ?_
  dsimp only
  rw [countOf?_ofInt h]
  exact yields_pure _ _

/-- The stack entries of a call, from the callee up. -/
def callEntries (callee : Value) (positional : List Value) (named : List (Text × Value)) :
    List Value :=
  callee :: positional ++ namedEntries named ++
    [.number (Binary.ofInt positional.length), .number (Binary.ofInt named.length)]

theorem leads_callTop {callee : Value} {positional rest : List Value} {named : List (Text × Value)}
    (hp : positional.length ≤ Stack.limit) (hn : named.length ≤ Stack.limit) (c : View) :
    Leads (callTop host) { c with live := (callEntries callee positional named).reverse ++ rest }
      (call host callee ⟨positional, namedArgs named⟩) { c with live := rest } := by
  have hentries : (callEntries callee positional named).reverse ++ rest =
      .number (Binary.ofInt named.length) :: .number (Binary.ofInt positional.length) ::
        ((namedEntries named).reverse ++ (positional.reverse ++ callee :: rest)) := by
    simp [callEntries]
  rw [hentries]
  refine ((yields_popCount hn c).leads _).trans (((yields_popCount hp c).leads _).trans ?_)
  have hlimit : Stack.limit = 1024 := rfl
  have hsmall : ¬ ((positional.length : Int) < 0 ∨ (positional.length : Int) > maxGathered) := by
    rw [maxGathered]
    omega
  rw [if_neg hsmall, Int.toNat_natCast, Int.toNat_natCast]
  refine ((yields_popNamed named [] _ c).leads _).trans ?_
  have hpop := yields_popInto positional [] (callee :: rest) c
  rw [List.append_nil] at hpop
  exact (hpop.leads _).trans ((yields_pop callee rest c).leads _)

theorem leads_call_step {callee : Value} {positional rest : List Value} {named : List (Text × Value)}
    (h : code.Holds p i) (hop : i.op = .call) (hip : c.ip = Int64.ofNat p)
    (hl : c.live = (callEntries callee positional named).reverse ++ rest)
    (hp : positional.length ≤ Stack.limit) (hn : named.length ≤ Stack.limit) :
    Leads (step code host) c
      (call host callee ⟨positional, namedArgs named⟩ >>= fun _ => pure false)
      { c with ip := Int64.ofNat (p + 1), live := rest } := by
  refine (h.leads hip).trans ?_
  unfold execute
  simp only [hop]
  rw [hl]
  exact (leads_callTop hp hn { c with ip := Int64.ofNat (p + 1) }).bind _

theorem leads_bare_of_callable {name : Text} {v : Value} (hv : c.store.get? c.env name = some v)
    (hc : Value.isCallable v = true) : Leads (bare host name) c (call host v {}) c := by
  refine leads_get fun s hs => ?_
  subst hs
  have hv : s.store.get? s.env name = some v := hv
  rw [hv]
  cases v with
  | closure f => exact leads_refl _ _
  | builtin b => exact leads_refl _ _
  | _ => cases hc

theorem leads_bare_of_plain {name : Text} {v : Value} (hv : (c.store.get? c.env name).getD (.text name) = v)
    (hc : Value.isCallable v = false) : Leads (bare host name) c (push v) c := by
  refine leads_get fun s hs => ?_
  subst hs
  have hv : (s.store.get? s.env name).getD (.text name) = v := hv
  cases hg : s.store.get? s.env name with
  | none =>
    rw [hg, Option.getD_none] at hv
    exact hv ▸ leads_refl _ _
  | some w =>
    rw [hg, Option.getD_some] at hv
    subst hv
    cases w with
    | closure f => cases hc
    | builtin b => cases hc
    | _ => exact leads_refl _ _

theorem leads_bare_call {v : Value} (h : code.Holds p i) (hop : i.op = .tryCall)
    (hip : c.ip = Int64.ofNat p) (hv : c.store.get? c.env i.name = some v)
    (hc : Value.isCallable v = true) :
    Leads (step code host) c (call host v {} >>= fun _ => pure false)
      { c with ip := Int64.ofNat (p + 1) } := by
  refine (h.leads hip).trans ?_
  unfold execute
  simp only [hop]
  exact (leads_bare_of_callable (c := { c with ip := Int64.ofNat (p + 1) }) hv hc).bind _

/-- A name by itself that is no function is its value or its own text. -/
theorem pushes_bare {v : Value} (h : code.Holds p i) (hop : i.op = .tryCall)
    (hip : c.ip = Int64.ofNat p) (hv : (c.store.get? c.env i.name).getD (.text i.name) = v)
    (hc : Value.isCallable v = false) : Pushes code host c p v := by
  refine h.pushes hip ?_
  unfold execute
  simp only [hop]
  exact (leads_bare_of_plain (c := { c with ip := Int64.ofNat (p + 1) }) hv hc).bind _

theorem yields_halt (h : code.Holds p i) (hop : i.op = .halt) (hip : c.ip = Int64.ofNat p) :
    Yields (step code host) c true { c with ip := Int64.ofNat (p + 1) } := by
  refine (h.leads hip).yields ?_
  unfold execute
  simp only [hop]
  exact yields_pure true _

/-- A return from a function that has left only its value on the stack. -/
theorem yields_return {v : Value} {rest : List Value} {f : Frame} {frames : List Frame}
    (h : code.Holds p i) (hop : i.op = .return) (hip : c.ip = Int64.ofNat p)
    (hl : c.live = v :: rest) (hf : c.frames = f :: frames) (hheight : f.height = rest.length)
    (hroom : rest.length < Stack.limit) :
    Yields (step code host) c false { c with ip := f.returnTo, env := f.env, frames } := by
  refine (h.leads hip).yields ?_
  unfold execute
  simp only [hop]
  refine Yields.bind (a := ()) ?_ (yields_pure false _)
  rw [hl]
  refine (yields_pop v rest { c with ip := Int64.ofNat (p + 1) }).bind ?_
  refine yields_get fun s hs => ?_
  simp only [State.view, View.mk.injEq] at hs
  obtain ⟨h₁, h₂, h₃, h₄, h₅, h₆, h₇⟩ := hs
  rw [h₃, hf]
  have hresize : s.stack.resize f.height = s.stack := by
    rw [hheight, ← h₂, Stack.resize, Stack.height, if_pos (Nat.le_refl _), Nat.sub_self, Stack.lower]
  dsimp only
  rw [hresize]
  refine (yields_set (d := { c with ip := f.returnTo, live := rest, env := f.env, frames }) ?_).bind ?_
  · simp only [State.view, View.mk.injEq]
    exact ⟨trivial, h₂, trivial, trivial, h₅, h₆, h₇⟩
  · exact yields_push v { c with ip := f.returnTo, live := rest, env := f.env, frames } hroom

end Steps
end Bareword.Machine
