import Bareword.Proofs.Machine.Waiting
import Bareword.Proofs.Program.Discipline
import Bareword.Proofs.Program.Symbolic

/-! # Code from outside

Code that nobody compiled may do anything, and the machine checks most of what it does. It does not check
how many texts are joined, how many arguments a call gathers, and whether a return finds the stack lower
than the call left it. A run that meets none of these never breaks down.

* `Machine.Overfull`, `Machine.Sunken`: the next instruction does what is not checked.
* `Machine.Careful`: the states that a run gets to without doing so.
* `Machine.settles_step`: a checked step leaves only values on the stack and in the variables.
* `Script.machine_without_hazards`: what becomes of runs that do only what is checked.
-/

namespace Bareword
set_option autoImplicit false
open Report (Stop)

namespace Machine

/-! ## Hazards -/

/-- That many values cannot be gathered: they are fewer than none or do not fit in memory. -/
def Ungatherable (n : Int) : Prop := n < 0 ∨ n > maxGathered

/-- The next instruction gathers values for which no room can be made. -/
inductive Overfull (code : Code) (s : State) : Prop where
  | concat {i : Instruction} (hi : code.get? s.ip = some i) (hop : i.op = .strConcat)
      (hcount : Ungatherable i.count.toInt)
  | call {i : Instruction} {x y : Float} {named n : Int} {rest : List Value}
      (hi : code.get? s.ip = some i) (hop : i.op = .call)
      (hlive : s.stack.live = .number y :: .number x :: rest) (hy : countOf? y = some named)
      (hx : countOf? x = some n) (hcount : Ungatherable n)

/-- The next instruction returns to a height that the stack does not have any more. -/
inductive Sunken (code : Code) (s : State) : Prop where
  | return {i : Instruction} {v : Value} {rest : List Value} {f : Frame} {frames : List Frame}
      (hi : code.get? s.ip = some i) (hop : i.op = .return) (hlive : s.stack.live = v :: rest)
      (hframes : s.frames = f :: frames) (hheight : rest.length < f.height)

/-- The next instruction does something that the machine does not check. -/
def Hazard (code : Code) (s : State) : Prop := Overfull code s ∨ Sunken code s

theorem not_hazard_of_ops {code : Code}
    (h : ∀ i ∈ code.instructions.toList, i.op ≠ .strConcat ∧ i.op ≠ .call ∧ i.op ≠ .return) (s : State) :
    ¬ Hazard code s := by
  have hmem : ∀ {i}, code.get? s.ip = some i → i ∈ code.instructions.toList := by
    intro i hi
    obtain ⟨k, -, -, hget⟩ := Code.get?_eq_some hi
    exact Array.mem_toList_iff.mpr (Array.mem_of_getElem? hget)
  rintro ((⟨hi, hop, -⟩ | ⟨hi, hop, -⟩) | ⟨hi, hop, -⟩)
  · exact (h _ (hmem hi)).1 hop
  · exact (h _ (hmem hi)).2.1 hop
  · exact (h _ (hmem hi)).2.2 hop

/-! ## Sound states -/

variable {foreign : Prop}

/-- All places below the top and all variables hold values. -/
structure Sound (foreign : Prop) (s : State) : Prop where
  live : ∀ v ∈ s.stack.live, v.Fine (Knows foreign)
  store : Value.FineStore (Knows foreign) s.store

/-- Everything that the code pushes is a value. -/
def SoundCode (foreign : Prop) (code : Code) : Prop :=
  ∀ k i, code.instructions[k]? = some i → i.op = .push →
    (code.constants.getD k .hole).Fine (Knows foreign)

/-! ## How actions end -/

/-- Trouble that checked steps may meet: a fault, a builtin from outside, or a file that has not been
read. -/
def Allowed (foreign : Prop) (host : Host) : Trouble → Prop
  | .fault _ => True
  | .breakdown => foreign
  | .awaiting path => host.disk path = none

/-- The action ends in a state that `Q` holds of, or else in trouble that is allowed; the state is sound
then. -/
def Settles (foreign : Prop) (host : Host) {α : Type} (x : Exec α) (s : State) (Q : α → State → Prop) :
    Prop :=
  match x s with
  | .ok a t => Q a t
  | .error e t => Sound foreign t ∧ Allowed foreign host e

variable {host : Host}

section Actions
variable {α β : Type} {x : Exec α} {f : α → Exec β} {s : State} {Q : β → State → Prop}
  {R : α → State → Prop}

theorem Settles.bind (hx : Settles foreign host x s R) (hf : ∀ a t, R a t → Settles foreign host (f a) t Q) :
    Settles foreign host (x >>= f) s Q := by
  unfold Settles at hx ⊢
  show match EStateM.bind x f s with | .ok a t => Q a t | .error e t => _
  rw [EStateM.bind]
  split at hx
  · rename_i a t heq
    rw [heq]
    exact hf a t hx
  · rename_i e t heq
    rw [heq]
    exact hx

theorem Settles.imp {R' : α → State → Prop} (hx : Settles foreign host x s R) (h : ∀ a t, R a t → R' a t) :
    Settles foreign host x s R' := by
  unfold Settles at hx ⊢
  split at hx
  · rename_i a t heq
    exact h a t hx
  · exact hx

theorem Settles.ok (h : Settles foreign host x s R) {a : α} {t : State} (hx : x s = .ok a t) : R a t := by
  unfold Settles at h
  rwa [hx] at h

theorem Settles.error (h : Settles foreign host x s R) {e : Trouble} {t : State}
    (hx : x s = .error e t) : Sound foreign t ∧ Allowed foreign host e := by
  unfold Settles at h
  rwa [hx] at h

theorem settles_pure {a : α} (h : R a s) : Settles foreign host (pure a) s R := h

theorem settles_get {f : State → Exec β} (h : Settles foreign host (f s) s Q) : Settles foreign host (get >>= f) s Q := h

theorem settles_set {f : Unit → Exec β} {t : State} (h : Settles foreign host (f ()) t Q) :
    Settles foreign host (set t >>= f) s Q := h

theorem settles_modify {g : State → State} {R : Unit → State → Prop} (h : R () (g s)) :
    Settles foreign host (modify g) s R := h

theorem settles_fault {e : Report.RuntimeFault} (hs : Sound foreign s) :
    Settles foreign host (throw (.fault e) : Exec α) s R := ⟨hs, trivial⟩

theorem settles_fail {code : Report.Code} {message : Text} (hs : Sound foreign s) :
    Settles foreign host (fail code message : Exec α) s R := settles_fault hs

theorem Stateless.settles {P : α → Prop} (hx : Stateless x) (hs : Sound foreign s) (hmild : Mild x)
    (hprompt : Prompt x) (hP : ∀ a, outcome x = .ok a → P a) :
    Settles foreign host x s fun a t => t = s ∧ P a := by
  unfold Settles
  rw [hx s]
  cases ho : outcome x with
  | ok a => exact ⟨rfl, hP a ho⟩
  | error e =>
    refine ⟨hs, ?_⟩
    cases e with
    | fault e => trivial
    | breakdown => exact absurd (hmild _ ho) (by decide)
    | awaiting path => exact absurd ho (hprompt path)

end Actions

/-! ## The stack -/

variable {s : State} {v : Value}

theorem settles_push (hs : Sound foreign s) (hv : v.Fine (Knows foreign)) :
    Settles foreign host (push v) s fun _ t => Sound foreign t := by
  refine settles_get ?_
  unfold Stack.push?
  split
  · rename_i heq
    exact settles_fail hs
  · rename_i stack heq
    split at heq
    · cases heq
    · cases heq
      exact ⟨List.forall_mem_cons.mpr ⟨hv, hs.live⟩, hs.store⟩

/-- What taking the top value leaves. -/
theorem settles_pop (hs : Sound foreign s) : Settles foreign host pop s fun v t =>
    v.Fine (Knows foreign) ∧ Sound foreign t ∧ s.stack.live = v :: t.stack.live ∧
      t.frames = s.frames := by
  refine settles_get ?_
  cases hl : s.stack.live with
  | nil =>
    rw [Stack.pop?, hl]
    exact settles_fail hs
  | cons v rest =>
    rw [Stack.pop?, hl]
    obtain ⟨hv, hrest⟩ := List.forall_mem_cons.mp (hl ▸ hs.live)
    exact ⟨hv, ⟨hrest, hs.store⟩, rfl, rfl⟩

theorem settles_top (hs : Sound foreign s) :
    Settles foreign host top s fun v t => v.Fine (Knows foreign) ∧ t = s := by
  refine settles_get ?_
  cases hl : s.stack.live with
  | nil =>
    rw [Stack.top?, hl]
    exact settles_fail hs
  | cons v rest =>
    rw [Stack.top?, hl]
    exact ⟨hs.live v (by simp [hl]), rfl⟩

theorem settles_popInto (n : Nat) {vs : List Value} (hs : Sound foreign s)
    (hvs : ∀ v ∈ vs, v.Fine (Knows foreign)) :
    Settles foreign host (popInto n vs) s fun ws t =>
      (∀ w ∈ ws, w.Fine (Knows foreign)) ∧ Sound foreign t := by
  induction n generalizing s vs with
  | zero => exact ⟨hvs, hs⟩
  | succ n ih =>
    exact (settles_pop hs).bind fun v t ⟨hv, ht, _⟩ => ih ht (List.forall_mem_cons.mpr ⟨hv, hvs⟩)

theorem settles_present (hs : Sound foreign s) (hv : v.Fine (Knows foreign)) :
    Settles foreign host (present v) s fun w t => t = s ∧ w = v :=
  (stateless_present v).settles hs (mild_present hv) (prompt_present v) fun w hw => by
    rw [outcome_present hv] at hw
    cases hw
    rfl

theorem settles_popNamed (n : Nat) {named : List (Text × Value)} (hs : Sound foreign s)
    (hnamed : Value.FineVars (Knows foreign) named) :
    Settles foreign host (popNamed n named) s fun ws t =>
      Value.FineVars (Knows foreign) ws ∧ Sound foreign t := by
  induction n generalizing s named with
  | zero => exact ⟨hnamed, hs⟩
  | succ n ih =>
    refine (settles_pop hs).bind fun v t ⟨hv, ht, _⟩ => ?_
    refine (settles_pop ht).bind fun w t ⟨hw, ht, _⟩ => ?_
    refine (settles_present ht hw).bind fun w' t' ⟨ht', hw'⟩ => ?_
    subst ht'
    split
    · exact ih ht (hnamed.setField hv)
    · exact settles_fail ht

/-! ## Calls -/

theorem settles_popCount (hs : Sound foreign s) : Settles foreign host popCount s fun n t =>
    Sound foreign t ∧ ∃ x, s.stack.live = .number x :: t.stack.live ∧ countOf? x = some n := by
  refine (settles_pop hs).bind fun v t ⟨hv, ht, hlive, _⟩ => ?_
  refine (settles_present ht hv).bind fun w t' ⟨ht', hw⟩ => ?_
  subst ht' hw
  dsimp only
  split
  · rename_i n hn
    split at hn
    · exact settles_pure ⟨ht, _, hlive, hn⟩
    · cases hn
  · exact settles_fail ht

theorem settles_native {b : Builtin} {args : Args} (hs : Sound foreign s)
    (hb : Knows foreign (.builtin b)) (hargs : args.Fine (Knows foreign)) :
    Settles foreign host (native host b args) s fun v t => v.Fine (Knows foreign) ∧ Sound foreign t := by
  unfold native
  cases hcall : b.call host args with
  | ok result =>
    obtain ⟨v, written⟩ := result
    exact ⟨Value.fine_of_plain (Builtin.isPlain_call hcall), hs.live, hs.store⟩
  | error e =>
    cases e with
    | fault e => exact settles_fault hs
    | plain message => exact settles_fail hs
    | noValue =>
      refine ⟨hs, show foreign from ?_⟩
      by_contra hnot
      cases Builtin.mild_call host (fun hnative => hnot (hb hnative)) hargs _ hcall
    | awaiting path => exact ⟨hs, Builtin.waits_call path hcall⟩

theorem settles_enter {c : Closure} {args : Args} (hs : Sound foreign s)
    (hargs : args.Fine (Knows foreign)) :
    Settles foreign host (enter c args) s fun _ t => Sound foreign t := by
  refine settles_get ?_
  split
  · exact settles_fail hs
  · cases hb : c.bind args with
    | error e => exact settles_fault hs
    | ok vars => exact ⟨hs.live, hs.store.push (Closure.fine_bind hargs hb) _⟩

theorem settles_call {args : Args} (hs : Sound foreign s) (hv : v.Fine (Knows foreign))
    (hargs : args.Fine (Knows foreign)) :
    Settles foreign host (call host v args) s fun _ t => Sound foreign t := by
  refine (settles_present hs hv).bind fun w t ⟨ht, hw⟩ => ?_
  subst ht hw
  split
  · exact settles_enter hs hargs
  · exact (settles_native hs hv hargs).bind fun v t ⟨hv, ht⟩ => settles_push ht hv
  · exact settles_get (settles_fault hs)
  · exact settles_fail hs

/-- A call that gathers a number of arguments that there can be room for. -/
theorem settles_callTop (hs : Sound foreign s)
    (hcount : ∀ y x rest named n, s.stack.live = .number y :: .number x :: rest →
      countOf? y = some named → countOf? x = some n → ¬ Ungatherable n) :
    Settles foreign host (callTop host) s fun _ t => Sound foreign t := by
  refine (settles_popCount hs).bind fun named t ⟨ht, y, hlive, hy⟩ => ?_
  refine (settles_popCount ht).bind fun n u ⟨hu, x, hlive', hx⟩ => ?_
  have hn := hcount y x u.stack.live named n (by rw [hlive, hlive']) hy hx
  rw [Ungatherable] at hn
  rw [if_neg hn]
  refine (settles_popNamed _ hu (List.forall_mem_nil _)).bind fun ns w ⟨hns, hw⟩ => ?_
  refine (settles_popInto _ hw (List.forall_mem_nil _)).bind fun ps w ⟨hps, hw⟩ => ?_
  exact (settles_pop hw).bind fun v w ⟨hv, hw, _⟩ => settles_call hw hv ⟨hps, hns⟩

theorem settles_leave (hs : Sound foreign s)
    (hheight : ∀ v rest f frames, s.stack.live = v :: rest → s.frames = f :: frames →
      f.height ≤ rest.length) :
    Settles foreign host leave s fun _ t => Sound foreign t := by
  refine (settles_pop hs).bind fun v t ⟨hv, ht, hlive, hframes⟩ => ?_
  refine settles_get ?_
  cases hf : t.frames with
  | nil => exact settles_fail ht
  | cons f frames =>
    have hle : f.height ≤ t.stack.height := hheight v t.stack.live f frames hlive (hframes ▸ hf)
    refine settles_set (settles_push ⟨fun w hw => ?_, ht.store⟩ hv)
    have hresize : (t.stack.resize f.height).live = t.stack.live.drop (t.stack.height - f.height) := by
      rw [Stack.resize, if_pos hle, Stack.live_lower]
    change w ∈ (t.stack.resize f.height).live at hw
    rw [hresize] at hw
    exact ht.live w (List.mem_of_mem_drop hw)

theorem settles_concat {n : Int64} (hs : Sound foreign s) (hcount : ¬ Ungatherable n.toInt) :
    Settles foreign host (concat n) s fun _ t => Sound foreign t := by
  have hn : ¬ (n < 0 ∨ n.toInt > maxGathered) := by
    rw [Int64.lt_iff_toInt_lt]
    exact hcount
  unfold concat
  rw [if_neg hn]
  refine (settles_popInto _ hs (List.forall_mem_nil _)).bind fun parts t ⟨hparts, ht⟩ => ?_
  rw [Value.any_isHole_of_fine hparts, if_neg (by decide)]
  exact settles_push ht trivial

theorem settles_bare (name : Text) (hs : Sound foreign s) :
    Settles foreign host (bare host name) s fun _ t => Sound foreign t := by
  have hargs : ({} : Args).Fine (Knows foreign) := ⟨List.forall_mem_nil _, List.forall_mem_nil _⟩
  refine settles_get ?_
  cases hv : s.store.get? s.env name with
  | none => exact settles_push hs trivial
  | some v =>
    have hfine : v.Fine (Knows foreign) := hs.store.find? hv
    split
    · cases ‹some v = none›
    · rename_i heq
      cases heq
      exact settles_call hs hfine hargs
    · rename_i heq
      cases heq
      exact settles_call hs hfine hargs
    · rename_i heq
      cases heq
      exact settles_push hs hfine

/-! ## Steps -/

section Steps
variable {code : Code}

theorem settles_load {name : Text} (hs : Sound foreign s) :
    Settles foreign host (load name >>= push) s fun _ t => Sound foreign t :=
  settles_get (settles_push hs (hs.store.loaded s.env name))

/-- An instruction that is no hazard leaves only values. -/
theorem settles_execute {i : Instruction} {k : Nat} (hs : Sound foreign s)
    (hpush : i.op = .push → (code.constants.getD k .hole).Fine (Knows foreign))
    (hconcat : i.op = .strConcat → ¬ Ungatherable i.count.toInt)
    (hcall : i.op = .call → ∀ y x rest named n, s.stack.live = .number y :: .number x :: rest →
      countOf? y = some named → countOf? x = some n → ¬ Ungatherable n)
    (hreturn : i.op = .return → ∀ v rest f frames, s.stack.live = v :: rest → s.frames = f :: frames →
      f.height ≤ rest.length) :
    Settles foreign host (execute code host k i) s fun _ t => Sound foreign t := by
  have hgoes : ∀ {x : Exec Unit}, Settles foreign host x s (fun _ t => Sound foreign t) →
      Settles foreign host (x >>= fun _ => pure false : Exec Bool) s fun _ t => Sound foreign t :=
    fun hx => hx.bind fun _ _ ht => settles_pure ht
  cases hf : operation i.op with
  | some f =>
    rw [execute_operation hf]
    refine (settles_pop hs).bind fun b t hpopped => ?_
    obtain ⟨hb, ht, -⟩ := hpopped
    refine (settles_pop ht).bind fun a u hpopped => ?_
    obtain ⟨ha, hu, -⟩ := hpopped
    have hresult : Settles foreign host (f a b) u fun v w => w = u ∧ v.Fine (Knows foreign) :=
      (stateless_operation hf a b).settles hu (mild_operation hf ha hb) (prompt_operation hf a b)
        fun v hv => Value.fine_of_plain (Value.isPlain_operation hf hv)
    refine hresult.bind fun v w hread => ?_
    obtain ⟨rfl, hv⟩ := hread
    exact (settles_push hu hv).bind fun _ _ ht => settles_pure ht
  | none =>
    unfold execute
    cases hop : i.op <;> simp only [hop, operation, reduceCtorEq] at hf ⊢
    case halt => exact settles_pure hs
    case push => exact hgoes (settles_push hs (hpush hop))
    case tryLoad => exact hgoes (settles_load hs)
    case tryCall => exact hgoes (settles_bare i.name hs)
    case store =>
      refine (settles_top hs).bind fun v t hread => ?_
      obtain ⟨hv, rfl⟩ := hread
      exact hgoes (settles_modify ⟨hs.live, hs.store.set hv _ _⟩)
    case dotGet =>
      refine (settles_pop hs).bind fun base t hpopped => ?_
      obtain ⟨hbase, ht, -⟩ := hpopped
      have hfield : Settles foreign host (fieldOf i.name base) t fun v u =>
          u = t ∧ v.Fine (Knows foreign) :=
        (stateless_fieldOf i.name base).settles ht (mild_fieldOf _ hbase) (prompt_fieldOf _ _)
          fun v hv => Value.fine_fieldOf hbase hv
      refine hfield.bind fun v u hread => ?_
      obtain ⟨rfl, hv⟩ := hread
      exact (settles_push ht hv).bind fun _ _ ht => settles_pure ht
    case dup =>
      refine (settles_top hs).bind fun v t hread => ?_
      obtain ⟨hv, rfl⟩ := hread
      exact hgoes (settles_push hs hv)
    case pop => exact (settles_pop hs).bind fun _ _ hpopped => settles_pure hpopped.2.1
    case strConcat => exact hgoes (settles_concat hs (hconcat hop))
    case jump => exact hgoes (settles_modify ⟨hs.live, hs.store⟩)
    case jumpIfFalse | jumpIfTrue =>
      refine (settles_pop hs).bind fun v t hpopped => ?_
      obtain ⟨hv, ht, -⟩ := hpopped
      refine (settles_present ht hv).bind fun w u hread => ?_
      obtain ⟨rfl, hw⟩ := hread
      split
      · exact (settles_modify ⟨ht.live, ht.store⟩).bind fun _ _ ht => settles_pure ht
      · exact settles_pure ht
    case makeFunction =>
      exact hgoes (settles_get (settles_set (settles_push ⟨hs.live, hs.store⟩ trivial)))
    case call => exact hgoes (settles_callTop hs (hcall hop))
    case «return» => exact hgoes (settles_leave hs (hreturn hop))
    case label | undefined => exact hgoes (settles_fail hs)

/-- A step that is no hazard leaves only values. -/
theorem settles_step (hcode : SoundCode foreign code) (hs : Sound foreign s) (hsafe : ¬ Hazard code s) :
    Settles foreign host (step code host) s fun _ t => Sound foreign t := by
  refine settles_get ?_
  split
  · exact settles_fail hs
  · rename_i i hi
    refine settles_set (settles_execute ⟨hs.live, hs.store⟩ (fun hop => ?_) (fun hop hcount => ?_)
      (fun hop y x rest named n hlive hy hx hcount => ?_) fun hop v rest f frames hlive hframes => ?_)
    · obtain ⟨k, hk, -, hget⟩ := Code.get?_eq_some hi
      exact hcode _ i (by rwa [hk]) hop
    · exact hsafe (.inl (.concat hi hop hcount))
    · exact hsafe (.inl (.call hi hop hlive hy hx hcount))
    · by_contra hlt
      exact hsafe (.inr (.return hi hop hlive hframes (Nat.lt_of_not_le hlt)))

/-- Where values are gathered for which no room can be made, the step breaks down. -/
theorem step_of_overfull (h : Overfull code s) : ∃ t, step code host s = .error .breakdown t := by
  cases h with
  | @concat i hi hop hcount =>
    have hn : i.count < 0 ∨ i.count.toInt > maxGathered := by
      rw [Int64.lt_iff_toInt_lt]
      exact hcount
    have hconcat : ∀ t, concat i.count t = .error .breakdown t := by
      intro t
      rw [concat, if_pos hn]
      rfl
    refine ⟨{ s with ip := s.ip + 1 }, ?_⟩
    simp only [step, execute, hi, hop, bind, EStateM.bind, get, getThe, MonadStateOf.get, EStateM.get,
      set, EStateM.set, hconcat]
  | @call i x y named n rest hi hop hlive hy hx hcount =>
    rw [Ungatherable] at hcount
    simp only [step, execute, callTop, popCount, pop, present, Stack.pop?, hi, hop, hlive, hy, hx, bind,
      EStateM.bind, get, getThe, MonadStateOf.get, EStateM.get, set, EStateM.set, pure, EStateM.pure,
      if_pos hcount]
    exact ⟨_, rfl⟩

theorem push_ne_breakdown {t : State} : push v s ≠ .error .breakdown t := by
  intro h
  simp only [push, bind, EStateM.bind, get, getThe, MonadStateOf.get, EStateM.get] at h
  cases hp : s.stack.push? v <;> rw [hp] at h <;> cases h

/-- A return that finds the stack too low does not break down itself. -/
theorem step_of_sunken (h : Sunken code s) {t : State} : step code host s ≠ .error .breakdown t := by
  obtain ⟨hi, hop, hlive, hframes, -⟩ := h
  intro ht
  simp only [step, execute, leave, pop, Stack.pop?, hi, hop, hlive, hframes, bind, EStateM.bind, get,
    getThe, MonadStateOf.get, EStateM.get, set, EStateM.set, pure, EStateM.pure] at ht
  generalize hr : push _ _ = r at ht
  cases r with
  | ok a u => cases ht
  | error e u =>
    cases ht
    exact push_ne_breakdown hr

/-- Without builtins from outside a step breaks down where it gathers too much and nowhere else. -/
theorem overfull_of_breakdown (hcode : SoundCode foreign code) (hs : Sound foreign s) {t : State}
    (h : step code host s = .error .breakdown t) : Overfull code s ∨ foreign := by
  by_cases hhazard : Hazard code s
  · exact .inl (hhazard.resolve_right fun hsunken => step_of_sunken hsunken h)
  · exact .inr ((settles_step hcode hs hhazard).error h).2

/-! ## Runs -/

/-- The next step leads from one state to the other. Where it calls a builtin from outside, the builtin may
write something and answer any value. -/
inductive Proceeds (code : Code) (host : Host) (s t : State) : Prop where
  | own (h : step code host s = .ok false t)
  | outside {u : State} {v : Value} (written : Text) (h : step code host s = .error .breakdown u)
      (hv : v.Whole) (hpush : push v { u with output := written } = .ok () t)

/-- A state that a run gets to without a hazard. -/
def Careful (code : Code) (host : Host) : State → State → Prop :=
  Relation.ReflTransGen fun s t => ¬ Hazard code s ∧ Proceeds code host s t

theorem Sound.proceeds (hcode : SoundCode foreign code) (hs : Sound foreign s)
    (hsafe : ¬ Hazard code s) {t : State} (h : Proceeds code host s t) : Sound foreign t := by
  cases h with
  | own h => exact (settles_step hcode hs hsafe).ok h
  | @outside u v written h hv hpush =>
    obtain ⟨hu, hforeign⟩ := (settles_step hcode hs hsafe).error h
    have hfine : v.Fine (Knows foreign) := by
      refine Value.Fine.mono (fun w _ => ?_) v hv
      cases w with
      | builtin b => exact fun _ => hforeign
      | _ => trivial
    have hpushes : Settles foreign host (push v) { u with output := written } fun _ t =>
        Sound foreign t := settles_push ⟨hu.live, hu.store⟩ hfine
    exact hpushes.ok hpush

theorem Sound.careful (hcode : SoundCode foreign code) (hs : Sound foreign s) {t : State}
    (h : Careful code host s t) : Sound foreign t := by
  induction h with
  | refl => exact hs
  | tail _ hnext ih => exact ih.proceeds hcode hnext.1 hnext.2

/-- A run in which no hazard lies ahead is careful. -/
theorem Careful.of_reaches {t : State} (h : Reaches code host s t)
    (hsafe : ∀ r, Careful code host s r → ¬ Hazard code r) : Careful code host s t := by
  refine Along.preserves h .refl fun u v hu _ hnext => hu.tail ⟨hsafe u hu, ?_⟩
  cases hnext with
  | own h => exact .own h
  | outside written _ _ h hv hpush => exact .outside written h hv hpush

end Steps

/-! ## Machines -/

/-- A machine after some runs without a hazard. -/
inductive After (m : Machine) : Machine → Prop where
  | refl : After m m
  | run {m' : Machine} (host : Host) {s t : State} (isRunning : Bool) (h : After m m')
      (hs : Careful m'.code host m'.startState s) (hsafe : ¬ Hazard m'.code s)
      (ht : Leaves m'.code host s t) :
      After m { m' with store := t.store, stack := t.stack, made := t.made, isRunning }

/-- How a run may end: with a value, with a fault, in a builtin from outside, or at a file that has not
been read. -/
inductive Ending (foreign : Prop) (host : Host) : Except Stop Value → Prop where
  | value {v : Value} (h : v.isHole = false) : Ending foreign host (.ok v)
  | fault (e : Report.RuntimeFault) : Ending foreign host (.error (.fault (.running e)))
  | outside (h : foreign) : Ending foreign host (.error .breakdown)
  | waiting {path : Text} (h : host.disk path = none) : Ending foreign host (.error (.awaiting path))

/-- All that the code pushes and all variables are values. -/
structure Trusted (foreign : Prop) (m : Machine) : Prop where
  code : SoundCode foreign m.code
  store : Value.FineStore (Knows foreign) m.store

section Machines
variable {m m' : Machine}

theorem Trusted.start (h : Trusted foreign m) : Sound foreign m.startState := by
  refine ⟨fun v hv => ?_, h.store⟩
  change v ∈ (m.stack.lower m.stack.height).live at hv
  rw [Stack.live_lower, Stack.height, List.drop_length] at hv
  cases hv

/-- Whatever a checked step leaves behind, the variables hold values. -/
theorem Sound.leaves {code : Code} (hcode : SoundCode foreign code) (hs : Sound foreign s)
    (hsafe : ¬ Hazard code s) {t : State} (h : Leaves code host s t) : Sound foreign t := by
  cases h with
  | calledOff => exact hs
  | halted h => exact (settles_step hcode hs hsafe).ok h
  | stopped h => exact ((settles_step hcode hs hsafe).error h).1

theorem Trusted.after (h : Trusted foreign m) (hm : m.After m') : Trusted foreign m' := by
  induction hm with
  | refl => exact h
  | run host _ _ hs hsafe ht ih =>
    exact ⟨ih.code, ((ih.start.careful ih.code hs).leaves ih.code hsafe ht).store⟩

theorem Trusted.of_ofProgram {globals : List (Text × Value)} {p : Program} {heap : Store}
    (hm : ofProgram globals p = .ok m) (hglobals : Value.FineVars (Knows foreign) globals)
    (hheap : Value.FineStore (Knows foreign) heap) (made : Nat) : Trusted foreign (m.withHeap heap made) := by
  have hplain := plainCode_of_ofProgram hm
  obtain ⟨q, values, -, -, rfl⟩ := ofProgram_eq_ok hm
  exact ⟨fun k i hi hop => Value.fine_of_plain (hplain k i hi hop), Value.FineStore.start hglobals hheap⟩

/-- A run before which no hazard lies ends as it may. -/
theorem Trusted.ending (h : Trusted foreign m) (hrunning : m.isRunning = false) {start : Start}
    {o : Outcome} (hsafe : ∀ s, Careful m.code start.host m.startState s → ¬ Hazard m.code s)
    (ho : m.run start = some o) : Ending foreign start.host o.result := by
  unfold Machine.run at ho
  rw [if_neg (by rw [hrunning]; decide)] at ho
  split at ho
  · cases ho
    exact .fault _
  · rw [Option.map_eq_some_iff] at ho
    obtain ⟨⟨ending, t⟩, hloop, rfl⟩ := ho
    obtain ⟨r, hr, hend⟩ := loop_eq_some hloop
    have hcareful := Careful.of_reaches hr hsafe
    have hsettles : Settles foreign start.host (step m.code start.host) r fun _ t => Sound foreign t :=
      settles_step h.code (h.start.careful h.code hcareful) (hsafe r hcareful)
    obtain ⟨rfl, hstep⟩ | ⟨e, rfl, hstep⟩ := hend
    · refine .value ?_
      rw [Stack.top?]
      cases hlive : t.stack.live with
      | nil => rfl
      | cons v rest => exact ((hsettles.ok hstep).live v (by simp [hlive])).not_hole
    · have hallowed := (hsettles.error hstep).2
      cases e with
      | fault e => exact .fault _
      | breakdown => exact .outside hallowed
      | awaiting path => exact .waiting hallowed

end Machines
end Machine

/-- A machine of any program, with any builtins and any globals that have values, holds only values and
breaks down in its own code exactly where it gathers a number of values that there can be no room for;
this goes on from run to run as long as no return finds the stack lower than its call left it. A run
before which neither lies ends with a value, with a fault, in a builtin from outside, or at a file that
has not been read. Among the globals there may be functions that were made elsewhere, with their
environments in `heap`, if nothing in all of these is a hole. -/
theorem Script.machine_without_hazards (builtins : List Builtin) {globals : List (Text × Datum)}
    {p : Program} {m m' : Machine}
    (hm : Script.machineWith (Builtin.variables builtins) globals p = .ok m)
    (hwhole : ∀ x ∈ globals, x.2.Whole) {heap : Store} (hheap : Value.FineStore (fun _ => True) heap) (made : Nat)
    (hm' : (m.withHeap heap made).After m') :
    (∀ host s, Machine.Careful m'.code host m'.startState s →
      (∀ v ∈ s.stack.live, v.isHole = false) ∧
      (Machine.Overfull m'.code s → ∃ t, Machine.step m'.code host s = .error .breakdown t) ∧
      ∀ t, Machine.step m'.code host s = .error .breakdown t →
        Machine.Overfull m'.code s ∨ Script.HasForeign builtins globals heap) ∧
    ∀ start o, m'.isRunning = false →
      (∀ s, Machine.Careful m'.code start.host m'.startState s → ¬ Machine.Hazard m'.code s) →
      m'.run start = some o →
      Machine.Ending (Script.HasForeign builtins globals heap) start.host o.result := by
  have htrusted : Machine.Trusted (Script.HasForeign builtins globals heap) (m.withHeap heap made) := by
    rw [Script.machineWith] at hm
    split at hm
    · cases hm
    · rename_i given hgiven
      obtain ⟨hvars, hheap⟩ := Script.knows_given builtins hgiven hwhole hheap
      exact .of_ofProgram hm hvars hheap made
  have htrusted' := htrusted.after hm'
  refine ⟨fun host s hs => ?_, fun start o hrunning hsafe ho => htrusted'.ending hrunning hsafe ho⟩
  have hsound := htrusted'.start.careful htrusted'.code hs
  exact ⟨fun v hv => (hsound.live v hv).not_hole, Machine.step_of_overfull,
    fun t ht => Machine.overfull_of_breakdown htrusted'.code hsound ht⟩

/-- Fewer than no texts are joined, which breaks down, and a name is looked up, which ends. A function of another
program comes in as a global variable. -/
theorem Script.machine_without_hazards_join :
    let joining : Program := { instructions := [{ op := .strConcat, count := -1 }, { op := .halt }] }
    let naming : Program := { instructions := [{ op := .tryLoad, name := "x" }, { op := .halt }] }
    let globals : List (Text × Datum) := [("f", .object (.closure ⟨0, [], 9, 1⟩))]
    let heap : Store := #[⟨[("y", .null)], none⟩]
    (∀ x ∈ globals, x.2.Whole) ∧ Value.FineStore (fun _ => True) heap ∧
    (∃ m, Script.machineWith (Builtin.variables Builtin.always) globals joining = .ok m ∧
      ∀ host, ∃ t, Machine.step m.code host (m.withHeap heap 1).startState = .error .breakdown t) ∧
    ∃ m, Script.machineWith (Builtin.variables Builtin.always) globals naming = .ok m ∧
      ∀ start o, (m.withHeap heap 1).run start = some o →
        Machine.Ending (Script.HasForeign Builtin.always globals heap) start.host o.result := by
  intro joining naming globals heap
  have hwhole : ∀ x ∈ globals, x.2.Whole := List.forall_mem_singleton.mpr (.inr trivial)
  have hheap : Value.FineStore (fun _ => True) heap := by
    intro e x hx
    cases e with
    | zero =>
      cases hx
      exact List.forall_mem_singleton.mpr trivial
    | succ e => cases hx
  have hjoining : Script.machineWith (Builtin.variables Builtin.always) globals joining = .ok _ := rfl
  have hnaming : Script.machineWith (Builtin.variables Builtin.always) globals naming = .ok _ := rfl
  refine ⟨hwhole, hheap, ⟨_, hjoining, fun host => ?_⟩, ⟨_, hnaming, fun start o ho => ?_⟩⟩
  · have h := (Script.machine_without_hazards Builtin.always hjoining hwhole hheap 1 .refl).1 host _ .refl
    have hcount : Machine.Ungatherable (-1) := .inl (by decide)
    exact h.2.1 (.concat rfl rfl hcount)
  · have h := (Script.machine_without_hazards Builtin.always hnaming hwhole hheap 1 .refl).2 start o rfl
    exact h (fun s _ => Machine.not_hazard_of_ops (by decide) s) ho

end Bareword
