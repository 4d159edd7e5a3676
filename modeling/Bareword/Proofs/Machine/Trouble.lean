import Bareword.Proofs.Value.Fine

/-! # Trouble that programs are to blame for

A run may stop because of what its values are, or because the code itself makes no sense. Operations
on values that are no holes only ever stop for the first reason.

* `Trouble.isInternal`: trouble that only code that makes no sense leads to.
* `Mild`: an action that only stops because of what its values are.
* `Builtin.mild_call`: builtins do so as well, apart from those that come from outside.
-/

namespace Bareword
set_option autoImplicit false

namespace Machine

/-- How the faults of code that makes no sense are worded. -/
def internalWordings : List Text :=
  ["malformed call", "instruction pointer", "return outside of a function",
    "unsupported instruction"]

/-- Whether only code that makes no sense leads to the trouble: it takes more from the stack than is
there, goes where no instruction is, gathers arguments that are none, or breaks down. -/
def Trouble.isInternal : Trouble → Bool
  | .fault e =>
    e.code == Report.Code.stackUnderflow.text ||
      (e.code == Report.Code.invalidOperation.text &&
        internalWordings.any fun wording => wording.isPrefixOf e.message)
  | .breakdown => true
  | .awaiting _ => false

/-- The action only ever stops because of what its values are. -/
def Mild {α : Type} (x : Exec α) : Prop := ∀ e, outcome x = .error e → e.isInternal = false

theorem mild_pure {α : Type} (a : α) : Mild (pure a : Exec α) := fun _ h => nomatch h

theorem mild_fail {α : Type} {code : Report.Code} {message : Text}
    (h : (Trouble.fault (.of code message)).isInternal = false) :
    Mild (fail code message : Exec α) := by
  intro e he
  cases he
  exact h

theorem mild_bind {α β : Type} {x : Exec α} {f : α → Exec β} (hs : Stateless x) (hx : Mild x)
    (hf : ∀ a, outcome x = .ok a → Mild (f a)) : Mild (x >>= f) := by
  intro e he
  rw [Value.outcome_bind hs] at he
  cases ho : outcome x with
  | error e' =>
    rw [ho] at he
    cases he
    exact hx e ho
  | ok a =>
    rw [ho] at he
    exact hf a ho e he

/-- What is known of the builtins in a value: they come from outside only if some do. -/
def Knows (foreign : Prop) : Value → Prop
  | .builtin b => b.native = none → foreign
  | _ => True

/-! ## Operations -/

section Operations
variable {P : Value → Prop} {a b : Value}

theorem outcome_present (ha : a.Fine P) : outcome (present a) = .ok a := by
  cases a with
  | hole => exact ha.elim
  | _ => rfl

theorem mild_present (ha : a.Fine P) : Mild (present a) := by
  intro e he
  rw [outcome_present ha] at he
  cases he

theorem mild_arithmetic (op : Opcode) (ha : a.Fine P) (hb : b.Fine P) : Mild (arithmetic op a b) := by
  unfold arithmetic
  split
  · split
    · exact mild_pure _
    · exact mild_pure _
    · exact mild_pure _
    · split
      · exact mild_fail rfl
      · exact mild_pure _
  · refine mild_bind (stateless_present a) (mild_present ha) fun _ _ => ?_
    exact mild_bind (stateless_present b) (mild_present hb) fun _ _ => mild_fail rfl

theorem mild_compare (op : Opcode) (ha : a.Fine P) (hb : b.Fine P) : Mild (compare op a b) := by
  unfold compare
  split
  · exact mild_pure _
  · exact mild_pure _
  · refine mild_bind (stateless_present a) (mild_present ha) fun _ _ => ?_
    exact mild_bind (stateless_present b) (mild_present hb) fun _ _ => mild_fail rfl

theorem mild_equal (ha : a.Fine P) (hb : b.Fine P) : Mild (equal a b) := by
  refine mild_bind (stateless_present a) (mild_present ha) fun v _ => ?_
  split
  · exact mild_bind (stateless_present b) (mild_present hb) fun _ _ => mild_pure _
  · exact mild_pure _

theorem mild_operation {op : Opcode} {f : Value → Value → Exec Value} (h : operation op = some f)
    (ha : a.Fine P) (hb : b.Fine P) : Mild (f a b) := by
  cases op <;> simp only [operation, Option.some.injEq, reduceCtorEq] at h <;> subst h
  case eq | neq =>
    exact mild_bind (stateless_equal a b) (mild_equal ha hb) fun _ _ => mild_pure _
  case lt | gt | lte | gte => exact mild_compare _ ha hb
  case add | sub | mul | div => exact mild_arithmetic _ ha hb

theorem mild_fieldOf (name : Text) (ha : a.Fine P) : Mild (fieldOf name a) := by
  refine mild_bind (stateless_present a) (mild_present ha) fun v _ => ?_
  split
  · split
    · exact mild_pure _
    · exact mild_fail rfl
  · exact mild_fail rfl

end Operations
end Machine

/-! ## Calls -/

theorem Closure.isInternal_bind {c : Closure} {args : Args} {e : Report.RuntimeFault}
    (h : c.bind args = .error e) : (Machine.Trouble.fault e).isInternal = false := by
  rw [Closure.bind] at h
  split at h
  · cases h
    rfl
  · dsimp only at h
    split at h
    · cases h
    · cases h
      rfl

namespace Native
open Machine (Trouble Refusal.trouble)

/-- The computation only ever stops because of what its values are. -/
def Mild {α : Type} (r : Except Refusal α) : Prop :=
  ∀ e, r = .error e → (Refusal.trouble e).isInternal = false

theorem mild_ok {α : Type} (a : α) : Mild (.ok a : Except Refusal α) := fun _ h => nomatch h

theorem mild_error {α : Type} {e : Refusal} (h : (Refusal.trouble e).isInternal = false) :
    Mild (.error e : Except Refusal α) := by
  intro e' he
  cases he
  exact h

theorem mild_bind {α β : Type} {x : Except Refusal α} {f : α → Except Refusal β} (hx : Mild x)
    (hf : ∀ a, x = .ok a → Mild (f a)) : Mild (x >>= f) := by
  cases x with
  | error e => exact mild_error (hx e rfl)
  | ok a => exact hf a rfl

section
variable {P : Value → Prop} {v : Value} {args : Args}

theorem mild_shown (hv : v.Fine P) : Mild (shown v) := by
  cases v with
  | hole => exact hv.elim
  | _ => exact mild_ok _

theorem mild_truth (hv : v.Fine P) : Mild (truth v) := by
  cases v with
  | hole => exact hv.elim
  | _ => exact mild_ok _

theorem mild_stringOf (hv : v.Fine P) : Mild (stringOf v) := by
  cases v with
  | hole => exact hv.elim
  | text t => exact mild_ok _
  | _ => exact mild_error rfl

theorem mild_joined (sep : Text) {vs : List Value} (hvs : ∀ v ∈ vs, v.Fine P) :
    Mild (joined sep vs) := by
  rw [joined, Value.any_isHole_of_fine hvs, if_neg Bool.false_ne_true]
  exact mild_ok _

theorem single_eq_ok {name : Text} (h : single name args = .ok v) : v ∈ args.positional := by
  unfold single at h
  split at h
  · rename_i w hw
    cases h
    rw [hw]
    exact List.mem_singleton_self _
  · cases h

theorem mild_single {name : Text} : Mild (single name args) := by
  unfold single
  split
  · exact mild_ok _
  · exact mild_error rfl

theorem fine_named? (ha : args.Fine P) {name : Text} (h : args.named? name = some v) : v.Fine P :=
  ha.named.lookup h

theorem fine_get? (ha : args.Fine P) {name : Text} {index : Int} (h : args.get? name index = some v) :
    v.Fine P := by
  rw [Args.get?] at h
  split at h
  · rename_i w hw
    cases h
    exact fine_named? ha hw
  · split at h
    · cases h
    · exact ha.positional v (List.mem_of_getElem? h)

theorem expand_eq_error {home p message : Text} (h : Path.expand home p = .error message) :
    message = Path.foreignHome := by
  unfold Path.expand at h
  split at h
  · cases h
  · split at h
    · cases h
    · split at h
      · cases h
      · split at h
        · cases h
        · cases h
          rfl

theorem mild_runCat (host : Host) (ha : args.Fine P) : Mild (runCat host args) := by
  have htruth : ∀ v, args.named? "numbered" = some v → Mild (truth v) :=
    fun v hv => mild_truth (fine_named? ha hv)
  unfold runCat
  split
  · rename_i path hpath
    refine mild_bind (mild_stringOf (fine_get? ha hpath)) fun t _ => ?_
    dsimp only
    split
    · refine mild_bind (mild_ok _) fun p _ => ?_
      split
      · exact mild_error rfl
      · exact mild_error rfl
      · refine mild_bind (mild_ok _) fun contents _ => ?_
        split
        · rename_i v hv
          exact mild_bind (htruth v hv) fun _ _ => mild_ok _
        · exact mild_ok _
    · rename_i message hexpand
      rw [expand_eq_error hexpand]
      exact mild_error rfl
  · exact mild_error rfl

theorem mild_run (host : Host) (ha : args.Fine P) (f : Native) : Mild (f.run host args) := by
  cases f with
  | echo =>
    refine mild_bind (mild_joined _ ha.positional) fun text _ => ?_
    dsimp only
    have htruth : ∀ w, args.named? "no-newline" = some w → Mild (truth w) :=
      fun w hw => mild_truth (fine_named? ha hw)
    split
    · rename_i w hw
      refine mild_bind (mild_shown (fine_named? ha hw)) fun text _ => ?_
      split
      · rename_i w hw
        exact mild_bind (htruth w hw) fun _ _ => mild_ok _
      · exact mild_ok _
    · refine mild_bind (mild_ok _) fun text _ => ?_
      split
      · rename_i w hw
        exact mild_bind (htruth w hw) fun _ _ => mild_ok _
      · exact mild_ok _
  | cat => exact mild_runCat host ha
  | length =>
    refine mild_bind mild_single fun v hv => ?_
    have hfine := ha.positional v (single_eq_ok hv)
    cases v with
    | hole => exact hfine.elim
    | text t => exact mild_ok _
    | record fields => exact mild_ok _
    | _ => exact mild_error rfl
  | upper | lower =>
    refine mild_bind mild_single fun v hv => ?_
    exact mild_bind (mild_stringOf (ha.positional v (single_eq_ok hv))) fun _ _ => mild_ok _
  | join =>
    show Mild (runJoin args)
    unfold runJoin
    dsimp only
    have hend : ∀ sep : Text, Mild (joined sep args.positional >>= fun t =>
        (pure (Value.text t, []) : NativeResult)) :=
      fun sep => mild_bind (mild_joined sep ha.positional) fun _ _ => mild_ok _
    split
    · rename_i w hw
      exact mild_bind (mild_shown (fine_named? ha hw)) fun sep _ => hend sep
    · exact mild_bind (mild_ok _) fun sep _ => hend sep
  | type =>
    refine mild_bind mild_single fun v hv => ?_
    have hfine := ha.positional v (single_eq_ok hv)
    cases v with
    | hole => exact hfine.elim
    | _ => exact mild_ok _

end
end Native

/-- A builtin that does not come from outside only ever stops because of what its arguments are. -/
theorem Builtin.mild_call {P : Value → Prop} (host : Host) {b : Builtin} {args : Args}
    (hb : b.native ≠ none) (ha : args.Fine P) : Native.Mild (b.call host args) := by
  rw [call]
  split
  · rename_i e he
    rw [Builtin.unknownName?, Option.map_eq_some_iff] at he
    obtain ⟨name, -, rfl⟩ := he
    exact Native.mild_error rfl
  · split
    · exact Native.mild_run host ha _
    · rename_i hnone
      exact absurd hnone hb

end Bareword
