import Bareword.Proofs.Value.Fine

/-! # What runs wait for

A run that needs a file which has not been read stops there, and is run again when it has been. No
run waits for anything else.

* `Native.Waits`: a builtin that only waits for such a file.
* `Machine.Prompt`: an action that never waits.
-/

namespace Bareword
set_option autoImplicit false
namespace Native
variable {host : Host} {args : Args}

/-- The computation only ever waits for a file that has not been read yet. -/
def Waits {α : Type} (host : Host) (r : Except Refusal α) : Prop :=
  ∀ path, r = .error (.awaiting path) → host.disk path = none

theorem waits_ok {α : Type} (a : α) : Waits host (.ok a : Except Refusal α) := fun _ h => nomatch h

theorem waits_error {α : Type} {e : Refusal} (h : ∀ path, e = .awaiting path → host.disk path = none) :
    Waits host (.error e : Except Refusal α) := by
  rintro path heq
  cases heq
  exact h path rfl

theorem waits_bind {α β : Type} {x : Except Refusal α} {f : α → Except Refusal β}
    (hx : Waits host x) (hf : ∀ a, Waits host (f a)) : Waits host (x >>= f) := by
  cases x with
  | error e => exact waits_error fun path he => hx path (he ▸ rfl)
  | ok a => exact hf a

theorem waits_shown (v : Value) : Waits host (shown v) := by
  intro path h
  cases v <;> cases h

theorem waits_truth (v : Value) : Waits host (truth v) := by
  intro path h
  cases v <;> cases h

theorem waits_stringOf (v : Value) : Waits host (stringOf v) := by
  intro path h
  cases v <;> cases h

theorem waits_joined (sep : Text) (vs : List Value) : Waits host (joined sep vs) := by
  intro path h
  rw [joined] at h
  split at h <;> cases h

theorem waits_single (name : Text) : Waits host (single name args) := by
  intro path h
  rw [single] at h
  split at h <;> cases h

theorem waits_runCat : Waits host (runCat host args) := by
  unfold runCat
  split
  · refine waits_bind (waits_stringOf _) fun t => ?_
    dsimp only
    split
    · refine waits_bind (waits_ok _) fun p => ?_
      split
      · rename_i hdisk
        refine waits_error fun path he => ?_
        cases he
        exact hdisk
      · exact waits_error fun path he => nomatch he
      · refine waits_bind (waits_ok _) fun contents => ?_
        split
        · exact waits_bind (waits_truth _) fun _ => waits_ok _
        · exact waits_ok _
    · exact waits_error fun path he => nomatch he
  · exact waits_error fun path he => nomatch he

/-- A builtin waits for the files that have not been read, and for nothing else. -/
theorem waits_run (f : Native) : Waits host (f.run host args) := by
  cases f with
  | cat => exact waits_runCat
  | echo =>
    refine waits_bind (waits_joined _ _) fun text => ?_
    dsimp only
    split
    · refine waits_bind (waits_shown _) fun text => ?_
      split
      · exact waits_bind (waits_truth _) fun _ => waits_ok _
      · exact waits_ok _
    · refine waits_bind (waits_ok _) fun text => ?_
      split
      · exact waits_bind (waits_truth _) fun _ => waits_ok _
      · exact waits_ok _
  | join =>
    show Waits host (runJoin args)
    unfold runJoin
    dsimp only
    split
    · refine waits_bind (waits_shown _) fun sep => ?_
      exact waits_bind (waits_joined _ _) fun _ => waits_ok _
    · refine waits_bind (waits_ok _) fun sep => ?_
      exact waits_bind (waits_joined _ _) fun _ => waits_ok _
  | upper | lower =>
    refine waits_bind (waits_single _) fun v => ?_
    exact waits_bind (waits_stringOf _) fun _ => waits_ok _
  | length | type =>
    refine waits_bind (waits_single _) fun v path h => ?_
    cases v <;> cases h

end Native

theorem Builtin.waits_call {host : Host} {b : Builtin} {args : Args} :
    Native.Waits host (b.call host args) := by
  rw [call]
  split
  · exact Native.waits_error fun path he => by cases he
  · split
    · exact Native.waits_run _
    · exact Native.waits_error fun path he => by cases he

namespace Machine

/-- The action never waits. -/
def Prompt {α : Type} (x : Exec α) : Prop := ∀ path, outcome x ≠ .error (.awaiting path)

theorem prompt_pure {α : Type} (a : α) : Prompt (pure a : Exec α) := fun _ h => nomatch h

theorem prompt_fail {α : Type} (code : Report.Code) (message : Text) :
    Prompt (fail code message : Exec α) := fun _ h => nomatch h

theorem prompt_bind {α β : Type} {x : Exec α} {f : α → Exec β} (hs : Stateless x) (hx : Prompt x)
    (hf : ∀ a, Prompt (f a)) : Prompt (x >>= f) := by
  intro path h
  rw [Value.outcome_bind hs] at h
  cases ho : outcome x with
  | error e =>
    rw [ho] at h
    cases h
    exact hx path ho
  | ok a =>
    rw [ho] at h
    exact hf a path h

theorem prompt_present (v : Value) : Prompt (present v) := by
  intro path h
  cases v <;> cases h

theorem prompt_arithmetic (op : Opcode) (a b : Value) : Prompt (arithmetic op a b) := by
  unfold arithmetic
  split
  · split
    · exact prompt_pure _
    · exact prompt_pure _
    · exact prompt_pure _
    · split
      · exact prompt_fail _ _
      · exact prompt_pure _
  · refine prompt_bind (stateless_present a) (prompt_present a) fun _ => ?_
    exact prompt_bind (stateless_present b) (prompt_present b) fun _ => prompt_fail _ _

theorem prompt_compare (op : Opcode) (a b : Value) : Prompt (compare op a b) := by
  unfold compare
  split
  · exact prompt_pure _
  · exact prompt_pure _
  · refine prompt_bind (stateless_present a) (prompt_present a) fun _ => ?_
    exact prompt_bind (stateless_present b) (prompt_present b) fun _ => prompt_fail _ _

theorem prompt_equal (a b : Value) : Prompt (equal a b) := by
  refine prompt_bind (stateless_present a) (prompt_present a) fun v => ?_
  split
  · exact prompt_bind (stateless_present b) (prompt_present b) fun _ => prompt_pure _
  · exact prompt_pure _

theorem prompt_operation {op : Opcode} {f : Value → Value → Exec Value} (h : operation op = some f)
    (a b : Value) : Prompt (f a b) := by
  cases op <;> simp only [operation, Option.some.injEq, reduceCtorEq] at h <;> subst h
  case eq | neq => exact prompt_bind (stateless_equal a b) (prompt_equal a b) fun _ => prompt_pure _
  case lt | gt | lte | gte => exact prompt_compare _ a b
  case add | sub | mul | div => exact prompt_arithmetic _ a b

theorem prompt_fieldOf (name : Text) (v : Value) : Prompt (fieldOf name v) := by
  refine prompt_bind (stateless_present v) (prompt_present v) fun w => ?_
  split
  · split
    · exact prompt_pure _
    · exact prompt_fail _ _
  · exact prompt_fail _ _

end Machine
end Bareword
