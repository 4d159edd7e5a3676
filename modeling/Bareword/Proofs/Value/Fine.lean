import Bareword.Proofs.Machine.Instructions
import Bareword.Value.Datum

/-! # Fine values

What is known of the functions and builtins in a value, wherever it comes from and wherever it goes.

* `Value.isPlain`: a value in which there is no other value and no function.
* `Value.Fine`: all functions and builtins in a value satisfy a condition, and nothing in it is a hole.
* `Datum.Fine`: so do those that come with data from outside.
-/

namespace Bareword
set_option autoImplicit false

namespace Value

/-- The value is neither a function nor a builtin, nor a record, nor a hole. -/
def isPlain : Value → Bool
  | .closure _ | .builtin _ | .record _ | .hole => false
  | _ => true

theorem isPlain_ofLiteral {l : Literal} {v : Value} (h : ofLiteral l = .ok v) :
    v.isPlain = true := by
  unfold ofLiteral at h
  cases hk : l.kind with
  | regex =>
    simp only [hk] at h
    split at h
    · cases h
    · cases h
      rfl
  | other code =>
    simp only [hk] at h
    cases h
  | null | boolean | number | string =>
    simp only [hk] at h
    cases h
    rfl

/-! ## Fine values -/

/-- All functions and builtins in the value satisfy `P`, and nothing in it is a hole. -/
def Fine (P : Value → Prop) : Value → Prop
  | .closure c => P (.closure c)
  | .builtin b => P (.builtin b)
  | .record fields => FineFields P fields
  | .hole => False
  | _ => True
where
  /-- All values of fields are fine. -/
  FineFields (P : Value → Prop) : List (Text × Value) → Prop
    | [] => True
    | (_, v) :: rest => v.Fine P ∧ FineFields P rest

/-- Nothing in the value is a hole. -/
abbrev Whole : Value → Prop := Fine fun _ => True

/-- A condition on functions, which asks nothing of builtins. -/
def onClosures (K : Closure → Prop) : Value → Prop
  | .closure c => K c
  | _ => True

theorem onClosures.mono {K L : Closure → Prop} (h : ∀ c, K c → L c) (v : Value) :
    onClosures K v → onClosures L v := by
  cases v with
  | closure c => exact h c
  | _ => exact id

/-- The values of all variables are fine. -/
def FineVars (P : Value → Prop) (vars : List (Text × Value)) : Prop := ∀ x ∈ vars, x.2.Fine P

theorem fineFields_iff (P : Value → Prop) (fields : List (Text × Value)) :
    Fine.FineFields P fields ↔ FineVars P fields := by
  induction fields with
  | nil => simp [Fine.FineFields, FineVars]
  | cons f fields ih =>
    rw [Fine.FineFields, ih, FineVars, FineVars, List.forall_mem_cons]

section
variable {P Q : Value → Prop}

mutual

theorem Fine.mono (hPQ : ∀ c, P c → Q c) : (v : Value) → v.Fine P → v.Fine Q
  | .closure _, h => hPQ _ h
  | .builtin _, h => hPQ _ h
  | .record fields, h => FineFields.mono hPQ fields h
  | .null, _ | .bool _, _ | .number _, _ | .text _, _ | .regex _ _, _ => trivial

theorem FineFields.mono (hPQ : ∀ c, P c → Q c) : (fields : List (Text × Value)) →
    Fine.FineFields P fields → Fine.FineFields Q fields
  | [], _ => trivial
  | (_, v) :: rest, h => ⟨Fine.mono hPQ v h.1, FineFields.mono hPQ rest h.2⟩

end

theorem FineVars.mono {vars : List (Text × Value)} (hPQ : ∀ c, P c → Q c) (h : FineVars P vars) :
    FineVars Q vars := fun x hx => Fine.mono hPQ x.2 (h x hx)

theorem Fine.not_hole {v : Value} (h : v.Fine P) : v.isHole = false := by
  cases v <;> first | rfl | exact h.elim

theorem any_isHole_of_fine {vs : List Value} (h : ∀ v ∈ vs, v.Fine P) :
    vs.any (·.isHole) = false := by
  rw [List.any_eq_false]
  intro v hv
  rw [(h v hv).not_hole]
  exact Bool.false_ne_true

theorem FineVars.lookup {vars : List (Text × Value)} {name : Text} {v : Value} (h : FineVars P vars)
    (hl : vars.lookup name = some v) : v.Fine P := by
  induction vars with
  | nil => cases hl
  | cons x vars ih =>
    rw [List.lookup_cons] at hl
    split at hl
    · cases hl
      exact h x (List.mem_cons_self ..)
    · exact ih (fun y hy => h y (List.mem_cons_of_mem _ hy)) hl

theorem FineVars.setField {fields : List (Text × Value)} {name : Text} {v : Value}
    (h : FineVars P fields) (hv : v.Fine P) : FineVars P (setField name v fields) := by
  induction fields with
  | nil =>
    intro x hx
    rw [Value.setField, List.mem_singleton] at hx
    exact hx ▸ hv
  | cons f fields ih =>
    obtain ⟨hf, hrest⟩ := List.forall_mem_cons.mp h
    obtain ⟨n, x⟩ := f
    rw [Value.setField]
    split
    · exact List.forall_mem_cons.mpr ⟨hv, hrest⟩
    · split
      · exact List.forall_mem_cons.mpr ⟨hv, h⟩
      · exact List.forall_mem_cons.mpr ⟨hf, ih hrest⟩

theorem FineVars.assign {vars : List (Text × Value)} {name : Text} {v : Value}
    (h : FineVars P vars) (hv : v.Fine P) : FineVars P (Store.assign name v vars) := by
  induction vars with
  | nil =>
    intro x hx
    rw [Store.assign, List.mem_singleton] at hx
    exact hx ▸ hv
  | cons f vars ih =>
    obtain ⟨hf, hrest⟩ := List.forall_mem_cons.mp h
    obtain ⟨n, x⟩ := f
    rw [Store.assign]
    split
    · exact List.forall_mem_cons.mpr ⟨hv, hrest⟩
    · exact List.forall_mem_cons.mpr ⟨hf, ih hrest⟩

theorem FineVars.assignAll {new vars : List (Text × Value)} (hnew : FineVars P new)
    (hvars : FineVars P vars) :
    FineVars P (new.foldl (fun vars (n, v) => Store.assign n v vars) vars) := by
  induction new generalizing vars with
  | nil => exact hvars
  | cons x new ih =>
    obtain ⟨hx, hrest⟩ := List.forall_mem_cons.mp hnew
    exact ih hrest (hvars.assign hx)

/-- The values of all variables in a store are fine. -/
def FineStore (P : Value → Prop) (st : Store) : Prop := ∀ (e : Nat) (x : Env), st[e]? = some x → FineVars P x.vars

theorem FineStore.find? {st : Store} (h : FineStore P st) {name : Text} {fuel e : Nat} {v : Value}
    (hv : st.find? name fuel e = some v) : v.Fine P := by
  induction fuel generalizing e with
  | zero => cases hv
  | succ fuel ih =>
    rw [Store.find?] at hv
    split at hv
    · cases hv
    · rename_i x hx
      split at hv
      · rename_i w hw
        cases hv
        exact (h e x hx).lookup hw
      · split at hv
        · cases hv
        · split at hv
          · exact ih hv
          · cases hv

/-- What is loaded for a name, which is the name itself if it is not bound. -/
theorem FineStore.loaded {st : Store} (h : FineStore P st) (e : Nat) (name : Text) :
    ((st.get? e name).getD (.text name)).Fine P := by
  cases hv : st.get? e name with
  | none => exact trivial
  | some v => exact h.find? hv

theorem FineStore.set {st : Store} (h : FineStore P st) {v : Value} (hv : v.Fine P) (e : Nat) (name : Text) :
    FineStore P (st.set e name v) := by
  intro j x hx
  rw [Store.set, Array.getElem?_modify] at hx
  split at hx
  · rw [Option.map_eq_some_iff] at hx
    obtain ⟨y, hy, rfl⟩ := hx
    exact (h j y hy).assign hv
  · exact h j x hx

theorem FineStore.push {st : Store} (h : FineStore P st) {vars : Closure.Vars} (hv : FineVars P vars)
    (parent : Option Nat) : FineStore P (st.push ⟨vars, parent⟩) := by
  intro j x hx
  rw [Array.getElem?_push] at hx
  split at hx
  · cases hx
    exact hv
  · exact h j x hx

/-- The global variables that a machine starts with, and other environments. -/
theorem FineStore.start {vars : List (Text × Value)} {heap : Store} (hvars : FineVars P vars)
    (hheap : FineStore P heap) :
    FineStore P (#[{ vars := vars.foldl (fun vars (n, v) => Store.assign n v vars) [] }] ++ heap) := by
  intro e x hx
  cases e with
  | zero =>
    rw [Array.getElem?_append_left Nat.one_pos] at hx
    cases hx
    exact hvars.assignAll (List.forall_mem_nil _)
  | succ e =>
    rw [Array.getElem?_append_right (Nat.le_add_left 1 e)] at hx
    exact hheap e x hx

theorem fine_of_plain {v : Value} (h : v.isPlain = true) : v.Fine P := by
  cases v with
  | closure c => cases h
  | builtin b => cases h
  | record fields => cases h
  | hole => cases h
  | _ => trivial

end

end Value

/-! ## Data from outside -/

/-- All functions and builtins that the datum holds or becomes satisfy `P`, and nothing inside a value of it is
a hole. -/
def Datum.Fine (P : Value → Prop) : Datum → Prop
  | .function id => ∀ name, P (.builtin { id, name })
  | .record fields => FineFields P fields
  | .object v => v.isHole = true ∨ v.Fine P
  | _ => True
where
  /-- All data of fields are fine. -/
  FineFields (P : Value → Prop) : List (Text × Datum) → Prop
    | [] => True
    | (_, d) :: rest => d.Fine P ∧ FineFields P rest

/-- Nothing in a value that the datum holds is a hole. -/
abbrev Datum.Whole : Datum → Prop := Datum.Fine fun _ => True

namespace Value
variable {P : Value → Prop}

theorem fine_ofFields {fields : List (Text × Value)} (h : FineVars P fields) : (ofFields fields).Fine P := by
  have hfold : ∀ (fields acc : List (Text × Value)), FineVars P fields → FineVars P acc →
      FineVars P (fields.foldl (fun r f => setField f.1 f.2 r) acc) := by
    intro fields
    induction fields with
    | nil => exact fun _ _ hacc => hacc
    | cons f fields ih =>
      intro acc hf hacc
      obtain ⟨hf, hrest⟩ := List.forall_mem_cons.mp hf
      exact ih _ hrest (hacc.setField hf)
  exact (fineFields_iff P _).mpr (hfold fields [] h (List.forall_mem_nil _))

mutual

theorem fine_ofDatum : (d : Datum) → {v : Value} → ofDatum d = .ok v → d.Fine P → v.Fine P
  | .null, _, h, _ => by cases h; trivial
  | .bool _, _, h, _ => by cases h; trivial
  | .number _, _, h, _ => by cases h; trivial
  | .text _, _, h, _ => by cases h; trivial
  | .function _, _, h, hd => by
    cases h
    exact hd _
  | .object v, _, h, hd => by
    rw [ofDatum] at h
    cases h
    split
    · trivial
    · rename_i hhole
      exact hd.resolve_left hhole
  | .record fields, v, h, hd => by
    rw [ofDatum] at h
    cases hf : ofDatum.ofData fields with
    | error e =>
      rw [hf] at h
      cases h
    | ok values =>
      rw [hf] at h
      cases h
      exact fine_ofFields (fine_ofData fields hf hd)

theorem fine_ofData : (fields : List (Text × Datum)) → {values : List (Text × Value)} →
    ofDatum.ofData fields = .ok values → Datum.Fine.FineFields P fields → FineVars P values
  | [], _, h, _ => by
    cases h
    exact List.forall_mem_nil _
  | (name, d) :: rest, values, h, hd => by
    rw [ofDatum.ofData] at h
    cases hv : ofDatum d with
    | error e =>
      rw [hv] at h
      cases h
    | ok v =>
      rw [hv] at h
      cases hr : ofDatum.ofData rest with
      | error e =>
        rw [hr] at h
        cases h
      | ok vs =>
        rw [hr] at h
        cases h
        exact List.forall_mem_cons.mpr ⟨fine_ofDatum d hv hd.1, fine_ofData rest hr hd.2⟩

end

theorem fine_ofGlobal {name : Text} {d : Datum} {v : Value} (h : ofGlobal name d = .ok v) (hd : d.Fine P) :
    v.Fine P := by
  unfold ofGlobal at h
  split at h
  · cases h
    exact hd name
  · exact fine_ofDatum d h hd

/-- Global variables are as fine as the data that they come from. -/
theorem fine_ofGlobals {globals : List (Text × Datum)} {values : List (Text × Value)}
    (h : ofGlobals globals = .ok values) (hd : ∀ x ∈ globals, x.2.Fine P) : FineVars P values := by
  induction globals generalizing values with
  | nil =>
    cases h
    exact List.forall_mem_nil _
  | cons g globals ih =>
    obtain ⟨name, d⟩ := g
    obtain ⟨hg, hglobals⟩ := List.forall_mem_cons.mp hd
    rw [ofGlobals] at h
    cases hv : ofGlobal name d with
    | error e =>
      rw [hv] at h
      cases h
    | ok v =>
      rw [hv] at h
      cases hr : ofGlobals globals with
      | error e =>
        rw [hr] at h
        cases h
      | ok vs =>
        rw [hr] at h
        cases h
        exact List.forall_mem_cons.mpr ⟨fine_ofGlobal hv hg, ih hr hglobals⟩

/-! ## Operations -/

theorem outcome_bind {α β : Type} {x : Machine.Exec α} {f : α → Machine.Exec β}
    (hx : Machine.Stateless x) :
    Machine.outcome (x >>= f) = (Machine.outcome x).bind fun a => Machine.outcome (f a) := by
  have hbind : (x >>= f) default = EStateM.bind x f default := rfl
  rw [Machine.outcome, hbind, EStateM.bind, hx default]
  cases Machine.outcome x with
  | error e => rfl
  | ok a => rfl

theorem isPlain_arithmetic {op : Opcode} {a b v : Value}
    (h : Machine.outcome (Machine.arithmetic op a b) = .ok v) : v.isPlain = true := by
  cases a with
  | number x =>
    cases b with
    | number y =>
      unfold Machine.arithmetic at h
      dsimp only at h
      split at h
      · cases h
        rfl
      · cases h
        rfl
      · cases h
        rfl
      · split at h
        · cases h
        · cases h
          rfl
    | _ => cases h
  | _ => cases b <;> cases h

theorem isPlain_compare {op : Opcode} {a b v : Value}
    (h : Machine.outcome (Machine.compare op a b) = .ok v) : v.isPlain = true := by
  cases a with
  | number x =>
    cases b with
    | number y =>
      cases h
      rfl
    | _ => cases h
  | text s =>
    cases b with
    | text t =>
      cases h
      rfl
    | _ => cases h
  | _ => cases b <;> cases h

theorem isPlain_equal {a b v : Value} {f : Bool → Bool}
    (h : Machine.outcome (do return .bool (f (← Machine.equal a b))) = .ok v) :
    v.isPlain = true := by
  rw [outcome_bind (Machine.stateless_equal a b)] at h
  cases hb : Machine.outcome (Machine.equal a b) with
  | error e =>
    rw [hb] at h
    cases h
  | ok t =>
    rw [hb] at h
    cases h
    rfl

/-- An operation gives a number or a truth value. -/
theorem isPlain_operation {op : Opcode} {f : Value → Value → Machine.Exec Value} {a b v : Value}
    (h : Machine.operation op = some f) (hv : Machine.outcome (f a b) = .ok v) :
    v.isPlain = true := by
  cases op <;> simp only [Machine.operation, Option.some.injEq, reduceCtorEq] at h <;> subst h
  case eq => exact isPlain_equal (f := fun t => t) hv
  case neq => exact isPlain_equal (f := fun t => !t) hv
  case lt | gt | lte | gte => exact isPlain_compare hv
  case add | sub | mul | div => exact isPlain_arithmetic hv

theorem outcome_fieldOf_record (name : Text) (fields : List (Text × Value)) :
    Machine.outcome (Machine.fieldOf name (.record fields)) =
      match fields.lookup name with
      | some v => .ok v
      | none => .error (.fault (.of .invalidOperation
          ("field " ++ Text.quoted name ++ " not found on map"))) := by
  rw [Machine.fieldOf, outcome_bind (Machine.stateless_present _)]
  show Machine.outcome (match fields.lookup name with | some v => _ | none => _) = _
  cases fields.lookup name <;> rfl

theorem fine_fieldOf {P : Value → Prop} {name : Text} {base v : Value} (h : base.Fine P)
    (hv : Machine.outcome (Machine.fieldOf name base) = .ok v) : v.Fine P := by
  cases base with
  | record fields =>
    rw [outcome_fieldOf_record] at hv
    cases hl : fields.lookup name with
    | none =>
      rw [hl] at hv
      cases hv
    | some w =>
      rw [hl] at hv
      cases hv
      exact ((fineFields_iff P fields).mp h).lookup hl
  | _ => cases hv

end Value

/-! ## Arguments -/

structure Args.Fine (P : Value → Prop) (a : Args) : Prop where
  positional : ∀ v ∈ a.positional, v.Fine P
  named : Value.FineVars P a.named

namespace Closure

theorem fine_fill {P : Value → Prop} {params : List Text} {vars : Vars} {left : List Value}
    (hv : Value.FineVars P vars) (hl : ∀ v ∈ left, v.Fine P) :
    Value.FineVars P (fill params vars left).1 := by
  induction params generalizing vars left with
  | nil => exact hv
  | cons p params ih =>
    unfold fill
    split
    · exact ih hv hl
    · cases left with
      | nil =>
        refine ih (fun x hx => ?_) hl
        rcases List.mem_append.mp hx with hx | hx
        · exact hv x hx
        · rw [List.mem_singleton.mp hx]
          exact trivial
      | cons v left =>
        refine ih (fun x hx => ?_) fun y hy => hl y (List.mem_cons_of_mem _ hy)
        rcases List.mem_append.mp hx with hx | hx
        · exact hv x hx
        · rw [List.mem_singleton.mp hx]
          exact hl v (List.mem_cons_self ..)

theorem fine_bind {P : Value → Prop} {c : Closure} {args : Args} {vars : Vars} (ha : args.Fine P)
    (h : c.bind args = .ok vars) : Value.FineVars P vars := by
  rw [bind] at h
  split at h
  · cases h
  · dsimp only at h
    split at h
    · cases h
      exact fine_fill ha.named ha.positional
    · cases h

end Closure

/-! ## Builtins -/

namespace Native

/-- A computation that only ever answers values that are neither functions nor records. -/
def Simple (r : NativeResult) : Prop := ∀ v t, r = .ok (v, t) → v.isPlain = true

theorem simple_error (e : Refusal) : Simple (.error e) := fun _ _ h => nomatch h

theorem simple_ok {v : Value} (t : Text) (hv : v.isPlain = true) : Simple (.ok (v, t)) := by
  intro w u h
  cases h
  exact hv

theorem simple_bind {α : Type} {x : Except Refusal α} {f : α → NativeResult}
    (hf : ∀ a, Simple (f a)) : Simple (x >>= f) := by
  cases x with
  | error e => exact simple_error e
  | ok a => exact hf a

theorem simple_run (host : Host) (args : Args) (f : Native) : Simple (f.run host args) := by
  cases f with
  | echo =>
    refine simple_bind fun _ => ?_
    dsimp only
    split
    all_goals
      refine simple_bind fun _ => ?_
      split
      all_goals exact simple_bind fun _ => simple_ok _ rfl
  | cat =>
    show Simple (runCat host args)
    unfold runCat
    split
    · refine simple_bind fun _ => ?_
      dsimp only
      split
      all_goals
        refine simple_bind fun _ => ?_
        split
        all_goals
          refine simple_bind fun _ => ?_
          split
          all_goals exact simple_bind fun _ => simple_ok _ rfl
    · exact simple_error _
  | length =>
    refine simple_bind fun v => ?_
    cases v with
    | text t => exact simple_ok _ rfl
    | record fields => exact simple_ok _ rfl
    | _ => exact simple_error _
  | upper | lower => exact simple_bind fun _ => simple_bind fun _ => simple_ok _ rfl
  | join =>
    show Simple (runJoin args)
    unfold runJoin
    dsimp only
    split
    all_goals exact simple_bind fun _ => simple_bind fun _ => simple_ok _ rfl
  | type =>
    refine simple_bind fun v => ?_
    cases v with
    | hole => exact simple_error _
    | _ => exact simple_ok _ rfl

end Native

/-- A builtin gives neither a function nor a record. -/
theorem Builtin.isPlain_call {host : Host} {b : Builtin} {args : Args} {v : Value} {t : Text}
    (h : b.call host args = .ok (v, t)) : v.isPlain = true := by
  rw [call] at h
  split at h
  · cases h
  · split at h
    · exact Native.simple_run host args _ v t h
    · cases h

end Bareword
