import Bareword.Proofs.Value.Fine

/-! # Values with other addresses

A function carries the index where its body starts and the number of the environment that it was made in. No
operation on values looks at either, so it does not matter which they are: linking moves the bodies of
functions, and another machine has other environments. A renaming changes all of them in a value.

* `Renaming`: new addresses and new numbers of environments.
* `Value.rename`: a value with other addresses and environments.
* `Closure.bind_rename`, `Builtin.call_rename`: calls with renamed arguments.
* `Value.erase`: a value without addresses.
-/

namespace Bareword
set_option autoImplicit false

/-- New addresses of function bodies and new numbers of environments. -/
structure Renaming where
  entry : Int64 → Int64 := id
  env : Nat → Nat := id

variable (ρ : Renaming)

/-- A function whose body starts elsewhere and that was made in another environment. -/
def Closure.rename (c : Closure) : Closure := { c with entry := ρ.entry c.entry, env := ρ.env c.env }

namespace Value

def rename : Value → Value
  | .closure c => .closure (c.rename ρ)
  | .record fields => .record (renameFields fields)
  | .null => .null
  | .bool b => .bool b
  | .number x => .number x
  | .text t => .text t
  | .regex pattern flags => .regex pattern flags
  | .builtin b => .builtin b
  | .hole => .hole
where
  /-- Renamed fields. -/
  renameFields : List (Text × Value) → List (Text × Value)
    | [] => []
    | (name, v) :: rest => (name, v.rename) :: renameFields rest

def renameVars (vars : List (Text × Value)) : List (Text × Value) :=
  vars.map fun (x, v) => (x, v.rename ρ)

theorem renameVars_append (vars vars' : List (Text × Value)) :
    renameVars ρ (vars ++ vars') = renameVars ρ vars ++ renameVars ρ vars' :=
  List.map_append

theorem renameFields_eq (fields : List (Text × Value)) :
    rename.renameFields ρ fields = renameVars ρ fields := by
  induction fields with
  | nil => rfl
  | cons f fields ih =>
    rw [rename.renameFields, ih]
    rfl

theorem rename_of_plain {v : Value} (h : v.isPlain = true) : v.rename ρ = v := by
  cases v <;> first | rfl | cases h

/-- What becomes a plain value was the same value before. -/
theorem eq_of_rename_plain {v w : Value} (hw : w.isPlain = true) (h : v.rename ρ = w) : v = w := by
  subst h
  cases v <;> first | rfl | cases hw

theorem eq_of_rename_builtin {v : Value} {b : Builtin} (h : v.rename ρ = .builtin b) : v = .builtin b := by
  cases v <;> first | exact h | cases h

mutual

/-- A value without functions has nothing to rename. -/
theorem rename_of_fine : (v : Value) → v.Fine (onClosures fun _ => False) → v.rename ρ = v
  | .record fields, h => by rw [rename, renameFields_of_fine fields h]
  | .null, _ | .bool _, _ | .number _, _ | .text _, _ | .regex _ _, _ | .builtin _, _ => rfl

theorem renameFields_of_fine : (fields : List (Text × Value)) →
    Fine.FineFields (onClosures fun _ => False) fields → rename.renameFields ρ fields = fields
  | [], _ => rfl
  | (name, v) :: rest, h => by
    rw [rename.renameFields, rename_of_fine v h.1, renameFields_of_fine rest h.2]

end

theorem renameVars_of_fine {vars : List (Text × Value)}
    (h : FineVars (onClosures fun _ => False) vars) : renameVars ρ vars = vars :=
  (List.map_congr_left fun x hx => congrArg (Prod.mk x.1) (rename_of_fine ρ x.2 (h x hx))).trans
    (List.map_id _)

section
variable {ρ} {σ : Renaming}

mutual

/-- What a renaming did can be undone. -/
theorem rename_rename (h : ∀ c : Closure, (c.rename ρ).rename σ = c) : (v : Value) → (v.rename ρ).rename σ = v
  | .record fields => by rw [rename, rename, renameFields_rename h fields]
  | .closure c => by rw [rename, rename, h]
  | .null | .bool _ | .number _ | .text _ | .regex _ _ | .builtin _ | .hole => rfl

theorem renameFields_rename (h : ∀ c : Closure, (c.rename ρ).rename σ = c) : (fields : List (Text × Value)) →
    rename.renameFields σ (rename.renameFields ρ fields) = fields
  | [] => rfl
  | (name, v) :: rest => by
    rw [rename.renameFields, rename.renameFields, rename_rename h v, renameFields_rename h rest]

end

variable {P Q : Value → Prop}

mutual

/-- A renamed value is fine if what is known of functions and builtins is known of the renamed ones. -/
theorem Fine.rename (h : ∀ w, P w → Q (w.rename ρ)) : (v : Value) → v.Fine P → (v.rename ρ).Fine Q
  | .closure _, hv => h _ hv
  | .builtin _, hv => h _ hv
  | .record fields, hv => FineFields.rename h fields hv
  | .null, _ | .bool _, _ | .number _, _ | .text _, _ | .regex _ _, _ => trivial

theorem FineFields.rename (h : ∀ w, P w → Q (w.rename ρ)) : (fields : List (Text × Value)) →
    Fine.FineFields P fields → Fine.FineFields Q (rename.renameFields ρ fields)
  | [], _ => trivial
  | (_, v) :: rest, hfields => ⟨Fine.rename h v hfields.1, FineFields.rename h rest hfields.2⟩

end

end

/-! ## Operations -/

theorem isTruthy_rename (v : Value) : (v.rename ρ).isTruthy = v.isTruthy := by
  cases v <;> rfl

theorem isHole_rename (v : Value) : (v.rename ρ).isHole = v.isHole := by
  cases v <;> rfl

theorem isCallable_rename (v : Value) :
    Machine.Value.isCallable (v.rename ρ) = Machine.Value.isCallable v := by
  cases v <;> rfl

mutual

theorem display_rename : (v : Value) → (v.rename ρ).display = v.display
  | .record fields => by
    rw [rename, display, display, displayFields_rename fields]
  | .closure c => by
    rw [rename, display, display]
    rfl
  | .null | .bool _ | .number _ | .text _ | .regex _ _ | .builtin _ | .hole => rfl

theorem displayFields_rename : (fields : List (Text × Value)) →
    display.displayFields (rename.renameFields ρ fields) = display.displayFields fields
  | [] => rfl
  | (name, v) :: rest => by
    rw [rename.renameFields, display.displayFields, display.displayFields, display_rename v,
      displayFields_rename rest]

end

mutual

theorem equals_rename : (v w : Value) → (v.rename ρ).equals (w.rename ρ) = v.equals w
  | .record fs, .record gs => by
    rw [rename, rename, equals, equals, equalFields_rename fs gs]
  | .record _, .closure _ | .record _, .null | .record _, .bool _ | .record _, .number _
  | .record _, .text _ | .record _, .regex _ _ | .record _, .builtin _ | .record _, .hole => rfl
  | .closure _, w => by cases w <;> rfl
  | .null, w => by cases w <;> rfl
  | .bool _, w => by cases w <;> rfl
  | .number _, w => by cases w <;> rfl
  | .text _, w => by cases w <;> rfl
  | .regex _ _, w => by cases w <;> rfl
  | .builtin _, w => by cases w <;> rfl
  | .hole, w => by cases w <;> rfl

theorem equalFields_rename : (fs gs : List (Text × Value)) →
    equals.equalFields (rename.renameFields ρ fs) (rename.renameFields ρ gs) = equals.equalFields fs gs
  | [], [] => rfl
  | [], _ :: _ => rfl
  | _ :: _, [] => rfl
  | (a, x) :: fs, (b, y) :: gs => by
    rw [rename.renameFields, rename.renameFields, equals.equalFields, equals.equalFields,
      equals_rename x y, equalFields_rename fs gs]

end

theorem joinAll_rename (sep : Text) (vs : List Value) :
    joinAll sep (vs.map (rename ρ)) = joinAll sep vs := by
  rw [joinAll, joinAll, List.map_map]
  congr 1
  exact List.map_congr_left fun v _ => display_rename ρ v

theorem any_isHole_rename (vs : List Value) :
    (vs.map (rename ρ)).any (·.isHole) = vs.any (·.isHole) := by
  rw [List.any_map]
  congr 1
  funext v
  exact isHole_rename ρ v

theorem lookup_renameVars (name : Text) (vars : List (Text × Value)) :
    (renameVars ρ vars).lookup name = (vars.lookup name).map (rename ρ) := by
  induction vars with
  | nil => rfl
  | cons x vars ih =>
    obtain ⟨n, v⟩ := x
    rw [renameVars, List.map_cons, List.lookup_cons, List.lookup_cons]
    cases name == n with
    | true => rfl
    | false => exact ih

theorem setField_rename (name : Text) (v : Value) (fields : List (Text × Value)) :
    setField name (v.rename ρ) (renameVars ρ fields) = renameVars ρ (setField name v fields) := by
  induction fields with
  | nil => rfl
  | cons f fields ih =>
    obtain ⟨n, x⟩ := f
    rw [renameVars, List.map_cons, setField, setField]
    split
    · rfl
    · split
      · rfl
      · rw [renameVars, List.map_cons]
        exact congrArg _ ih

theorem arithmetic_rename (op : Opcode) (a b : Value) :
    Machine.arithmetic op (a.rename ρ) (b.rename ρ) = Machine.arithmetic op a b := by
  cases a <;> cases b <;> rfl

theorem compare_rename (op : Opcode) (a b : Value) :
    Machine.compare op (a.rename ρ) (b.rename ρ) = Machine.compare op a b := by
  cases a <;> cases b <;> rfl

theorem equal_rename (a b : Value) : Machine.equal (a.rename ρ) (b.rename ρ) = Machine.equal a b := by
  have h := equals_rename ρ a b
  cases a with
  | null => cases b <;> rfl
  | hole => rfl
  | _ =>
    show (pure (Value.equals _ _) : Machine.Exec Bool) = pure (Value.equals _ _)
    rw [← h]

theorem operation_rename {op : Opcode} {f : Value → Value → Machine.Exec Value}
    (h : Machine.operation op = some f) (a b : Value) : f (a.rename ρ) (b.rename ρ) = f a b := by
  cases op <;> simp only [Machine.operation, Option.some.injEq, reduceCtorEq] at h <;> subst h
  case eq | neq => simp only [equal_rename]
  case lt | gt | lte | gte => exact compare_rename ρ _ a b
  case add | sub | mul | div => exact arithmetic_rename ρ _ a b

theorem fieldOf_rename (name : Text) (v : Value) :
    Machine.outcome (Machine.fieldOf name (v.rename ρ)) =
      (Machine.outcome (Machine.fieldOf name v)).map (rename ρ) := by
  cases v with
  | record fields =>
    rw [rename, renameFields_eq, outcome_fieldOf_record, outcome_fieldOf_record, lookup_renameVars]
    cases fields.lookup name <;> rfl
  | _ => rfl

end Value

/-! ## Arguments -/

def Args.rename (a : Args) : Args := ⟨a.positional.map (Value.rename ρ), Value.renameVars ρ a.named⟩

namespace Args

theorem names_rename (a : Args) : (a.rename ρ).names = a.names := by
  simp [names, rename, Value.renameVars]

theorem named?_rename (a : Args) (name : Text) :
    (a.rename ρ).named? name = (a.named? name).map (Value.rename ρ) :=
  Value.lookup_renameVars ρ name a.named

theorem get?_rename (a : Args) (name : Text) (index : Int) :
    (a.rename ρ).get? name index = (a.get? name index).map (Value.rename ρ) := by
  rw [get?, get?, named?_rename]
  cases a.named? name with
  | some v => rfl
  | none =>
    dsimp only [Option.map_none]
    split
    · rfl
    · exact List.getElem?_map

end Args

namespace Closure

theorem fill_rename (params : List Text) (vars : Vars) (left : List Value) :
    fill params (Value.renameVars ρ vars) (left.map (Value.rename ρ)) =
      (Value.renameVars ρ (fill params vars left).1,
        (fill params vars left).2.map (Value.rename ρ)) := by
  induction params generalizing vars left with
  | nil => rfl
  | cons p params ih =>
    unfold fill
    rw [Value.lookup_renameVars, Option.isSome_map]
    split
    · exact ih vars left
    · cases left with
      | nil =>
        have h := ih (vars ++ [(p, .null)]) []
        rw [Value.renameVars_append] at h
        exact h
      | cons v left =>
        have h := ih (vars ++ [(p, v)]) left
        rw [Value.renameVars_append] at h
        exact h

/-- Renamed arguments become renamed variables, and what is wrong with them stays wrong. -/
theorem bind_rename (c : Closure) (args : Args) :
    (c.rename ρ).bind (args.rename ρ) = (c.bind args).map (Value.renameVars ρ) := by
  rw [bind, bind, Args.names_rename]
  have hparams : (c.rename ρ).params = c.params := rfl
  rw [hparams]
  cases args.names.find? fun n => !c.params.contains n with
  | some name => rfl
  | none =>
    dsimp only
    have hfill : fill c.params (args.rename ρ).named (args.rename ρ).positional =
        (Value.renameVars ρ (fill c.params args.named args.positional).1,
          (fill c.params args.named args.positional).2.map (Value.rename ρ)) :=
      fill_rename ρ c.params args.named args.positional
    rw [hfill]
    dsimp only
    rw [List.isEmpty_map]
    split
    · rfl
    · have hp : (args.rename ρ).positional.length = args.positional.length := by simp [Args.rename]
      have hn : (args.rename ρ).named.length = args.named.length := by
        simp [Args.rename, Value.renameVars]
      rw [hp, hn]
      rfl

end Closure

/-! ## Builtins -/

namespace Native

theorem shown_rename (v : Value) : shown (v.rename ρ) = shown v := by
  have h := Value.display_rename ρ v
  cases v with
  | hole => rfl
  | _ =>
    show Except.ok _ = Except.ok _
    rw [h]

theorem truth_rename (v : Value) : truth (v.rename ρ) = truth v := by
  cases v <;> rfl

theorem stringOf_rename (v : Value) : stringOf (v.rename ρ) = stringOf v := by
  cases v <;> rfl

theorem joined_rename (sep : Text) (vs : List Value) : joined sep (vs.map (Value.rename ρ)) = joined sep vs := by
  rw [joined, joined, Value.any_isHole_rename, Value.joinAll_rename]

theorem single_rename (name : Text) (args : Args) :
    single name (args.rename ρ) = (single name args).map (Value.rename ρ) := by
  obtain ⟨positional, named⟩ := args
  match positional with
  | [] => rfl
  | [v] => rfl
  | v :: w :: vs =>
    show Except.error _ = Except.error _
    simp

theorem runEcho_rename (args : Args) : runEcho (args.rename ρ) = runEcho args := by
  have htext := args.named?_rename ρ "text"
  have hstays := args.named?_rename ρ "no-newline"
  rw [runEcho, runEcho, htext, hstays]
  show (joined _ (args.positional.map (Value.rename ρ)) >>= _) = _
  rw [joined_rename]
  cases args.named? "text" <;> cases args.named? "no-newline" <;>
    simp only [Option.map_some, Option.map_none, shown_rename, truth_rename]

theorem runCat_rename (host : Host) (args : Args) : runCat host (args.rename ρ) = runCat host args := by
  have hpath := args.get?_rename ρ "path" 0
  have hnumbered := args.named?_rename ρ "numbered"
  rw [runCat, runCat, hpath, hnumbered]
  cases args.get? "path" 0 with
  | none => rfl
  | some v =>
    cases args.named? "numbered" <;>
      simp only [Option.map_some, Option.map_none, stringOf_rename, truth_rename]

theorem runLength_rename (args : Args) : runLength (args.rename ρ) = runLength args := by
  rw [runLength, runLength, single_rename]
  cases single "length" args with
  | error e => rfl
  | ok v =>
    cases v with
    | record fields =>
      show Except.ok _ = Except.ok _
      rw [Value.renameFields_eq, Value.renameVars, List.length_map]
    | _ => rfl

theorem mapText_rename (name : Text) (f : Text → Text) (args : Args) :
    mapText name f (args.rename ρ) = mapText name f args := by
  rw [mapText, mapText, single_rename]
  cases single name args with
  | error e => rfl
  | ok v =>
    show (stringOf (v.rename ρ) >>= _) = (stringOf v >>= _)
    rw [stringOf_rename]

theorem runJoin_rename (args : Args) : runJoin (args.rename ρ) = runJoin args := by
  have hsep := args.named?_rename ρ "sep"
  have hjoined : ∀ sep, joined sep (args.rename ρ).positional = joined sep args.positional :=
    fun sep => joined_rename ρ sep args.positional
  rw [runJoin, runJoin, hsep]
  cases args.named? "sep" <;>
    simp only [Option.map_some, Option.map_none, shown_rename, hjoined]

theorem runType_rename (args : Args) : runType (args.rename ρ) = runType args := by
  rw [runType, runType, single_rename]
  cases single "type" args with
  | error e => rfl
  | ok v => cases v <;> rfl

theorem run_rename (host : Host) (args : Args) (f : Native) :
    f.run host (args.rename ρ) = f.run host args := by
  cases f with
  | echo => exact runEcho_rename ρ args
  | cat => exact runCat_rename ρ host args
  | length => exact runLength_rename ρ args
  | upper => exact mapText_rename ρ _ _ args
  | lower => exact mapText_rename ρ _ _ args
  | join => exact runJoin_rename ρ args
  | type => exact runType_rename ρ args

end Native

/-- No builtin looks at where a function starts or where it was made. -/
theorem Builtin.call_rename (host : Host) (b : Builtin) (args : Args) :
    b.call host (args.rename ρ) = b.call host args := by
  rw [call, call, unknownName?, unknownName?, Args.names_rename]
  simp only [Native.run_rename]

/-! ## Variables -/

theorem Store.assign_rename (name : Text) (v : Value) (vars : Closure.Vars) :
    assign name (v.rename ρ) (Value.renameVars ρ vars) = Value.renameVars ρ (assign name v vars) := by
  induction vars with
  | nil => rfl
  | cons f vars ih =>
    obtain ⟨n, x⟩ := f
    rw [Value.renameVars, List.map_cons, assign, assign]
    split
    · rfl
    · exact congrArg _ ih

theorem Store.assignAll_rename (new vars : Closure.Vars) :
    Value.renameVars ρ (new.foldl (fun vars x => assign x.1 x.2 vars) vars) =
      (Value.renameVars ρ new).foldl (fun vars x => assign x.1 x.2 vars) (Value.renameVars ρ vars) := by
  induction new generalizing vars with
  | nil => rfl
  | cons x new ih =>
    rw [List.foldl_cons, ih, ← assign_rename]
    rfl

/-! ## What calls take from the stack -/

namespace Machine
variable {ρ}

theorem namedEntries_of_rename {named : List (Text × Value)} {bs : List Value}
    (h : bs.map (Value.rename ρ) = namedEntries named) :
    ∃ named', bs = namedEntries named' ∧ Value.renameVars ρ named' = named := by
  induction named generalizing bs with
  | nil => exact ⟨[], List.map_eq_nil_iff.mp h, rfl⟩
  | cons x named ih =>
    obtain ⟨name, u⟩ := x
    change bs.map (Value.rename ρ) = .text name :: u :: namedEntries named at h
    obtain ⟨n', others, rfl, hn, hothers⟩ := List.map_eq_cons_iff.mp h
    obtain ⟨u', rest, rfl, rfl, hrest⟩ := List.map_eq_cons_iff.mp hothers
    obtain ⟨named', rfl, rfl⟩ := ih hrest
    rw [Value.eq_of_rename_plain ρ rfl hn]
    exact ⟨(name, u') :: named', rfl, rfl⟩

/-- What lies on the stack before a call, if it is known after a renaming. -/
theorem callEntries_of_rename {callee : Value} {positional bs : List Value}
    {named : List (Text × Value)} (h : bs.map (Value.rename ρ) = callEntries callee positional named) :
    ∃ callee' positional' named', bs = callEntries callee' positional' named' ∧
      callee'.rename ρ = callee ∧ positional'.map (Value.rename ρ) = positional ∧
      Value.renameVars ρ named' = named := by
  obtain ⟨front, counts, rfl, hfront, hcounts⟩ := List.map_eq_append_iff.mp h
  obtain ⟨front, entries, rfl, hfront, hentries⟩ := List.map_eq_append_iff.mp hfront
  obtain ⟨callee', positional', rfl, rfl, rfl⟩ := List.map_eq_cons_iff.mp hfront
  obtain ⟨named', rfl, rfl⟩ := namedEntries_of_rename hentries
  obtain ⟨a, rest, rfl, ha, hrest⟩ := List.map_eq_cons_iff.mp hcounts
  obtain ⟨b, rfl, hb⟩ := List.map_eq_singleton_iff.mp hrest
  refine ⟨callee', positional', named', ?_, rfl, rfl, rfl⟩
  rw [Value.eq_of_rename_plain ρ rfl ha, Value.eq_of_rename_plain ρ rfl hb]
  simp [callEntries, Value.renameVars]

theorem namedArgs_rename (named : List (Text × Value)) :
    Value.renameVars ρ (namedArgs named) = namedArgs (Value.renameVars ρ named) := by
  induction named with
  | nil => rfl
  | cons x named ih =>
    show _ = Value.setField x.1 (x.2.rename ρ) (namedArgs (Value.renameVars ρ named))
    rw [← ih]
    exact (Value.setField_rename ρ x.1 x.2 (namedArgs named)).symm

end Machine

/-! ## Values without addresses -/

/-- The renaming that leaves no addresses. -/
abbrev Renaming.erasing : Renaming := { entry := fun _ => 0 }

/-- A function without the index of its body. -/
abbrev Closure.erase (c : Closure) : Closure := c.rename .erasing

/-- A value without the indices of function bodies. -/
abbrev Value.erase (v : Value) : Value := v.rename .erasing

abbrev Value.eraseVars (vars : List (Text × Value)) : List (Text × Value) := renameVars .erasing vars

abbrev Args.erase (a : Args) : Args := a.rename .erasing

theorem Value.erase_of_plain {v : Value} (h : v.isPlain = true) : v.erase = v := rename_of_plain _ h

end Bareword
