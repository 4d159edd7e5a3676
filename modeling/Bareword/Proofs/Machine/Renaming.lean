import Bareword.Proofs.Machine.View
import Bareword.Proofs.Value.Renaming

/-! # Machines with other addresses

What an instruction does is the same, up to a renaming of addresses and environments, on a renamed state. Only
the instruction itself brings a new address into the state, so its target has to be renamed too. A translation
may also leave environments out, as long as variables are found in those that remain.

* `State.rename`: a state with other addresses and other numbers of environments.
* `Store.Mirrors`: environments with the same variables as others.
* `Translation`: how the states of one machine become states of another one.
* `Follows`, `Carries`: an action does to translated states what another one does to the states themselves.
* `execute_carries`: the instructions of two programs that match.
-/

namespace Bareword
set_option autoImplicit false

variable (ρ : Renaming)

def Env.rename (e : Env) : Env := ⟨Value.renameVars ρ e.vars, e.parent.map ρ.env⟩

/-- A stack with other addresses, also in the places above its top. -/
def Stack.rename (s : Stack) : Stack := ⟨s.live.map (Value.rename ρ), s.above.map (Value.rename ρ)⟩

namespace Stack

theorem height_rename (s : Stack) : (s.rename ρ).height = s.height := by
  simp [height, rename]

theorem push?_rename (s : Stack) (v : Value) :
    (s.rename ρ).push? (v.rename ρ) = (s.push? v).map (rename ρ) := by
  rw [push?, push?, height_rename]
  split
  · rfl
  · rw [Option.map_some, rename, rename, List.map_drop]
    rfl

theorem pop?_rename (s : Stack) :
    (s.rename ρ).pop? = s.pop?.map fun (v, rest) => (v.rename ρ, rest.rename ρ) := by
  obtain ⟨live, above⟩ := s
  cases live with
  | nil => rfl
  | cons v rest => rfl

theorem top?_rename (s : Stack) : (s.rename ρ).top? = s.top?.map (Value.rename ρ) := List.head?_map

theorem lower_rename (n : Nat) (s : Stack) : (s.rename ρ).lower n = (s.lower n).rename ρ := by
  induction n generalizing s with
  | zero => rfl
  | succ n ih =>
    obtain ⟨live, above⟩ := s
    cases live with
    | nil => rfl
    | cons v rest => exact ih ⟨rest, v :: above⟩

theorem raise_rename (n : Nat) (s : Stack) : (s.rename ρ).raise n = (s.raise n).rename ρ := by
  induction n generalizing s with
  | zero => rfl
  | succ n ih =>
    obtain ⟨live, above⟩ := s
    cases above with
    | nil => exact ih ⟨.hole :: live, []⟩
    | cons v rest => exact ih ⟨v :: live, rest⟩

theorem resize_rename (h : Nat) (s : Stack) : (s.rename ρ).resize h = (s.resize h).rename ρ := by
  rw [resize, resize, height_rename]
  split
  · exact lower_rename ρ _ s
  · exact raise_rename ρ _ s

end Stack

def Store.rename (s : Store) : Store := s.map (Env.rename ρ)

namespace Store

theorem getElem?_rename (s : Store) (e : Nat) : (s.rename ρ)[e]? = s[e]?.map (Env.rename ρ) :=
  Array.getElem?_map

theorem set_rename (s : Store) (e : Nat) (name : Text) (v : Value) :
    (s.rename ρ).set e name (v.rename ρ) = (s.set e name v).rename ρ := by
  refine Array.ext_getElem? fun k => ?_
  rw [getElem?_rename, set, set, Array.getElem?_modify, Array.getElem?_modify, getElem?_rename]
  split
  · cases s[k]? with
    | none => rfl
    | some env =>
      have hvars := assign_rename ρ name v env.vars
      exact congrArg (fun vars => some (Env.mk vars (env.parent.map ρ.env))) hvars
  · rfl

theorem push_rename (s : Store) (env : Env) : (s.rename ρ).push (env.rename ρ) = rename ρ (s.push env) :=
  Array.map_push.symm

/-- Under their new numbers the environments of the first store are in the second one, and they lie in each
other as before. -/
structure Mirrors (s s' : Store) : Prop where
  env : ∀ e, s'[ρ.env e]? = s[e]?.map (Env.rename ρ)
  parent : ∀ e x p, s[e]? = some x → x.parent = some p → (ρ.env p < ρ.env e ↔ p < e)

theorem mirrors_rename (h : ∀ e, ρ.env e = e) (s : Store) : Mirrors ρ s (s.rename ρ) where
  env e := by rw [h, getElem?_rename]
  parent e x p _ _ := by rw [h, h]

section
variable {ρ} {s s' : Store}

theorem Mirrors.get? (h : Mirrors ρ s s') (e : Nat) (name : Text) :
    s'.get? (ρ.env e) name = (s.get? e name).map (Value.rename ρ) := by
  -- The numbers get smaller on both sides, but not by as much.
  have hfind : ∀ fuel fuel' e, e < fuel → ρ.env e < fuel' →
      s'.find? name fuel' (ρ.env e) = (s.find? name fuel e).map (Value.rename ρ) := by
    intro fuel
    induction fuel with
    | zero => exact fun _ e he => absurd he (Nat.not_lt_zero e)
    | succ fuel ih =>
      intro fuel' e he he'
      obtain ⟨fuel', rfl⟩ : ∃ n, fuel' = n + 1 := ⟨fuel' - 1, by omega⟩
      rw [find?, find?, h.env e]
      cases hx : s[e]? with
      | none => rfl
      | some x =>
        have hl : (x.rename ρ).vars.lookup name = (x.vars.lookup name).map (Value.rename ρ) :=
          Value.lookup_renameVars ρ name x.vars
        dsimp only [Option.map_some]
        rw [hl]
        cases x.vars.lookup name with
        | some v => rfl
        | none =>
          cases hp : x.parent with
          | none =>
            have hparent : (x.rename ρ).parent = none := congrArg (Option.map ρ.env) hp
            rw [hparent]
            rfl
          | some p =>
            have hparent : (x.rename ρ).parent = some (ρ.env p) := congrArg (Option.map ρ.env) hp
            have hin := h.parent e x p hx hp
            rw [hparent]
            dsimp only [Option.map_none]
            by_cases hlt : p < e
            · rw [if_pos hlt, if_pos (hin.mpr hlt)]
              have hlt' := hin.mpr hlt
              exact ih fuel' p (by omega) (by omega)
            · rw [if_neg hlt, if_neg (mt hin.mp hlt)]
              rfl
  exact hfind (e + 1) (ρ.env e + 1) e (Nat.lt_succ_self e) (Nat.lt_succ_self _)

theorem Mirrors.names (h : Mirrors ρ s s') (e : Nat) : s'.names (ρ.env e) = s.names e := by
  have hfrom : ∀ fuel fuel' e, e < fuel → ρ.env e < fuel' →
      s'.namesFrom fuel' (ρ.env e) = s.namesFrom fuel e := by
    intro fuel
    induction fuel with
    | zero => exact fun _ e he => absurd he (Nat.not_lt_zero e)
    | succ fuel ih =>
      intro fuel' e he he'
      obtain ⟨fuel', rfl⟩ : ∃ n, fuel' = n + 1 := ⟨fuel' - 1, by omega⟩
      rw [namesFrom, namesFrom, h.env e]
      cases hx : s[e]? with
      | none => rfl
      | some x =>
        have hnames : (x.rename ρ).vars.map (·.1) = x.vars.map (·.1) := by
          simp [Env.rename, Value.renameVars]
        dsimp only [Option.map_some]
        rw [hnames]
        cases hp : x.parent with
        | none =>
          have hparent : (x.rename ρ).parent = none := congrArg (Option.map ρ.env) hp
          rw [hparent]
        | some p =>
          have hparent : (x.rename ρ).parent = some (ρ.env p) := congrArg (Option.map ρ.env) hp
          have hin := h.parent e x p hx hp
          rw [hparent]
          dsimp only
          by_cases hlt : p < e
          · have hlt' := hin.mpr hlt
            rw [if_pos hlt, if_pos hlt', ih fuel' p (by omega) (by omega)]
          · rw [if_neg hlt, if_neg (mt hin.mp hlt)]
  rw [Store.names, Store.names, hfrom (e + 1) (ρ.env e + 1) e (Nat.lt_succ_self e) (Nat.lt_succ_self _)]

end

end Store

namespace Machine

/-- A call that goes back elsewhere, and to another environment. -/
def Frame.rename (f : Frame) : Frame := ⟨ρ.entry f.returnTo, f.height, ρ.env f.env⟩

def State.rename (s : State) : State :=
  { s with
    ip := ρ.entry s.ip
    stack := s.stack.rename ρ
    frames := s.frames.map (Frame.rename ρ)
    env := ρ.env s.env
    store := s.store.rename ρ }

/-- A result with another state; `f` changes what is in the answer. -/
def mapResult {α β : Type} (g : State → State) (f : α → β) :
    EStateM.Result Trouble State α → EStateM.Result Trouble State β
  | .ok a t => .ok (f a) (g t)
  | .error e t => .error e (g t)

theorem ok_of_mapResult {α : Type} {g : State → State} {r : EStateM.Result Trouble State α} {a : α} {t' : State}
    (h : mapResult g id r = .ok a t') : ∃ t, r = .ok a t ∧ t' = g t := by
  cases r with
  | ok b t =>
    cases h
    exact ⟨t, rfl, rfl⟩
  | error e t => cases h

theorem error_of_mapResult {α β : Type} {g : State → State} {f : α → β} {r : EStateM.Result Trouble State α}
    {e : Trouble} {t' : State} (h : mapResult g f r = .error e t') : ∃ t, r = .error e t ∧ t' = g t := by
  cases r with
  | ok b t => cases h
  | error e t =>
    cases h
    exact ⟨t, rfl, rfl⟩

/-! ## Translations -/

/-- How the states of one machine become states of another one: some environments are kept, and the addresses
and the environments get other names. Good scenes are those where assignments and calls do to the
environments that are kept what they do to all of them. -/
structure Translation where
  ρ : Renaming := {}
  keep : Store → Store := id
  Good : Scene → Prop := fun _ => True
  set {c : Scene} (hc : Good c) (name : Text) (v : Value) :
    keep (c.store.set c.env name v) = (keep c.store).set (ρ.env c.env) name v
  push {c : Scene} (hc : Good c) (env : Env) : keep (c.store.push env) = (keep c.store).push env
  size {c : Scene} (hc : Good c) : ρ.env c.store.size = (keep c.store).size

namespace Translation
variable (T : Translation)

def store (st : Store) : Store := (T.keep st).rename T.ρ

def state (s : State) : State := State.rename T.ρ { s with store := T.keep s.store }

/-- A name has the same value after the translation. -/
def Finds (c : Scene) (name : Text) : Prop :=
  (T.store c.store).get? (T.ρ.env c.env) name = (c.store.get? c.env name).map (Value.rename T.ρ)

/-- The same names are seen after the translation. -/
def Sees (c : Scene) : Prop := (T.store c.store).names (T.ρ.env c.env) = c.store.names c.env

/-- An action has refused to call something, and may have suggested names that are not the same after the
translation. -/
def Misleads (c : Scene) {α : Type} (r : EStateM.Result Trouble State α) : Prop :=
  ¬ T.Sees c ∧ ∃ e t, r = .error (.fault e) t ∧ e.code = Report.Code.notCallable.text

end Translation

/-- The second action does to translated states what the first one does to the states themselves, and the
first one leaves calls and environments alone. The second stops in the same trouble, and otherwise
its answer is what `f` makes of the answer of the first. -/
def Follows (T : Translation) {α β : Type} (f : α → β) (x : Exec α) (y : Exec β) : Prop :=
  ∀ s : State, y (T.state s) = mapResult T.state f (x s) ∧ (finalState (x s)).scene = s.scene

/-- From a scene the second action does to translated states what the first one does to the states themselves,
unless the first one may suggest other names. -/
def Carries (T : Translation) (c : Scene) {α β : Type} (f : α → β) (x : Exec α) (y : Exec β) : Prop :=
  ∀ s : State, s.scene = c → y (T.state s) = mapResult T.state f (x s) ∨ T.Misleads c (x s)

section
variable {T : Translation} {c : Scene} {α α' β β' : Type} {f : α → α'} {g : β → β'} {x : Exec α} {x' : Exec α'}
  {k : α → Exec β} {k' : α' → Exec β'}

theorem Follows.bind (hx : Follows T f x x') (hk : ∀ a, Follows T g (k a) (k' (f a))) :
    Follows T g (x >>= k) (x' >>= k') := by
  intro s
  obtain ⟨hfirst, hquiet⟩ := hx s
  show EStateM.bind x' k' (T.state s) = mapResult T.state g (EStateM.bind x k s) ∧
    (finalState (EStateM.bind x k s)).scene = s.scene
  rw [EStateM.bind, EStateM.bind, hfirst]
  cases hr : x s with
  | error e t =>
    rw [hr] at hquiet
    exact ⟨rfl, hquiet⟩
  | ok a t =>
    rw [hr] at hquiet
    obtain ⟨hnext, hscene⟩ := hk a t
    exact ⟨hnext, hscene.trans hquiet⟩

/-- What goes before changes neither calls nor environments. -/
theorem Follows.before (hx : Follows T f x x') (hk : ∀ a, Carries T c g (k a) (k' (f a))) :
    Carries T c g (x >>= k) (x' >>= k') := by
  intro s hs
  obtain ⟨hfirst, hquiet⟩ := hx s
  show EStateM.bind x' k' (T.state s) = mapResult T.state g (EStateM.bind x k s) ∨ T.Misleads c (EStateM.bind x k s)
  rw [EStateM.bind, EStateM.bind, hfirst]
  cases hr : x s with
  | error e t => exact .inl rfl
  | ok a t =>
    rw [hr] at hquiet
    exact hk a t (hquiet.trans hs)

theorem Carries.after (hx : Carries T c f x x') (hk : ∀ a, Follows T g (k a) (k' (f a))) :
    Carries T c g (x >>= k) (x' >>= k') := by
  intro s hs
  show EStateM.bind x' k' (T.state s) = mapResult T.state g (EStateM.bind x k s) ∨ T.Misleads c (EStateM.bind x k s)
  rw [EStateM.bind, EStateM.bind]
  obtain hfirst | ⟨hsees, e, t, hr, hcode⟩ := hx s hs
  · rw [hfirst]
    cases x s with
    | error e t => exact .inl rfl
    | ok a t => exact .inl (hk a t).1
  · rw [hr]
    exact .inr ⟨hsees, e, t, rfl, hcode⟩

theorem Follows.carries (h : Follows T f x x') : Carries T c f x x' := fun s _ => .inl (h s).1

theorem follows_pure (f : α → α') {a : α} {b : α'} (h : b = f a) : Follows T f (pure a) (pure b) :=
  fun _ => ⟨h ▸ rfl, rfl⟩

theorem follows_throw (f : α → α') (e : Trouble) : Follows T f (throw e) (throw e) := fun _ => ⟨rfl, rfl⟩

theorem follows_get {k : State → Exec α} {k' : State → Exec α'}
    (h : ∀ s : State, k' (T.state s) (T.state s) = mapResult T.state f (k s s) ∧ (finalState (k s s)).scene = s.scene) :
    Follows T f (get >>= k) (get >>= k') := h

theorem carries_get {k : State → Exec α} {k' : State → Exec α'}
    (h : ∀ s : State, s.scene = c →
      k' (T.state s) (T.state s) = mapResult T.state f (k s s) ∨ T.Misleads c (k s s)) :
    Carries T c f (get >>= k) (get >>= k') := h

/-- Actions that do not look at the state follow each other if their outcomes do. -/
theorem Stateless.follows (hx : Stateless x) (hx' : Stateless x') (h : outcome x' = (outcome x).map f) :
    Follows T f x x' := by
  intro s
  rw [hx s, hx' (T.state s), h]
  cases outcome x <;> exact ⟨rfl, rfl⟩

end

/-! ## The stack -/

section
variable {T : Translation}

theorem follows_push (v : Value) : Follows T id (push v) (push (v.rename T.ρ)) := by
  refine follows_get fun s => ?_
  have h : (T.state s).stack.push? (v.rename T.ρ) = (s.stack.push? v).map (Stack.rename T.ρ) :=
    Stack.push?_rename T.ρ s.stack v
  rw [h]
  cases s.stack.push? v <;> exact ⟨rfl, rfl⟩

theorem follows_pop : Follows T (Value.rename T.ρ) pop pop := by
  refine follows_get fun s => ?_
  have h : (T.state s).stack.pop? = s.stack.pop?.map fun (v, rest) => (v.rename T.ρ, rest.rename T.ρ) :=
    Stack.pop?_rename T.ρ s.stack
  rw [h]
  cases s.stack.pop? <;> exact ⟨rfl, rfl⟩

theorem follows_top : Follows T (Value.rename T.ρ) top top := by
  refine follows_get fun s => ?_
  have h : (T.state s).stack.top? = s.stack.top?.map (Value.rename T.ρ) := Stack.top?_rename T.ρ s.stack
  rw [h]
  cases s.stack.top? <;> exact ⟨rfl, rfl⟩

theorem follows_popInto (n : Nat) (vs : List Value) :
    Follows T (List.map (Value.rename T.ρ)) (popInto n vs) (popInto n (vs.map (Value.rename T.ρ))) := by
  induction n generalizing vs with
  | zero => exact follows_pure _ rfl
  | succ n ih => exact follows_pop.bind fun v => ih (v :: vs)

theorem follows_present (v : Value) : Follows T (Value.rename T.ρ) (present v) (present (v.rename T.ρ)) := by
  cases v <;> first | exact follows_pure _ rfl | exact follows_throw _ _

/-- An operation with two operands gives a number or a truth value, in which there is no address. -/
theorem follows_operation {op : Opcode} {f : Value → Value → Exec Value} (h : operation op = some f)
    (a b : Value) : Follows T (Value.rename T.ρ) (f a b) (f (a.rename T.ρ) (b.rename T.ρ)) := by
  rw [Value.operation_rename T.ρ h]
  have hs := stateless_operation h a b
  refine hs.follows hs ?_
  cases hv : outcome (f a b) with
  | error e => rfl
  | ok v => exact congrArg _ (Value.rename_of_plain T.ρ (Value.isPlain_operation h hv)).symm

theorem follows_equal (a b : Value) :
    Follows T id (equal a b) (equal (a.rename T.ρ) (b.rename T.ρ)) := by
  rw [Value.equal_rename]
  have hs := stateless_equal a b
  refine hs.follows hs ?_
  cases outcome (equal a b) <;> rfl

theorem follows_fieldOf (name : Text) (v : Value) :
    Follows T (Value.rename T.ρ) (fieldOf name v) (fieldOf name (v.rename T.ρ)) :=
  (stateless_fieldOf name v).follows (stateless_fieldOf name _) (Value.fieldOf_rename T.ρ name v)

theorem follows_popCount : Follows T id popCount popCount := by
  refine follows_pop.bind fun v => (follows_present v).bind fun v => ?_
  cases v with
  | number x =>
    have hcount : Value.rename T.ρ (.number x) = .number x := rfl
    rw [hcount]
    dsimp only
    cases countOf? x with
    | some n => exact follows_pure id rfl
    | none => exact follows_throw _ _
  | _ => exact follows_throw _ _

theorem follows_popNamed (n : Nat) (named : List (Text × Value)) :
    Follows T (Value.renameVars T.ρ) (popNamed n named) (popNamed n (Value.renameVars T.ρ named)) := by
  induction n generalizing named with
  | zero => exact follows_pure _ rfl
  | succ n ih =>
    refine follows_pop.bind fun v => follows_pop.bind fun u => (follows_present u).bind fun name => ?_
    cases name with
    | text t =>
      have h := ih (Value.setField t v named)
      rw [← Value.setField_rename] at h
      exact h
    | _ => exact follows_throw _ _

theorem follows_concat (n : Int64) : Follows T id (concat n) (concat n) := by
  rw [concat]
  split
  · exact follows_throw _ _
  · refine (follows_popInto n.toInt.toNat []).bind fun vs => ?_
    rw [Value.any_isHole_rename, Value.joinAll_rename]
    split
    · exact follows_throw _ _
    · exact follows_push (.text _)

theorem follows_jumpTo (target : Int64) : Follows T id (jumpTo target) (jumpTo (T.ρ.entry target)) :=
  fun _ => ⟨rfl, rfl⟩

theorem follows_native (host : Host) (b : Builtin) (args : Args) :
    Follows T (Value.rename T.ρ) (native host b args) (native host b (args.rename T.ρ)) := by
  rw [native, native, Builtin.call_rename]
  cases h : b.call host args with
  | error e => cases e <;> exact follows_throw _ _
  | ok r =>
    obtain ⟨v, written⟩ := r
    have hwrite : Follows T id (modify fun s => { s with output := s.output ++ written })
        (modify fun s => { s with output := s.output ++ written }) := fun _ => ⟨rfl, rfl⟩
    exact hwrite.bind fun _ =>
      follows_pure _ (Value.rename_of_plain T.ρ (Builtin.isPlain_call h)).symm

/-! ## Variables -/

variable {c : Scene}

theorem carries_load {name : Text} (h : T.Finds c name) :
    Carries T c (Value.rename T.ρ) (load name) (load name) := by
  refine carries_get fun s hs => .inl ?_
  subst hs
  have hget : (T.state s).store.get? (T.state s).env name = (s.store.get? s.env name).map (Value.rename T.ρ) := h
  rw [hget]
  cases s.store.get? s.env name <;> rfl

theorem carries_store (hc : T.Good c) (name : Text) (v : Value) :
    Carries T c id (modify fun s => { s with store := s.store.set s.env name v })
      (modify fun s => { s with store := s.store.set s.env name (v.rename T.ρ) }) := by
  intro s hs
  subst hs
  have hkeep : T.keep (s.store.set s.env name v) = (T.keep s.store).set (T.ρ.env s.env) name v := T.set hc name v
  have hset : (T.state s).store.set (T.state s).env name (v.rename T.ρ) = T.store (s.store.set s.env name v) := by
    rw [Translation.store, hkeep]
    exact Store.set_rename T.ρ _ _ name v
  show EStateM.Result.ok () { T.state s with store := (T.state s).store.set (T.state s).env name (v.rename T.ρ) } =
    .ok () (T.state { s with store := s.store.set s.env name v }) ∨ _
  rw [hset]
  exact .inl rfl

/-! ## Calls -/

theorem carries_enter (hc : T.Good c) (f : Closure) (args : Args) :
    Carries T c id (enter f args) (enter (f.rename T.ρ) (args.rename T.ρ)) := by
  refine carries_get fun s hs => .inl ?_
  subst hs
  have hframes : (T.state s).frames.length = s.frames.length := List.length_map _
  rw [hframes]
  split
  · rfl
  · rw [Closure.bind_rename]
    cases f.bind args with
    | error e => rfl
    | ok vars =>
      have hnew : T.ρ.env s.store.size = (T.state s).store.size :=
        (T.size hc).trans Array.size_map.symm
      have hkeep : T.keep (s.store.push ⟨vars, some f.env⟩) = (T.keep s.store).push ⟨vars, some f.env⟩ :=
        T.push hc _
      have hpush : (T.state s).store.push ⟨Value.renameVars T.ρ vars, some (T.ρ.env f.env)⟩ =
          T.store (s.store.push ⟨vars, some f.env⟩) := by
        rw [Translation.store, hkeep]
        exact Store.push_rename T.ρ (T.keep s.store) ⟨vars, some f.env⟩
      have hheight : (T.state s).stack.height = s.stack.height := Stack.height_rename T.ρ s.stack
      show EStateM.Result.ok () { T.state s with
          ip := T.ρ.entry f.entry, env := (T.state s).store.size
          store := (T.state s).store.push ⟨Value.renameVars T.ρ vars, some (T.ρ.env f.env)⟩
          frames := ⟨T.ρ.entry s.ip, (T.state s).stack.height, T.ρ.env s.env⟩ :: (T.state s).frames } = _
      rw [hpush, ← hnew, hheight]
      rfl

theorem carries_call (hc : T.Good c) (host : Host) (callee : Value) (args : Args) :
    Carries T c id (call host callee args) (call host (callee.rename T.ρ) (args.rename T.ρ)) := by
  refine (follows_present callee).before fun v => ?_
  cases v with
  | closure f => exact carries_enter hc f args
  | builtin b => exact ((follows_native host b args).bind fun v => follows_push v).carries
  | text t =>
    refine carries_get fun s hs => ?_
    by_cases hsees : T.Sees c
    · subst hs
      have hnames : (T.state s).store.names (T.state s).env = s.store.names s.env := hsees
      rw [hnames]
      exact .inl rfl
    · exact .inr ⟨hsees, _, s, rfl, rfl⟩
  | null | bool _ | number _ | regex _ _ | record _ | hole => exact (follows_throw _ _).carries

theorem carries_callTop (hc : T.Good c) (host : Host) : Carries T c id (callTop host) (callTop host) := by
  refine follows_popCount.before fun n => follows_popCount.before fun p => ?_
  dsimp only [id]
  split
  · exact (follows_throw _ _).carries
  · refine (follows_popNamed n.toNat []).before fun ns => (follows_popInto p.toNat []).before fun ps => ?_
    exact follows_pop.before fun f => carries_call hc host f ⟨ps, ns⟩

theorem carries_bare (hc : T.Good c) (host : Host) {name : Text} (h : T.Finds c name) :
    Carries T c id (bare host name) (bare host name) := by
  refine carries_get fun s hs => ?_
  have hget : (T.state s).store.get? (T.state s).env name = (s.store.get? s.env name).map (Value.rename T.ρ) := by
    subst hs
    exact h
  rw [hget]
  cases s.store.get? s.env name with
  | none => exact (follows_push (.text name)).carries s hs
  | some v =>
    cases v with
    | closure f => exact carries_call hc host (.closure f) {} s hs
    | builtin b => exact carries_call hc host (.builtin b) {} s hs
    | null => exact (follows_push .null).carries s hs
    | bool b => exact (follows_push (.bool b)).carries s hs
    | number x => exact (follows_push (.number x)).carries s hs
    | text t => exact (follows_push (.text t)).carries s hs
    | regex p f => exact (follows_push (.regex p f)).carries s hs
    | record fields => exact (follows_push (.record fields)).carries s hs
    | hole => exact (follows_push .hole).carries s hs

theorem carries_leave : Carries T c id leave leave := by
  refine follows_pop.before fun v => carries_get fun s _ => .inl ?_
  cases hf : s.frames with
  | nil =>
    have h : (T.state s).frames = [] := congrArg (List.map (Frame.rename T.ρ)) hf
    rw [h]
    rfl
  | cons f frames =>
    have h : (T.state s).frames = f.rename T.ρ :: frames.map (Frame.rename T.ρ) :=
      congrArg (List.map (Frame.rename T.ρ)) hf
    have hstack : (T.state s).stack.resize f.height = (s.stack.resize f.height).rename T.ρ :=
      Stack.resize_rename T.ρ f.height s.stack
    have hpush := @follows_push T v
      { s with ip := f.returnTo, stack := s.stack.resize f.height, env := f.env, frames }
    rw [h]
    dsimp only [Frame.rename]
    rw [hstack]
    exact hpush.1

/-! ## Instructions -/

/-- Whether an operation looks at the target of its instruction. -/
def usesTarget : Opcode → Bool
  | .jump | .jumpIfFalse | .jumpIfTrue | .makeFunction => true
  | _ => false

/-- The instructions do the same, except that the second one leads to the renamed address. -/
structure Matches (ρ : Renaming) (i i' : Instruction) : Prop where
  op : i'.op = i.op
  name : i'.name = i.name
  params : i'.params = i.params
  count : i'.count = i.count
  target : usesTarget i.op = true → i'.target = ρ.entry i.target

theorem follows_makeFunction {i i' : Instruction} (h : Matches T.ρ i i')
    (htarget : i'.target = T.ρ.entry i.target) : Follows T id (makeFunction i) (makeFunction i') := by
  refine follows_get fun s => ?_
  rw [h.params, htarget]
  exact follows_push (.closure ⟨s.made, i.params, i.target, s.env⟩) { s with made := s.made + 1 }

theorem follows_jumpIf (target : Int64) {p : Value → Bool} (hp : ∀ v : Value, p (v.rename T.ρ) = p v) :
    Follows T id
      (pop >>= fun u => present u >>= fun v =>
        if p v then jumpTo target >>= fun _ => pure false else pure false)
      (pop >>= fun u => present u >>= fun v =>
        if p v then jumpTo (T.ρ.entry target) >>= fun _ => pure false else pure false) := by
  refine follows_pop.bind fun u => (follows_present u).bind fun v => ?_
  rw [hp v]
  split
  · exact (follows_jumpTo target).bind fun _ => follows_pure id rfl
  · exact follows_pure id rfl

/-- Matching instructions do the same up to the translation, wherever they stand, if they push the same value
and look up names that are found. -/
theorem execute_carries {code code' : Code} {index index' : Nat} {i i' : Instruction} (host : Host)
    (hc : T.Good c) (h : Matches T.ρ i i')
    (hconst : i.op = .push →
      code'.constants.getD index' .hole = (code.constants.getD index .hole).rename T.ρ)
    (hfinds : i.op = .tryLoad ∨ i.op = .tryCall → T.Finds c i.name) :
    Carries T c id (execute code host index i) (execute code' host index' i') := by
  have hop := h.op
  have htarget := h.target
  have hgoes {x y : Exec PUnit} (hxy : Follows T id x y) :
      Follows T id (x >>= fun _ => pure false) (y >>= fun _ => pure false) :=
    hxy.bind fun _ => follows_pure id rfl
  have hbinary {f : Value → Value → Exec Value} (hf : operation i.op = some f) :
      Follows T id (pop >>= fun b => pop >>= fun a => f a b >>= fun v => push v >>= fun _ => pure false)
        (pop >>= fun b => pop >>= fun a => f a b >>= fun v => push v >>= fun _ => pure false) :=
    follows_pop.bind fun b => follows_pop.bind fun a => (follows_operation hf a b).bind fun v =>
      hgoes (follows_push v)
  unfold execute
  rw [hop, h.name, h.count]
  cases hi : i.op with
  | halt => exact (follows_pure id rfl).carries
  | push =>
    dsimp only
    rw [hconst hi]
    exact (hgoes (follows_push _)).carries
  | tryLoad => exact (carries_load (hfinds (.inl hi))).after fun v => hgoes (follows_push v)
  | tryCall => exact (carries_bare hc host (hfinds (.inr hi))).after fun _ => follows_pure id rfl
  | store => exact follows_top.before fun v => (carries_store hc i.name v).after fun _ => follows_pure id rfl
  | dotGet =>
    exact (follows_pop.bind fun v => (follows_fieldOf i.name v).bind fun w => hgoes (follows_push w)).carries
  | add | sub | mul | div | lt | gt | lte | gte =>
    rw [hi] at hbinary
    exact (hbinary rfl).carries
  | eq | neq =>
    exact (follows_pop.bind fun b => follows_pop.bind fun a => (follows_equal a b).bind fun t =>
      hgoes (follows_push (.bool _))).carries
  | dup => exact (follows_top.bind fun v => hgoes (follows_push v)).carries
  | pop => exact follows_pop.before fun _ => (follows_pure id rfl).carries
  | strConcat => exact (hgoes (follows_concat i.count)).carries
  | jump =>
    rw [hi] at htarget
    dsimp only
    rw [htarget rfl]
    exact (hgoes (follows_jumpTo i.target)).carries
  | jumpIfFalse =>
    rw [hi] at htarget
    dsimp only
    rw [htarget rfl]
    exact (follows_jumpIf (p := fun v => !v.isTruthy) i.target fun v => congrArg not (v.isTruthy_rename T.ρ)).carries
  | jumpIfTrue =>
    rw [hi] at htarget
    dsimp only
    rw [htarget rfl]
    exact (follows_jumpIf i.target (Value.isTruthy_rename T.ρ)).carries
  | makeFunction =>
    rw [hi] at htarget
    exact (hgoes (follows_makeFunction h (htarget rfl))).carries
  | call => exact (carries_callTop hc host).after fun _ => follows_pure id rfl
  | «return» => exact carries_leave.after fun _ => follows_pure id rfl
  | label | undefined code => exact (hgoes (follows_throw _ _)).carries

/-! ## Other addresses only -/

/-- A translation that leaves all environments as they are. -/
def Translation.relinking (entry : Int64 → Int64) : Translation where
  ρ := { entry }
  set _ _ _ := rfl
  push _ _ := rfl
  size _ := rfl

/-- Where only addresses differ, every name is found and suggested as before. -/
theorem execute_relinked {entry : Int64 → Int64} {code code' : Code} {index index' : Nat} {i i' : Instruction}
    (host : Host) (h : Matches { entry } i i')
    (hconst : i.op = .push →
      code'.constants.getD index' .hole = (code.constants.getD index .hole).rename { entry }) (s : State) :
    execute code' host index' i' (s.rename { entry }) =
      mapResult (State.rename { entry }) id (execute code host index i s) := by
  let T := Translation.relinking entry
  have hmirrors : Store.Mirrors T.ρ s.store (T.store s.store) := Store.mirrors_rename _ (fun _ => rfl) s.store
  have hfinds : T.Finds s.scene i.name := hmirrors.get? s.env i.name
  have hsees : T.Sees s.scene := hmirrors.names s.env
  have hcarries := execute_carries (T := T) host trivial h hconst (fun _ => hfinds) s rfl
  exact hcarries.resolve_right fun hmisleads => hmisleads.1 hsees

end
end Machine
end Bareword
