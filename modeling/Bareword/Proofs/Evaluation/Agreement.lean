import Bareword.Proofs.Evaluation.Basic
import Bareword.Proofs.Program.Image
import Bareword.Proofs.Value.Renaming

/-! # Machine states that agree with evaluation

A machine keeps the value that goes through a pipe in a temporary variable, which evaluation does not
have, and its functions carry the index of their bodies. Apart from that its environments are those
of evaluation.

* `Ground`: a linked program with what the tree that it comes from is evaluated with.
* `Known`: a function of the machine has the code of the body that evaluation keeps.
* `Agrees`: the environments, the functions and the output are the same.
* `Moves`: some steps that leave the frames and the older temporary variables as they were.
-/

namespace Bareword.Evaluation
set_option autoImplicit false
open Bareword.Tree (Node)
open Machine (View Goes Refuses Trouble)

/-- A linked program with what the tree that it comes from is evaluated with. -/
structure Ground where
  image : Image
  setting : Setting
  /-- The names of the variables that only the machine has. -/
  hidden : Text → Bool
  capacity : setting.capacity = Stack.limit
  temporary : ∀ name, hidden name = true → Program.isTemporary name = true
  stores : ∀ n i, image.code.Holds n i → i.op = .store → Program.isTemporary i.name = true →
    hidden i.name = true

variable {G : Ground}

/-! ## Variables -/

namespace Ground

/-- The variables that evaluation has too. -/
def visible (G : Ground) (vars : Closure.Vars) : Closure.Vars :=
  vars.filter fun x => !G.hidden x.1

theorem lookup_visible {name : Text} (h : G.hidden name = false) (vars : Closure.Vars) :
    (G.visible vars).lookup name = vars.lookup name := by
  induction vars with
  | nil => rfl
  | cons x vars ih =>
    rw [visible, List.filter_cons]
    cases hx : G.hidden x.1 with
    | true =>
      have hne : (name == x.1) = false := by
        refine beq_false_of_ne fun heq => ?_
        rw [heq, hx] at h
        cases h
      rw [List.lookup_cons, hne]
      exact ih
    | false =>
      simp only [Bool.not_false, if_true]
      rw [List.lookup_cons, List.lookup_cons]
      cases name == x.1 with
      | true => rfl
      | false => exact ih

theorem visible_erase (vars : Closure.Vars) :
    G.visible (Value.eraseVars vars) = Value.eraseVars (G.visible vars) := by
  simp only [visible, Value.eraseVars, Value.renameVars, List.filter_map]
  rfl

theorem visible_assign {name : Text} (h : G.hidden name = false) (v : Value) (vars : Closure.Vars) :
    G.visible (Store.assign name v vars) = Store.assign name v (G.visible vars) := by
  induction vars with
  | nil => simp [visible, Store.assign, h]
  | cons x vars ih =>
    obtain ⟨n, u⟩ := x
    by_cases hn : n = name
    · subst hn
      simp [visible, Store.assign, h]
    · cases hx : G.hidden n with
      | true =>
        rw [Store.assign, if_neg hn, visible, visible, List.filter_cons_of_neg (by simp [hx]),
          List.filter_cons_of_neg (by simp [hx])]
        exact ih
      | false =>
        rw [Store.assign, if_neg hn, visible, visible, List.filter_cons_of_pos (by simp [hx]),
          List.filter_cons_of_pos (by simp [hx]), Store.assign, if_neg hn]
        exact congrArg _ ih

theorem visible_assign_hidden {name : Text} (h : G.hidden name = true) (v : Value)
    (vars : Closure.Vars) : G.visible (Store.assign name v vars) = G.visible vars := by
  induction vars with
  | nil => simp [visible, Store.assign, h]
  | cons x vars ih =>
    obtain ⟨n, u⟩ := x
    rw [Store.assign]
    split
    · rename_i hn
      subst hn
      simp [visible, h]
    · rw [visible, visible, List.filter_cons, List.filter_cons]
      split
      · exact congrArg _ ih
      · exact ih

theorem names_visible (vars : Closure.Vars) :
    ((G.visible vars).map (·.1)).filter (fun n => !Program.isTemporary n) =
      (vars.map (·.1)).filter fun n => !Program.isTemporary n := by
  induction vars with
  | nil => rfl
  | cons x vars ih =>
    rw [visible, List.filter_cons, List.map_cons, List.filter_cons]
    cases hx : G.hidden x.1 with
    | true =>
      rw [G.temporary _ hx]
      exact ih
    | false =>
      simp only [Bool.not_false, if_true, List.map_cons, List.filter_cons]
      split
      · exact congrArg _ ih
      · exact ih

end Ground

theorem lookup_assign_self (name : Text) (v : Value) (vars : Closure.Vars) :
    (Store.assign name v vars).lookup name = some v := by
  induction vars with
  | nil => simp [Store.assign]
  | cons x vars ih =>
    obtain ⟨n, u⟩ := x
    rw [Store.assign]
    split
    · simp
    · rename_i hn
      rw [List.lookup_cons, beq_false_of_ne (Ne.symm hn)]
      exact ih

theorem lookup_assign_ne {name other : Text} (h : other ≠ name) (v : Value) (vars : Closure.Vars) :
    (Store.assign name v vars).lookup other = vars.lookup other := by
  induction vars with
  | nil => simp [Store.assign, h]
  | cons x vars ih =>
    obtain ⟨n, u⟩ := x
    rw [Store.assign]
    split
    · rename_i hn
      subst hn
      rw [List.lookup_cons, List.lookup_cons, beq_false_of_ne h]
    · rw [List.lookup_cons, List.lookup_cons]
      split
      · rfl
      · exact ih

/-! ## Environments -/

/-- No name in the tree is that of a variable which only the machine has. -/
def Ground.Clear (G : Ground) (n : Node) : Prop :=
  ∀ m ∈ n.preorder, m.kind = .identifier ∨ m.kind = .assignable → G.hidden m.text = false

/-- The code of a function body, with the return at its end. -/
def bodyCode (span : Span) (body : List Expr) : Gen :=
  Expr.genStatements span body ++ .instr { op := .return, span }

/-- Where the function leads to stands the code of the body that evaluation has for it. -/
def Known (G : Ground) (functions : List Lambda) (c : Closure) : Prop :=
  ∃ f fuel es numbers entry, functions[c.id]? = some f ∧ (∀ n ∈ f.body, G.Clear n) ∧
    f.body.mapM (OfTree.ofNodeWithin fuel) = .ok es ∧ c.entry = Int64.ofNat entry ∧
    G.image.Placed (bodyCode f.span es) numbers entry

theorem Known.mono {functions functions' : List Lambda} {c : Closure}
    (h : functions <+: functions') (hk : Known G functions c) : Known G functions' c := by
  obtain ⟨f, fuel, es, numbers, entry, hf, hrest⟩ := hk
  obtain ⟨more, rfl⟩ := h
  refine ⟨f, fuel, es, numbers, entry, ?_, hrest⟩
  have hlt : c.id < functions.length := (List.getElem?_eq_some_iff.mp hf).1
  rw [List.getElem?_append_left hlt]
  exact hf

/-- The value has only functions that are known, and no holes. -/
abbrev Good (G : Ground) (functions : List Lambda) (v : Value) : Prop :=
  v.Fine (Value.onClosures (Known G functions))

theorem Good.mono {functions functions' : List Lambda} {v : Value}
    (h : functions <+: functions') (hv : Good G functions v) : Good G functions' v :=
  Value.Fine.mono (Value.onClosures.mono fun _ => Known.mono h) v hv

/-- An environment of the machine and one of evaluation that hold the same variables. -/
structure EnvAgrees (G : Ground) (functions : List Lambda) (a b : Env) : Prop where
  parent : a.parent = b.parent
  vars : G.visible b.vars = Value.eraseVars (G.visible a.vars)
  good : Value.FineVars (Value.onClosures (Known G functions)) a.vars

theorem EnvAgrees.lookup {functions : List Lambda} {a b : Env} (h : EnvAgrees G functions a b)
    {name : Text} (hn : G.hidden name = false) :
    b.vars.lookup name = (a.vars.lookup name).map Value.erase := by
  rw [← G.lookup_visible hn, h.vars, Value.lookup_renameVars, G.lookup_visible hn]

theorem EnvAgrees.mono {functions functions' : List Lambda} {a b : Env}
    (h : functions <+: functions') (ha : EnvAgrees G functions a b) : EnvAgrees G functions' a b :=
  ⟨ha.parent, ha.vars, ha.good.mono (Value.onClosures.mono fun _ => Known.mono h)⟩

structure StoreAgrees (G : Ground) (functions : List Lambda) (a b : Store) : Prop where
  size : a.size = b.size
  env : ∀ (j : Nat) (x y : Env), a[j]? = some x → b[j]? = some y → EnvAgrees G functions x y

namespace StoreAgrees
variable {functions : List Lambda} {a b : Store}

theorem get_none (h : StoreAgrees G functions a b) {j : Nat} (hj : a[j]? = none) : b[j]? = none := by
  rw [Array.getElem?_eq_none_iff] at hj ⊢
  exact h.size ▸ hj

theorem get_some (h : StoreAgrees G functions a b) {j : Nat} {x : Env} (hj : a[j]? = some x) :
    ∃ y, b[j]? = some y ∧ EnvAgrees G functions x y := by
  have hlt : j < b.size := h.size ▸ (Array.getElem?_eq_some_iff.mp hj).1
  exact ⟨b[j], Array.getElem?_eq_getElem hlt, h.env j x b[j] hj (Array.getElem?_eq_getElem hlt)⟩

theorem find? (h : StoreAgrees G functions a b) {name : Text} (hn : G.hidden name = false)
    (fuel e : Nat) : b.find? name fuel e = (a.find? name fuel e).map Value.erase := by
  induction fuel generalizing e with
  | zero => rfl
  | succ fuel ih =>
    rw [Store.find?, Store.find?]
    cases hx : a[e]? with
    | none =>
      rw [h.get_none hx]
      rfl
    | some x =>
      obtain ⟨y, hy, hxy⟩ := h.get_some hx
      rw [hy]
      dsimp only
      rw [hxy.lookup hn, ← hxy.parent]
      cases x.vars.lookup name with
      | some v => rfl
      | none =>
        cases x.parent with
        | none => rfl
        | some p =>
          by_cases hp : p < e
          · simp only [if_pos hp, Option.map_none]
            exact ih p
          · simp only [if_neg hp, Option.map_none]

theorem get? (h : StoreAgrees G functions a b) {name : Text} (hn : G.hidden name = false) (e : Nat) :
    b.get? e name = (a.get? e name).map Value.erase :=
  h.find? hn _ e

theorem good_find? (h : StoreAgrees G functions a b) {name : Text} {fuel e : Nat} {v : Value}
    (hv : a.find? name fuel e = some v) : Good G functions v := by
  have hstore : Value.FineStore _ a := fun e x hx => (h.get_some hx).choose_spec.2.good
  exact hstore.find? hv

theorem names (h : StoreAgrees G functions a b) (e : Nat) : b.names e = a.names e := by
  have hfrom : ∀ fuel e, (b.namesFrom fuel e).filter (fun n => !Program.isTemporary n) =
      (a.namesFrom fuel e).filter fun n => !Program.isTemporary n := by
    intro fuel
    induction fuel with
    | zero => exact fun _ => rfl
    | succ fuel ih =>
      intro e
      rw [Store.namesFrom, Store.namesFrom]
      cases hx : a[e]? with
      | none => rw [h.get_none hx]
      | some x =>
        obtain ⟨y, hy, hxy⟩ := h.get_some hx
        rw [hy]
        dsimp only
        have hvars : (y.vars.map (·.1)).filter (fun n => !Program.isTemporary n) =
            (x.vars.map (·.1)).filter fun n => !Program.isTemporary n := by
          rw [← G.names_visible y.vars, hxy.vars, ← G.names_visible x.vars, Value.eraseVars, Value.renameVars,
            List.map_map]
          rfl
        rw [List.filter_append, List.filter_append, hvars, ← hxy.parent]
        cases x.parent with
        | none => rfl
        | some p =>
          dsimp only
          split
          · rw [ih p]
          · rfl
  exact hfrom _ e

theorem mono {functions' : List Lambda} (hf : functions <+: functions')
    (h : StoreAgrees G functions a b) : StoreAgrees G functions' a b :=
  ⟨h.size, fun j x y hx hy => (h.env j x y hx hy).mono hf⟩

/-- An assignment to a variable that both have. -/
theorem set (h : StoreAgrees G functions a b) {name : Text} (hn : G.hidden name = false) {v : Value}
    (hv : Good G functions v) (e : Nat) :
    StoreAgrees G functions (a.set e name v) (b.set e name v.erase) := by
  refine ⟨by simp [Store.set, h.size], fun j x y hx hy => ?_⟩
  rw [Store.set, Array.getElem?_modify] at hx hy
  split at hx
  · rename_i hj
    rw [if_pos hj] at hy
    obtain ⟨x, hx', rfl⟩ := Option.map_eq_some_iff.mp hx
    obtain ⟨y, hy', rfl⟩ := Option.map_eq_some_iff.mp hy
    have hxy := h.env j x y hx' hy'
    refine ⟨hxy.parent, ?_, hxy.good.assign hv⟩
    dsimp only
    rw [G.visible_assign hn, G.visible_assign hn, hxy.vars, Store.assign_rename]
  · rename_i hj
    rw [if_neg hj] at hy
    exact h.env j x y hx hy

/-- An assignment to a variable that only the machine has. -/
theorem set_hidden (h : StoreAgrees G functions a b) {name : Text} (hn : G.hidden name = true)
    {v : Value} (hv : Good G functions v) (e : Nat) : StoreAgrees G functions (a.set e name v) b := by
  refine ⟨by simp [Store.set, h.size], fun j x y hx hy => ?_⟩
  rw [Store.set, Array.getElem?_modify] at hx
  split at hx
  · obtain ⟨x, hx', rfl⟩ := Option.map_eq_some_iff.mp hx
    have hxy := h.env j x y hx' hy
    refine ⟨hxy.parent, ?_, hxy.good.assign hv⟩
    dsimp only
    rw [G.visible_assign_hidden hn, hxy.vars]
  · exact h.env j x y hx hy

theorem push (h : StoreAgrees G functions a b) {vars : Closure.Vars}
    (hv : Value.FineVars (Value.onClosures (Known G functions)) vars) (parent : Nat) :
    StoreAgrees G functions (a.push ⟨vars, some parent⟩)
      (b.push ⟨Value.eraseVars vars, some parent⟩) := by
  refine ⟨by simp [h.size], fun j x y hx hy => ?_⟩
  rw [Array.getElem?_push] at hx hy
  split at hx
  · rename_i hj
    rw [if_pos (h.size ▸ hj)] at hy
    cases hx
    cases hy
    exact ⟨rfl, G.visible_erase vars, hv⟩
  · rename_i hj
    rw [if_neg (h.size ▸ hj)] at hy
    exact h.env j x y hx hy

end StoreAgrees

/-! ## States -/

/-- The machine has the environments and the output of evaluation, and has made as many functions. -/
structure Agrees (G : Ground) (s : State) (v : View) : Prop where
  output : v.output = s.output
  made : v.made = s.functions.length
  store : StoreAgrees G s.functions v.store s.store

def local? (st : Store) (e : Nat) (name : Text) : Option Value := st[e]?.bind fun x => x.vars.lookup name

theorem get?_of_local {st : Store} {e : Nat} {name : Text} {v : Value}
    (h : local? st e name = some v) : st.get? e name = some v := by
  obtain ⟨x, hx, hv⟩ := Option.bind_eq_some_iff.mp h
  rw [Store.get?, Store.find?, hx]
  dsimp only
  rw [hv]

theorem local?_set_self {st : Store} {e : Nat} (h : e < st.size) (name : Text) (v : Value) :
    local? (st.set e name v) e name = some v := by
  rw [local?, Store.set, Array.getElem?_modify, if_pos rfl, Array.getElem?_eq_getElem h]
  exact lookup_assign_self name v _

theorem local?_set_ne {st : Store} {e j : Nat} {name other : Text} (h : j = e → other ≠ name)
    (v : Value) : local? (st.set e name v) j other = local? st j other := by
  rw [local?, local?, Store.set, Array.getElem?_modify]
  split
  · rename_i hj
    cases st[j]? with
    | none => rfl
    | some x => exact lookup_assign_ne (h hj.symm) v x.vars
  · rfl

theorem local?_push {st : Store} {j : Nat} (h : j < st.size) (x : Env) (name : Text) :
    local? (st.push x) j name = local? st j name := by
  rw [local?, local?, Array.getElem?_push, if_neg (by omega)]

/-- Some steps of the machine while evaluation goes from one state to another. Frames are as they
were, and so are the temporary variables of other environments and the first `keep` ones of the
current environment. -/
structure Moves (G : Ground) (keep : Nat) (v : View) (s : State) (v' : View) (s' : State) : Prop where
  goes : Goes G.image.code G.setting.host v v'
  frames : v'.frames = v.frames
  env : v'.env = v.env
  functions : s.functions <+: s'.functions
  size : v.store.size ≤ v'.store.size
  kept : ∀ j < v.store.size, ∀ n, (j = v.env → n ≤ keep) →
    local? v'.store j (Gen.temporary n) = local? v.store j (Gen.temporary n)

namespace Moves
variable {keep : Nat} {v v₁ v₂ : View} {s s₁ s₂ : State}

theorem refl (G : Ground) (keep : Nat) (v : View) (s : State) : Moves G keep v s v s :=
  ⟨.refl v, rfl, rfl, List.prefix_rfl, Nat.le_refl _, fun _ _ _ _ => rfl⟩

theorem trans (h₁ : Moves G keep v s v₁ s₁) (h₂ : Moves G keep v₁ s₁ v₂ s₂) :
    Moves G keep v s v₂ s₂ where
  goes := h₁.goes.trans h₂.goes
  frames := h₂.frames.trans h₁.frames
  env := h₂.env.trans h₁.env
  functions := h₁.functions.trans h₂.functions
  size := Nat.le_trans h₁.size h₂.size
  kept j hj n hn :=
    (h₂.kept j (Nat.lt_of_lt_of_le hj h₁.size) n fun he => hn (he.trans h₁.env)).trans
      (h₁.kept j hj n hn)

theorem weaken {keep' : Nat} (hk : keep' ≤ keep) (h : Moves G keep v s v₁ s₁) :
    Moves G keep' v s v₁ s₁ :=
  { h with kept := fun j hj n hn => h.kept j hj n fun he => Nat.le_trans (hn he) hk }

theorem step {v' : View} (h : Machine.Yields (Machine.step G.image.code G.setting.host) v false v')
    (hframes : v'.frames = v.frames) (henv : v'.env = v.env) (hstore : v'.store = v.store)
    (hf : s.functions <+: s₁.functions) : Moves G keep v s v' s₁ where
  goes := .single h
  frames := hframes
  env := henv
  functions := hf
  size := Nat.le_of_eq (by rw [hstore])
  kept := by
    intro j _ n _
    rw [hstore]

end Moves

/-- The machine stops in the trouble that evaluation stops in, once this has its place. -/
def Fails (G : Ground) (v : View) (e : Trouble) (s : State) : Prop :=
  ∃ v₁ v₂ trouble n i, Goes G.image.code G.setting.host v v₁ ∧
    Refuses (Machine.step G.image.code G.setting.host) v₁ trouble v₂ ∧
    v₂.ip = Int64.ofNat (n + 1) ∧ G.image.code.Holds n i ∧
    e = G.setting.located i.span trouble ∧ Agrees G s v₂

theorem Fails.after {v v₁ : View} {e : Trouble} {s : State}
    (h : Goes G.image.code G.setting.host v v₁) (hf : Fails G v₁ e s) : Fails G v e s := by
  obtain ⟨v₂, v₃, trouble, n, i, hgoes, hrest⟩ := hf
  exact ⟨v₂, v₃, trouble, n, i, h.trans hgoes, hrest⟩

/-- What the machine does from `v` on while evaluation comes to a result. -/
def Ends {β : Type} (G : Ground) (keep : Nat) (v : View) (s : State)
    (post : β → View → State → Prop) : EStateM.Result Trouble State β → Prop
  | .ok a s' => ∃ v', Moves G keep v s v' s' ∧ post a v' s'
  | .error e s' => Fails G v e s'

theorem Ends.bind {β γ : Type} {keep : Nat} {v : View} {s : State} {x : Eval β} {y : β → Eval γ}
    {post : β → View → State → Prop} {post' : γ → View → State → Prop}
    (hx : Ends G keep v s post (x s))
    (hy : ∀ a v₁ s₁, x s = .ok a s₁ → Moves G keep v s v₁ s₁ → post a v₁ s₁ →
      Ends G keep v₁ s₁ post' (y a s₁)) :
    Ends G keep v s post' ((x >>= y) s) := by
  show Ends G keep v s post' (EStateM.bind x y s)
  rw [EStateM.bind]
  cases hr : x s with
  | error e s₁ =>
    rw [hr] at hx
    exact hx
  | ok a s₁ =>
    rw [hr] at hx
    obtain ⟨v₁, hmoves, hpost⟩ := hx
    have h₂ := hy a v₁ s₁ hr hmoves hpost
    dsimp only
    cases hr₂ : y a s₁ with
    | error e s₂ =>
      rw [hr₂] at h₂
      exact Fails.after hmoves.goes h₂
    | ok b s₂ =>
      rw [hr₂] at h₂
      obtain ⟨v₂, hmoves₂, hpost₂⟩ := h₂
      exact ⟨v₂, hmoves.trans hmoves₂, hpost₂⟩

theorem Ends.weaken {β : Type} {keep keep' : Nat} (hk : keep' ≤ keep) {v : View} {s : State}
    {post : β → View → State → Prop} {r : EStateM.Result Trouble State β}
    (h : Ends G keep v s post r) : Ends G keep' v s post r := by
  cases r with
  | error e s' => exact h
  | ok a s' =>
    obtain ⟨v', hmoves, hpost⟩ := h
    exact ⟨v', hmoves.weaken hk, hpost⟩

theorem Ends.imp {β : Type} {keep : Nat} {v : View} {s : State}
    {post post' : β → View → State → Prop} {r : EStateM.Result Trouble State β}
    (h : Ends G keep v s post r)
    (hp : ∀ a v' s', Moves G keep v s v' s' → post a v' s' → post' a v' s') :
    Ends G keep v s post' r := by
  cases r with
  | error e s' => exact h
  | ok a s' =>
    obtain ⟨v', hmoves, hpost⟩ := h
    exact ⟨v', hmoves, hp a v' s' hmoves hpost⟩

theorem Ends.after {β : Type} {keep : Nat} {v v₁ : View} {s s₁ : State}
    {post : β → View → State → Prop} {r : EStateM.Result Trouble State β}
    (hm : Moves G keep v s v₁ s₁) (h : Ends G keep v₁ s₁ post r) : Ends G keep v s post r := by
  cases r with
  | error e s' => exact Fails.after hm.goes h
  | ok a s' =>
    obtain ⟨v', hmoves, hpost⟩ := h
    exact ⟨v', hm.trans hmoves, hpost⟩

/-- Further steps, during which evaluation stands still. -/
theorem Ends.andThen {β : Type} {keep : Nat} {v : View} {s : State}
    {post post' : β → View → State → Prop} {r : EStateM.Result Trouble State β}
    (h : Ends G keep v s post r)
    (hp : ∀ a v₁ s₁, Moves G keep v s v₁ s₁ → post a v₁ s₁ →
      ∃ v₂, Moves G keep v₁ s₁ v₂ s₁ ∧ post' a v₂ s₁) : Ends G keep v s post' r := by
  cases r with
  | error e s' => exact h
  | ok a s' =>
    obtain ⟨v₁, hmoves, hpost⟩ := h
    obtain ⟨v₂, hmoves₂, hpost₂⟩ := hp a v₁ s' hmoves hpost
    exact ⟨v₂, hmoves.trans hmoves₂, hpost₂⟩

end Bareword.Evaluation
