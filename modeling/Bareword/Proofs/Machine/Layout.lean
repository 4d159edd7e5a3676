import Bareword.Proofs.Machine.Trouble
import Mathlib.Data.List.Forall2

/-! # Layouts of the stack

What the stack holds above the base of the current call, at every instruction of some code. Code
that keeps to its layouts never takes more than it has put there.

* `Slot`: what is known of one entry of the stack.
* `Effect`, `Fits`: an instruction takes one layout to another, and leads only where its layout is
  expected.
* `Region`: the instructions of the main part or of one body, from the first to the last.
* `Plan`: layouts for all of some code.
* `Plan.Inv`: the invariant of runs, and `Plan.Inv.step`: what a step makes of it.
-/

namespace Bareword.Machine
set_option autoImplicit false

/-! ## Slots -/

/-- What is known of one entry of the stack. -/
inductive Slot where
  | any
  /-- The name of an argument. -/
  | name
  /-- A number of arguments. -/
  | count (n : Nat)
  deriving DecidableEq

/-- A constant can be put into a slot. -/
def Slot.Takes : Slot → Value → Prop
  | .any, v => v.isPlain = true
  | .name, v => ∃ t, v = .text t
  | .count n, v => v = .number (Binary.ofInt n)

/-- The slots of named arguments, from the top down. -/
def namedSlots : Nat → List Slot
  | 0 => []
  | n + 1 => .any :: .name :: namedSlots n

/-- The slots of a call, from the top down. -/
def callSlots (positional named : Nat) : List Slot :=
  .count named :: .count positional ::
    (namedSlots named ++ (List.replicate positional .any ++ [.any]))

/-! ## Code -/

/-- What an operation does to the layout if it leads to the next instruction and pushes neither a
constant nor a function. -/
inductive Effect (op : Opcode) (count : Int64) : List Slot → List Slot → Prop where
  | load {σ : List Slot} (hop : op = .tryLoad ∨ op = .tryCall) : Effect op count σ (.any :: σ)
  | keep {σ : List Slot} (hop : op = .store ∨ op = .dotGet) :
      Effect op count (.any :: σ) (.any :: σ)
  | binary {f : Value → Value → Exec Value} {σ : List Slot} (hop : operation op = some f) :
      Effect op count (.any :: .any :: σ) (.any :: σ)
  | dup {σ : List Slot} (hop : op = .dup) : Effect op count (.any :: σ) (.any :: .any :: σ)
  | pop {σ : List Slot} (hop : op = .pop) : Effect op count (.any :: σ) σ
  | concat {n : Nat} {σ : List Slot} (hop : op = .strConcat) (hn : count = Int64.ofNat n) :
      Effect op count (List.replicate n .any ++ σ) (.any :: σ)
  | call {positional named : Nat} {σ : List Slot} (hop : op = .call) :
      Effect op count (callSlots positional named ++ σ) (.any :: σ)

/-- The instruction at index `k` takes the first layout to the second. Functions that it makes start
at an `entry`, and `leads t σ` says that the layout at `t` is `σ`. -/
inductive Fits (code : Code) (entry : Nat → Prop) (leads : Nat → List Slot → Prop) (k : Nat)
    (i : Instruction) : List Slot → List Slot → Prop where
  | push {v : Value} {s : Slot} {σ : List Slot} (hop : i.op = .push)
      (hv : code.constants[k]? = some v) (hs : s.Takes v) : Fits code entry leads k i σ (s :: σ)
  | make {e : Nat} {σ : List Slot} (hop : i.op = .makeFunction) (ht : i.target = Int64.ofNat e)
      (he : entry e) : Fits code entry leads k i σ (.any :: σ)
  | plain {σ σ' : List Slot} (h : Effect i.op i.count σ σ') : Fits code entry leads k i σ σ'
  | jump {t : Nat} {σ σ' : List Slot} (hop : i.op = .jump) (ht : i.target = Int64.ofNat t)
      (hl : leads t σ) : Fits code entry leads k i σ σ'
  | jumpIf {t : Nat} {σ : List Slot} (stopOn : Bool)
      (hop : i.op = if stopOn then .jumpIfTrue else .jumpIfFalse) (ht : i.target = Int64.ofNat t)
      (hl : leads t σ) : Fits code entry leads k i (.any :: σ) σ

theorem Fits.imp {code : Code} {entry : Nat → Prop} {leads leads' : Nat → List Slot → Prop} {k : Nat}
    {i : Instruction} {σ σ' : List Slot} (h : Fits code entry leads k i σ σ')
    (hl : ∀ t ρ, leads t ρ → leads' t ρ) : Fits code entry leads' k i σ σ' := by
  cases h with
  | push hop hv hs => exact .push hop hv hs
  | make hop ht he => exact .make hop ht he
  | plain h => exact .plain h
  | jump hop ht h => exact .jump hop ht (hl _ _ h)
  | jumpIf stopOn hop ht h => exact .jumpIf stopOn hop ht (hl _ _ h)

theorem Effect.inner {op : Opcode} {count : Int64} {σ τ : List Slot} (h : Effect op count σ τ) :
    ¬ (op = .halt ∨ op = .return) := by
  cases h with
  | load hop => rcases hop with rfl | rfl <;> decide
  | keep hop => rcases hop with rfl | rfl <;> decide
  | binary hop => rintro (rfl | rfl) <;> cases hop
  | dup hop => subst hop; decide
  | pop hop => subst hop; decide
  | concat hop hn => subst hop; decide
  | call hop => subst hop; decide

theorem Fits.inner {code : Code} {entry : Nat → Prop} {leads : Nat → List Slot → Prop} {k : Nat}
    {i : Instruction} {σ τ : List Slot} (h : Fits code entry leads k i σ τ) :
    ¬ (i.op = .halt ∨ i.op = .return) := by
  cases h with
  | push hop hv hs => rw [hop]; decide
  | make hop ht he => rw [hop]; decide
  | plain h => exact h.inner
  | jump hop ht hl => rw [hop]; decide
  | jumpIf stopOn hop ht hl => rw [hop]; cases stopOn <;> decide

theorem Fits.entry {code : Code} {entry : Nat → Prop} {leads : Nat → List Slot → Prop} {k : Nat}
    {i : Instruction} {σ τ : List Slot} (h : Fits code entry leads k i σ τ) (hop : i.op = .makeFunction) :
    ∃ e, i.target = Int64.ofNat e ∧ entry e := by
  cases h with
  | make _ ht he => exact ⟨_, ht, he⟩
  | push hop' _ _ => cases hop.symm.trans hop'
  | jump hop' _ _ => cases hop.symm.trans hop'
  | jumpIf stopOn hop' _ _ => cases stopOn <;> cases hop.symm.trans hop'
  | plain heffect =>
    rw [hop] at heffect
    cases heffect with
    | load h | keep h => rcases h with h | h <;> cases h
    | binary h | dup h | pop h | concat h _ | call h => cases h

/-- The instructions of the main part or of a body. The last one ends it, and it finds exactly one
value. -/
structure Region (code : Code) (entry : Nat → Prop) (layout : Nat → List Slot) (first last : Nat)
    (isBody : Bool) : Prop where
  starts : layout first = []
  ends : layout last = [.any]
  inner : ∀ k, first ≤ k → k < last → ∃ i, code.Holds k i ∧
    Fits code entry (fun t σ => first ≤ t ∧ t ≤ last ∧ layout t = σ) k i (layout k) (layout (k + 1))
  final : ∃ i, code.Holds last i ∧ i.op = if isBody then .return else .halt

/-- Only the layouts of its instructions make a region. -/
theorem Region.congr {code : Code} {entry : Nat → Prop} {layout layout' : Nat → List Slot} {first last : Nat} {isBody : Bool}
    (h : Region code entry layout first last isBody)
    (heq : ∀ k, first ≤ k → k ≤ last → layout' k = layout k) (hle : first ≤ last) :
    Region code entry layout' first last isBody := by
  refine ⟨?_, ?_, fun k hlow hhigh => ?_, h.final⟩
  · rw [heq first (Nat.le_refl _) hle, h.starts]
  · rw [heq last hle (Nat.le_refl _), h.ends]
  · obtain ⟨i, hi, hfits⟩ := h.inner k hlow hhigh
    refine ⟨i, hi, ?_⟩
    rw [heq k hlow (Nat.le_of_lt hhigh), heq (k + 1) (Nat.le_succ_of_le hlow) hhigh]
    refine hfits.imp fun t ρ ⟨hfirst, hlast, ht⟩ => ⟨hfirst, hlast, ?_⟩
    rw [heq t hfirst hlast, ht]

/-- The next instruction calls the value. -/
def Calls (code : Code) (c : View) (v : Value) : Prop :=
  ∃ k i, c.ip = Int64.ofNat k ∧ code.Holds k i ∧
    (i.op = .tryCall ∧ c.store.get? c.env i.name = some v ∨
      i.op = .call ∧ ∃ ps ns rest, c.live = (callEntries v ps ns).reverse ++ rest)

/-- Layouts for all of some code. -/
structure Plan where
  code : Code
  entry : Nat → Prop
  layout : Nat → List Slot
  /-- Every function starts with the body at its entry. -/
  bodies : ∀ e, entry e → ∃ last, e ≤ last ∧ Region code entry layout e last true
  /-- Every instruction lies in the main part or in a body. -/
  covers : ∀ k i, code.Holds k i → ∃ first last isBody, first ≤ k ∧ k ≤ last ∧
    Region code entry layout first last isBody
  /-- Whether there may be builtins from outside. -/
  hasForeign : Prop

namespace Plan
variable (S : Plan)

/-- A region of the code with an index in it. -/
def Within (isBody : Bool) (k first last : Nat) : Prop :=
  first ≤ k ∧ k ≤ last ∧ Region S.code S.entry S.layout first last isBody

/-- Builtins come from outside only if some do. -/
def Known : Value → Prop := Knows S.hasForeign

/-- A value is what is known of its slot. -/
def Holds : Slot → Value → Prop
  | .any, v => v.Fine S.Known
  | .name, v => ∃ t, v = .text t
  | .count n, v => v = .number (Binary.ofInt n)

/-- What lies below the base of the current call: every call that has not returned goes on where its
result is expected on top of what it left there. -/
inductive Waiting : List Frame → List Value → Prop where
  | nil : Waiting [] []
  | cons {f : Frame} {frames : List Frame} {k first last : Nat} {σ : List Slot}
      {values rest : List Value} (hin : S.Within (!frames.isEmpty) k first last)
      (hret : f.returnTo = Int64.ofNat k) (hlayout : S.layout k = .any :: σ)
      (hvalues : List.Forall₂ S.Holds σ values) (hheight : f.height = (values ++ rest).length)
      (hrest : Waiting frames rest) : Waiting (f :: frames) (values ++ rest)

/-- The stack is laid out as planned for the next instruction, and as every call that has not
returned expects it. -/
structure Inv (c : View) (k first last : Nat) (top rest : List Value) : Prop where
  within : S.Within (!c.frames.isEmpty) k first last
  ip : c.ip = Int64.ofNat k
  live : c.live = top ++ rest
  values : List.Forall₂ S.Holds (S.layout k) top
  waiting : S.Waiting c.frames rest
  height : c.live.length ≤ Stack.limit
  store : Value.FineStore S.Known c.store

/-- The stack is laid out as planned. -/
def Laid (c : View) : Prop := ∃ k first last top rest, S.Inv c k first last top rest

/-- The next instruction expects one more value on top of the stack. -/
structure Expects (c : View) (k first last : Nat) (σ : List Slot) (values rest : List Value) :
    Prop where
  within : S.Within (!c.frames.isEmpty) k first last
  ip : c.ip = Int64.ofNat k
  layout : S.layout k = .any :: σ
  live : c.live = values ++ rest
  values : List.Forall₂ S.Holds σ values
  waiting : S.Waiting c.frames rest
  height : c.live.length ≤ Stack.limit
  store : Value.FineStore S.Known c.store

/-- The stack is laid out as planned but for one value on top of it. -/
def Awaits (c : View) : Prop := ∃ k first last σ values rest, S.Expects c k first last σ values rest

/-- Some builtins come from outside, and the value is one of them. -/
def Foreign (v : Value) : Prop := S.hasForeign ∧ ∃ b : Builtin, v = .builtin b ∧ b.native = none

/-- The next instruction calls a builtin from outside. -/
def CallsOut (c : View) : Prop := ∃ v, Calls S.code c v ∧ S.Foreign v

/-- The value is a function without a body in the code. -/
def Strange (v : Value) : Prop := ∃ f : Closure, v = .closure f ∧ ¬ ∃ e, f.entry = Int64.ofNat e ∧ S.entry e

/-- The next instruction calls a function without a body in the code. -/
def CallsStrange (c : View) : Prop := ∃ v, Calls S.code c v ∧ S.Strange v

/-- The action leaves the stack laid out as planned, or it meets trouble that the code is not to blame
for, and the variables are fine after it. It breaks down only if `F`, where one more value is
expected, and it leads astray only if `A`. -/
def Keeps (F A : Prop) (x : Exec Bool) (c : View) : Prop :=
  ∀ s : State, s.view = c →
    match x s with
    | .ok isDone s' => Value.FineStore S.Known s'.store ∧ (isDone = true ∨ S.Laid s'.view ∨ A)
    | .error e s' =>
      Value.FineStore S.Known s'.store ∧ (e.isInternal = false ∨ e = .breakdown ∧ F ∧ S.Awaits s'.view)

variable {S} {F F' A A' : Prop}

theorem Laid.store {c : View} : S.Laid c → Value.FineStore S.Known c.store
  | ⟨_, _, _, _, _, h⟩ => h.store

/-! ## Values -/

theorem holds_of_takes {s : Slot} {v : Value} (h : s.Takes v) : S.Holds s v := by
  cases s with
  | any => exact Value.fine_of_plain h
  | name => exact h
  | count n => exact h

/-- The values of two layouts on top of each other. -/
theorem split_values {σ ρ : List Slot} {values : List Value}
    (h : List.Forall₂ S.Holds (σ ++ ρ) values) :
    ∃ upper lower, values = upper ++ lower ∧ List.Forall₂ S.Holds σ upper ∧
      List.Forall₂ S.Holds ρ lower := by
  induction σ generalizing values with
  | nil => exact ⟨[], values, rfl, .nil, h⟩
  | cons s σ ih =>
    cases h with
    | cons hv hrest =>
      obtain ⟨upper, lower, rfl, hupper, hlower⟩ := ih hrest
      exact ⟨_ :: upper, lower, rfl, .cons hv hupper, hlower⟩

theorem fine_of_replicate {n : Nat} {values : List Value}
    (h : List.Forall₂ S.Holds (List.replicate n .any) values) :
    values.length = n ∧ ∀ v ∈ values, v.Fine S.Known := by
  induction n generalizing values with
  | zero =>
    cases h
    exact ⟨rfl, List.forall_mem_nil _⟩
  | succ n ih =>
    rw [List.replicate_succ] at h
    cases h with
    | cons hv hrest =>
      obtain ⟨hlen, hfine⟩ := ih hrest
      exact ⟨by rw [List.length_cons, hlen], List.forall_mem_cons.mpr ⟨hv, hfine⟩⟩

theorem named_of_slots {n : Nat} {values : List Value}
    (h : List.Forall₂ S.Holds (namedSlots n) values) :
    ∃ named : List (Text × Value), named.length = n ∧ values = (namedEntries named).reverse ∧
      Value.FineVars S.Known named := by
  induction n generalizing values with
  | zero =>
    cases h
    exact ⟨[], rfl, rfl, List.forall_mem_nil _⟩
  | succ n ih =>
    rw [namedSlots] at h
    obtain ⟨v, _, hv, h₁, rfl⟩ := List.forall₂_cons_left_iff.mp h
    obtain ⟨_, _, ⟨t, rfl⟩, h₂, rfl⟩ := List.forall₂_cons_left_iff.mp h₁
    obtain ⟨named, hlen, rfl, hfine⟩ := ih h₂
    refine ⟨named ++ [(t, v)], by simp [hlen], by simp [namedEntries], fun x hx => ?_⟩
    rcases List.mem_append.mp hx with hx | hx
    · exact hfine x hx
    · rw [List.mem_singleton.mp hx]
      exact hv

theorem fineVars_namedArgs {named : List (Text × Value)} (h : Value.FineVars S.Known named) :
    Value.FineVars S.Known (namedArgs named) := by
  induction named with
  | nil => exact List.forall_mem_nil _
  | cons x named ih =>
    obtain ⟨hx, hnamed⟩ := List.forall_mem_cons.mp h
    exact (ih hnamed).setField hx

theorem entries_of_callSlots {positional named : Nat} {values : List Value}
    (h : List.Forall₂ S.Holds (callSlots positional named) values) :
    ∃ (callee : Value) (ps : List Value) (ns : List (Text × Value)),
      values = (callEntries callee ps ns).reverse ∧ callee.Fine S.Known ∧
        (⟨ps, namedArgs ns⟩ : Args).Fine S.Known := by
  rw [callSlots] at h
  cases h with
  | cons hn h =>
    cases h with
    | cons hp h =>
      obtain ⟨upper, lower, rfl, hupper, hlower⟩ := split_values h
      obtain ⟨ps, below, rfl, hps, hbelow⟩ := split_values hlower
      obtain ⟨ns, hns, rfl, hfine⟩ := named_of_slots hupper
      obtain ⟨hlen, hpsfine⟩ := fine_of_replicate hps
      cases hbelow with
      | cons hcallee hnil =>
        cases hnil
        refine ⟨_, ps.reverse, ns, ?_, hcallee, ⟨?_, fineVars_namedArgs hfine⟩⟩
        · rw [hn, hp, ← hns, ← hlen]
          simp [callEntries]
        · exact fun v hv => hpsfine v (List.mem_reverse.mp hv)

/-! ## Actions -/

theorem Keeps.of_yields {x : Exec Bool} {c d : View} (h : Yields x c false d) (hd : S.Laid d) :
    S.Keeps F A x c := by
  intro s hs
  obtain ⟨s', h', hs'⟩ := h s hs
  rw [h']
  subst hs'
  exact ⟨hd.store, .inr (.inl hd)⟩

theorem Keeps.of_strays {x : Exec Bool} {c d : View} (h : Yields x c false d) (hd : Value.FineStore S.Known d.store)
    (hA : A) : S.Keeps F A x c := by
  intro s hs
  obtain ⟨s', h', hs'⟩ := h s hs
  rw [h']
  subst hs'
  exact ⟨hd, .inr (.inr hA)⟩

theorem Keeps.of_refuses {x : Exec Bool} {c d : View} {e : Trouble} (h : Refuses x c e d)
    (hd : Value.FineStore S.Known d.store) (he : e.isInternal = false ∨ e = .breakdown ∧ F ∧ S.Awaits d) :
    S.Keeps F A x c := by
  intro s hs
  obtain ⟨s', h', hs'⟩ := h s hs
  rw [h']
  subst hs'
  exact ⟨hd, he⟩

theorem Keeps.of_leads {x y : Exec Bool} {c d : View} (h : Leads x c y d) (hy : S.Keeps F A y d) :
    S.Keeps F A x c := by
  intro s hs
  obtain ⟨s', hs', h'⟩ := h s hs
  rw [h']
  exact hy s' hs'

theorem Keeps.imp {x : Exec Bool} {c : View} (h : S.Keeps F A x c) (hF : F → F') (hA : A → A') :
    S.Keeps F' A' x c := by
  intro s hs
  have h := h s hs
  split
  · rename_i heq
    rw [heq] at h
    exact h.imp_right fun h => h.imp_right fun h => h.imp_right hA
  · rename_i heq
    rw [heq] at h
    exact h.imp_right fun h => h.imp_right fun ⟨he, hf, ha⟩ => ⟨he, hF hf, ha⟩

theorem Keeps.of_push {v : Value} {c : View} (hc : Value.FineStore S.Known c.store)
    (hd : c.live.length < Stack.limit → S.Laid { c with live := v :: c.live }) :
    S.Keeps F A (Machine.push v >>= fun _ => pure false) c := by
  by_cases hroom : c.live.length < Stack.limit
  · exact .of_yields ((yields_push v c hroom).bind (yields_pure false _)) (hd hroom)
  · exact .of_refuses ((refuses_push v c hroom).bind _) hc (.inl rfl)

theorem Keeps.of_pushes {host : Host} {c : View} {k : Nat} {v : Value}
    (h : Pushes S.code host c k v) (hc : Value.FineStore S.Known c.store)
    (hd : c.live.length < Stack.limit →
      S.Laid { c with ip := Int64.ofNat (k + 1), live := v :: c.live }) :
    S.Keeps F A (Machine.step S.code host) c := by
  by_cases hroom : c.live.length < Stack.limit
  · exact .of_yields (h.room hroom) (hd hroom)
  · exact .of_refuses (h.full hroom) hc (.inl rfl)

/-! ## Steps -/

section Steps
variable {host : Host} {c d : View} {k first last : Nat} {σ : List Slot}
  {top values rest : List Value} {i : Instruction}

/-- A step within a region that leaves what lies below alone. -/
theorem Inv.move (h : S.Inv c k first last top rest) (values : List Value) {t : Nat}
    (hfirst : first ≤ t) (hlast : t ≤ last) (hip : d.ip = Int64.ofNat t) (hframes : d.frames = c.frames) (hlive : d.live = values ++ rest)
    (hvalues : List.Forall₂ S.Holds (S.layout t) values) (hheight : d.live.length ≤ Stack.limit)
    (hstore : Value.FineStore S.Known d.store) : S.Laid d := by
  have hin : S.Within (!d.frames.isEmpty) t first last := by
    rw [hframes]
    exact ⟨hfirst, hlast, h.within.2.2⟩
  have hwait : S.Waiting d.frames rest := hframes ▸ h.waiting
  exact ⟨t, first, last, values, rest, hin, hip, hlive, hvalues, hwait, hheight, hstore⟩

theorem Inv.expects (h : S.Inv c k first last top rest) (hk : k < last)
    (hlayout : S.layout (k + 1) = .any :: σ) (hvalues : List.Forall₂ S.Holds σ values)
    (hlen : values.length ≤ top.length) :
    S.Expects { c with ip := Int64.ofNat (k + 1), live := values ++ rest } (k + 1) first last σ values
      rest where
  within := ⟨Nat.le_succ_of_le h.within.1, hk, h.within.2.2⟩
  ip := rfl
  layout := hlayout
  live := rfl
  values := hvalues
  waiting := h.waiting
  height := by
    have hheight := h.height
    rw [h.live, List.length_append] at hheight
    show (values ++ rest).length ≤ Stack.limit
    rw [List.length_append]
    omega
  store := h.store

theorem Expects.laid (h : S.Expects c k first last σ values rest) {v : Value} (hv : v.Fine S.Known)
    (hroom : c.live.length < Stack.limit) : S.Laid { c with live := v :: c.live } := by
  refine ⟨k, first, last, v :: values, rest, h.within, h.ip, ?_, ?_, h.waiting, hroom, h.store⟩
  · show v :: c.live = v :: values ++ rest
    rw [h.live, List.cons_append]
  · rw [h.layout]
    exact .cons hv h.values

theorem Expects.push (h : S.Expects c k first last σ values rest) {v : Value} (hv : v.Fine S.Known) :
    S.Keeps F A (Machine.push v >>= fun _ => pure false) c :=
  .of_push h.store fun hroom => h.laid hv hroom

theorem Expects.output (h : S.Expects c k first last σ values rest) (t : Text) :
    S.Expects { c with output := t } k first last σ values rest :=
  ⟨h.within, h.ip, h.layout, h.live, h.values, h.waiting, h.height, h.store⟩

theorem Expects.make (h : S.Expects c k first last σ values rest) (n : Nat) :
    S.Expects { c with made := n } k first last σ values rest :=
  ⟨h.within, h.ip, h.layout, h.live, h.values, h.waiting, h.height, h.store⟩

/-! ### Calls -/

theorem Expects.enter (h : S.Expects c k first last σ values rest) (f : Closure) {args : Args}
    (hargs : args.Fine S.Known) :
    S.Keeps F (S.Strange (.closure f)) (Machine.enter f args >>= fun _ => pure false) c := by
  by_cases hdepth : c.frames.length + 1 < maxFrames
  · cases hb : f.bind args with
    | error e =>
      exact .of_refuses ((refuses_enter_bind hdepth hb).bind _) h.store
        (.inl (Closure.isInternal_bind hb))
    | ok vars =>
      have hstore := h.store.push (Closure.fine_bind hargs hb) (some f.env)
      have henters := (yields_enter hdepth hb).bind (f := fun _ => (pure false : Exec Bool)) (yields_pure false _)
      by_cases hf : ∃ e, f.entry = Int64.ofNat e ∧ S.entry e
      · obtain ⟨e, hentry, he⟩ := hf
        obtain ⟨stop, hle, hregion⟩ := S.bodies e he
        refine .of_yields henters ?_
        refine ⟨e, e, stop, [], c.live, ⟨Nat.le_refl e, hle, hregion⟩, hentry, rfl, ?_, ?_, h.height, hstore⟩
        · rw [hregion.starts]
          exact .nil
        · have hheight : c.live.length = (values ++ rest).length := by rw [h.live]
          have hwait : S.Waiting (⟨c.ip, c.live.length, c.env⟩ :: c.frames) (values ++ rest) :=
            .cons h.within h.ip h.layout h.values hheight h.waiting
          rw [← h.live] at hwait
          exact hwait
      · exact .of_strays henters hstore ⟨f, rfl, hf⟩
  · exact .of_refuses ((refuses_enter_deep hdepth).bind _) h.store (.inl rfl)

theorem Expects.native (h : S.Expects c k first last σ values rest) {b : Builtin} {args : Args}
    (hb : S.Known (.builtin b)) (hargs : args.Fine S.Known) :
    S.Keeps (S.Foreign (.builtin b)) A ((Machine.native host b args >>= Machine.push) >>= fun _ => pure false) c := by
  rw [bind_assoc]
  cases hcall : b.call host args with
  | ok result =>
    obtain ⟨v, written⟩ := result
    refine .of_leads ((yields_native hcall c).leads _) ?_
    exact (h.output _).push (Value.fine_of_plain (Builtin.isPlain_call hcall))
  | error r =>
    refine .of_refuses ((refuses_native hcall c).bind _) h.store ?_
    by_cases hnative : b.native = none
    · -- A builtin from outside does not accept an argument name, or nothing is known of it.
      rw [Builtin.call] at hcall
      split at hcall
      · rename_i e he
        cases hcall
        rw [Builtin.unknownName?, Option.map_eq_some_iff] at he
        obtain ⟨name, -, rfl⟩ := he
        exact .inl rfl
      · rw [hnative] at hcall
        cases hcall
        exact .inr ⟨rfl, ⟨hb hnative, b, rfl, hnative⟩, k, first, last, σ, values, rest, h⟩
    · exact .inl (Builtin.mild_call host hnative hargs r hcall)

theorem Expects.call (h : S.Expects c k first last σ values rest) {v : Value} {args : Args}
    (hv : v.Fine S.Known) (hargs : args.Fine S.Known) :
    S.Keeps (S.Foreign v) (S.Strange v) (Machine.call host v args >>= fun _ => pure false) c := by
  cases v with
  | closure f => exact .of_leads ((leads_call_closure f args).bind _) (h.enter f hargs)
  | builtin b => exact .of_leads ((leads_call_builtin b args).bind _) (h.native hv hargs)
  | text t => exact .of_refuses ((refuses_call_text t args).bind _) h.store (.inl rfl)
  | hole => exact hv.elim
  | null | bool | number | regex | record =>
    exact .of_refuses ((refuses_call_other args rfl (by intro t ht; cases ht) rfl).bind _) h.store
      (.inl rfl)

/-! ### Instructions -/

/-- Where a value is planned on top of the stack, there is one. -/
theorem Inv.uncons (h : S.Inv c k first last top rest) (hσ : S.layout k = .any :: σ) :
    ∃ v values, top = v :: values ∧ v.Fine S.Known ∧ List.Forall₂ S.Holds σ values ∧
      c.live = v :: (values ++ rest) := by
  have hvalues := h.values
  rw [hσ] at hvalues
  obtain ⟨v, values, hv, hlower, rfl⟩ := List.forall₂_cons_left_iff.mp hvalues
  exact ⟨v, values, rfl, hv, hlower, by rw [h.live, List.cons_append]⟩

theorem Inv.fits_push (h : S.Inv c k first last top rest) (hk : k < last) (hi : S.code.Holds k i)
    {v : Value} {s : Slot} (hop : i.op = .push) (hv : S.code.constants[k]? = some v)
    (hs : s.Takes v) (hlayout : S.layout (k + 1) = s :: S.layout k) :
    S.Keeps F A (Machine.step S.code host) c := by
  refine .of_pushes (pushes_constant hi hop hv h.ip) h.store fun hroom => ?_
  refine h.move (v :: top) (Nat.le_succ_of_le h.within.1) hk rfl rfl ?_ ?_ hroom h.store
  · show v :: c.live = v :: top ++ rest
    rw [h.live, List.cons_append]
  · rw [hlayout]
    exact .cons (holds_of_takes hs) h.values

theorem Inv.fits_load (h : S.Inv c k first last top rest) (hk : k < last) (hi : S.code.Holds k i)
    (hop : i.op = .tryLoad ∨ i.op = .tryCall)
    (hlayout : S.layout (k + 1) = .any :: S.layout k) : S.Keeps (S.CallsOut c) (S.CallsStrange c) (Machine.step S.code host) c := by
  have hexp := h.expects hk hlayout h.values (Nat.le_refl _)
  rw [← h.live] at hexp
  have hfine := h.store.loaded c.env i.name
  rcases hop with hop | hop
  · exact .of_pushes (pushes_load hi hop h.ip) h.store fun hroom => hexp.laid hfine hroom
  · cases hc : Value.isCallable ((c.store.get? c.env i.name).getD (.text i.name)) with
    | false => exact .of_pushes (pushes_bare hi hop h.ip rfl hc) h.store fun hroom =>
        hexp.laid hfine hroom
    | true =>
      cases hv : c.store.get? c.env i.name with
      | none =>
        rw [hv] at hc
        cases hc
      | some v =>
        rw [hv, Option.getD_some] at hc hfine
        have hargs : ({} : Args).Fine S.Known := ⟨List.forall_mem_nil _, List.forall_mem_nil _⟩
        have hcalls : Calls S.code c v := ⟨k, i, h.ip, hi, .inl ⟨hop, hv⟩⟩
        exact .of_leads (leads_bare_call hi hop h.ip hv hc)
          ((hexp.call hfine hargs).imp (fun hf => ⟨v, hcalls, hf⟩) fun hA => ⟨v, hcalls, hA⟩)

theorem Inv.fits_make (h : S.Inv c k first last top rest) (hk : k < last) (hi : S.code.Holds k i)
    (hop : i.op = .makeFunction) (hlayout : S.layout (k + 1) = .any :: S.layout k) :
    S.Keeps F A (Machine.step S.code host) c := by
  have hexp := h.expects hk hlayout h.values (Nat.le_refl _)
  rw [← h.live] at hexp
  exact .of_leads (leads_makeFunction hi hop h.ip) ((hexp.make _).push trivial)

theorem Inv.fits_keep (h : S.Inv c k first last top rest) (hk : k < last) (hi : S.code.Holds k i)
    (hop : i.op = .store ∨ i.op = .dotGet) (hσ : S.layout k = .any :: σ)
    (hlayout : S.layout (k + 1) = .any :: σ) : S.Keeps F A (Machine.step S.code host) c := by
  obtain ⟨v, values, rfl, hv, hlower, hlive⟩ := h.uncons hσ
  rcases hop with hop | hop
  · refine .of_yields (yields_store_step hi hop h.ip hlive) ?_
    refine h.move (v :: values) (Nat.le_succ_of_le h.within.1) hk rfl rfl h.live ?_ h.height
      (h.store.set hv _ _)
    rw [hlayout]
    exact .cons hv hlower
  · have hexp := h.expects hk hlayout hlower (Nat.le_succ _)
    refine .of_leads (leads_field hi hop h.ip hlive) ?_
    cases ho : outcome (fieldOf i.name v) with
    | ok w =>
      refine .of_leads (((stateless_fieldOf i.name v).yields ho _).leads _) ?_
      exact hexp.push (Value.fine_fieldOf hv ho)
    | error e =>
      refine .of_refuses (((stateless_fieldOf i.name v).refuses ho _).bind _) h.store ?_
      exact .inl (mild_fieldOf i.name hv e ho)

theorem Inv.fits_binary (h : S.Inv c k first last top rest) (hk : k < last) (hi : S.code.Holds k i)
    {f : Value → Value → Exec Value} (hop : operation i.op = some f)
    (hσ : S.layout k = .any :: .any :: σ) (hlayout : S.layout (k + 1) = .any :: σ) :
    S.Keeps F A (Machine.step S.code host) c := by
  have hvalues := h.values
  rw [hσ] at hvalues
  obtain ⟨b, upper, hb, hupper, rfl⟩ := List.forall₂_cons_left_iff.mp hvalues
  obtain ⟨a, values, ha, hlower, rfl⟩ := List.forall₂_cons_left_iff.mp hupper
  have hlive : c.live = b :: a :: (values ++ rest) := by rw [h.live, List.cons_append, List.cons_append]
  have hexp := h.expects hk hlayout hlower (by simp only [List.length_cons]; omega)
  have hleads : Leads (Machine.step S.code host) c
      (f a b >>= fun v => Machine.push v >>= fun _ => pure false)
      { c with ip := Int64.ofNat (k + 1), live := values ++ rest } := by
    refine (hi.leads h.ip).trans ?_
    rw [hlive]
    exact leads_operation (c := { c with ip := Int64.ofNat (k + 1) }) hop
  refine .of_leads hleads ?_
  cases ho : outcome (f a b) with
  | ok v =>
    refine .of_leads (((stateless_operation hop a b).yields ho _).leads _) ?_
    exact hexp.push (Value.fine_of_plain (Value.isPlain_operation hop ho))
  | error e =>
    refine .of_refuses (((stateless_operation hop a b).refuses ho _).bind _) h.store ?_
    exact .inl (mild_operation hop ha hb e ho)

theorem Inv.fits_dup (h : S.Inv c k first last top rest) (hk : k < last) (hi : S.code.Holds k i)
    (hop : i.op = .dup) (hσ : S.layout k = .any :: σ) (hlayout : S.layout (k + 1) = .any :: .any :: σ) :
    S.Keeps F A (Machine.step S.code host) c := by
  obtain ⟨v, values, rfl, hv, hlower, hlive⟩ := h.uncons hσ
  have hexp := h.expects hk hlayout (.cons hv hlower) (Nat.le_refl _)
  rw [← h.live] at hexp
  exact .of_pushes (pushes_dup hi hop h.ip hlive) h.store fun hroom => hexp.laid hv hroom

theorem Inv.fits_pop (h : S.Inv c k first last top rest) (hk : k < last) (hi : S.code.Holds k i)
    (hop : i.op = .pop) (hσ : S.layout k = .any :: σ) (hlayout : S.layout (k + 1) = σ) :
    S.Keeps F A (Machine.step S.code host) c := by
  obtain ⟨v, values, rfl, hv, hlower, hlive⟩ := h.uncons hσ
  refine .of_yields (yields_pop_step hi hop h.ip hlive) ?_
  have hheight := h.height
  rw [hlive, List.length_cons] at hheight
  exact h.move values (Nat.le_succ_of_le h.within.1) hk rfl rfl rfl (hlayout ▸ hlower)
    (Nat.le_of_succ_le hheight) h.store

theorem Inv.fits_concat (h : S.Inv c k first last top rest) (hk : k < last) (hi : S.code.Holds k i)
    {n : Nat} (hop : i.op = .strConcat) (hn : i.count = Int64.ofNat n)
    (hσ : S.layout k = List.replicate n .any ++ σ) (hlayout : S.layout (k + 1) = .any :: σ) :
    S.Keeps F A (Machine.step S.code host) c := by
  have hvalues := h.values
  rw [hσ] at hvalues
  obtain ⟨parts, values, rfl, hparts, hlower⟩ := split_values hvalues
  obtain ⟨hlen, hfine⟩ := fine_of_replicate hparts
  have hexp := h.expects hk hlayout hlower (by simp only [List.length_append]; omega)
  have hheight := h.height
  rw [h.live, List.append_assoc, List.length_append] at hheight
  have hlive : c.live = parts.reverse.reverse ++ (values ++ rest) := by
    rw [h.live, List.reverse_reverse, List.append_assoc]
  refine .of_leads (leads_concat hi hop h.ip hlive ?_ ?_ ?_) (hexp.push trivial)
  · rw [hn, List.length_reverse, hlen]
  · rw [List.length_reverse]
    omega
  · exact Value.any_isHole_of_fine fun v hv => hfine v (List.mem_reverse.mp hv)

theorem Inv.fits_jumpIf (h : S.Inv c k first last top rest) (hk : k < last) (hi : S.code.Holds k i)
    {t : Nat} (stopOn : Bool) (hop : i.op = if stopOn then .jumpIfTrue else .jumpIfFalse)
    (ht : i.target = Int64.ofNat t) (hfirst : first ≤ t) (hlast : t ≤ last)
    (htarget : S.layout t = σ) (hσ : S.layout k = .any :: σ) (hlayout : S.layout (k + 1) = σ) :
    S.Keeps F A (Machine.step S.code host) c := by
  obtain ⟨v, values, rfl, hv, hlower, hlive⟩ := h.uncons hσ
  have hheight := h.height
  rw [hlive, List.length_cons] at hheight
  refine .of_yields (yields_jumpIf stopOn hi hop h.ip hlive (Value.Fine.not_hole hv)) ?_
  by_cases hjump : v.isTruthy = stopOn
  · rw [if_pos hjump]
    exact h.move values hfirst hlast ht rfl rfl (htarget ▸ hlower)
      (Nat.le_of_succ_le hheight) h.store
  · rw [if_neg hjump]
    exact h.move values (Nat.le_succ_of_le h.within.1) hk rfl rfl rfl (hlayout ▸ hlower)
      (Nat.le_of_succ_le hheight) h.store

theorem Inv.fits_call (h : S.Inv c k first last top rest) (hk : k < last) (hi : S.code.Holds k i)
    {positional named : Nat} (hop : i.op = .call)
    (hσ : S.layout k = callSlots positional named ++ σ) (hlayout : S.layout (k + 1) = .any :: σ) :
    S.Keeps (S.CallsOut c) (S.CallsStrange c) (Machine.step S.code host) c := by
  have hvalues := h.values
  rw [hσ] at hvalues
  obtain ⟨entries, values, rfl, hentries, hlower⟩ := split_values hvalues
  obtain ⟨callee, ps, ns, rfl, hcallee, hargs⟩ := entries_of_callSlots hentries
  have hexp := h.expects hk hlayout hlower (by simp only [List.length_append]; omega)
  have hlive : c.live = (callEntries callee ps ns).reverse ++ (values ++ rest) := by
    rw [h.live, List.append_assoc]
  have hheight := h.height
  have hentries : (callEntries callee ps ns).length = ps.length + 2 * ns.length + 3 := by
    have hnamed : (namedEntries ns).length = 2 * ns.length := by
      induction ns with
      | nil => rfl
      | cons x ns ih => simp [namedEntries]; omega
    simp [callEntries, hnamed]
    omega
  rw [hlive, List.length_append, List.length_reverse, hentries] at hheight
  have hcalls : Calls S.code c callee := ⟨k, i, h.ip, hi, .inr ⟨hop, ps, ns, _, hlive⟩⟩
  exact .of_leads (leads_call_step hi hop h.ip hlive (by omega) (by omega))
    ((hexp.call hcallee hargs).imp (fun hf => ⟨callee, hcalls, hf⟩) fun hA => ⟨callee, hcalls, hA⟩)

/-- A step from an instruction that is not the last one of its region. -/
theorem Inv.step_inner (h : S.Inv c k first last top rest) (hk : k < last) :
    S.Keeps (S.CallsOut c) (S.CallsStrange c) (Machine.step S.code host) c := by
  obtain ⟨hfirst, -, hregion⟩ := h.within
  obtain ⟨i, hi, hfits⟩ := hregion.inner k hfirst hk
  generalize hσ : S.layout k = σ at hfits
  generalize hlayout : S.layout (k + 1) = ρ at hfits
  cases hfits with
  | push hop hv hs => exact h.fits_push hk hi hop hv hs (hlayout.trans (congrArg _ hσ.symm))
  | make hop _ _ => exact h.fits_make hk hi hop (hlayout.trans (congrArg _ hσ.symm))
  | plain heffect =>
    cases heffect with
    | load hop => exact h.fits_load hk hi hop (hlayout.trans (congrArg _ hσ.symm))
    | keep hop => exact h.fits_keep hk hi hop hσ hlayout
    | binary hop => exact h.fits_binary hk hi hop hσ hlayout
    | dup hop => exact h.fits_dup hk hi hop hσ hlayout
    | pop hop => exact h.fits_pop hk hi hop hσ hlayout
    | concat hop hn => exact h.fits_concat hk hi hop hn hσ hlayout
    | call hop => exact h.fits_call hk hi hop hσ hlayout
  | jump hop ht hl =>
    obtain ⟨hlow, hhigh, htarget⟩ := hl
    refine .of_yields (yields_jump hi hop h.ip) ?_
    exact h.move top hlow hhigh ht rfl h.live ((htarget.trans hσ.symm) ▸ h.values) h.height h.store
  | jumpIf stopOn hop ht hl =>
    obtain ⟨hlow, hhigh, htarget⟩ := hl
    exact h.fits_jumpIf hk hi stopOn hop ht hlow hhigh htarget hσ hlayout

/-- The last step of a region. The main part halts, and a body goes back to where it was called. -/
theorem Inv.step_last (h : S.Inv c last first last top rest) :
    S.Keeps (S.CallsOut c) (S.CallsStrange c) (Machine.step S.code host) c := by
  obtain ⟨-, -, hregion⟩ := h.within
  obtain ⟨i, hi, hop⟩ := hregion.final
  obtain ⟨v, _, rfl, hv, hnil, hlive⟩ := h.uncons hregion.ends
  cases hnil
  rw [List.nil_append] at hlive
  have hheight := h.height
  rw [hlive, List.length_cons] at hheight
  have hwait := h.waiting
  generalize hframes : c.frames = frames at hop hwait
  cases hwait with
  | nil =>
    intro s hs
    have hhalt : Yields (Machine.step S.code host) c true _ := yields_halt hi hop h.ip
    obtain ⟨s', h', hs'⟩ := hhalt s hs
    rw [h']
    have hstore : s'.store = c.store := congrArg View.store hs'
    exact ⟨hstore ▸ h.store, .inl rfl⟩
  | @cons f frames k first last σ values rest hin hret hlayout hvalues hbase hrest =>
    refine .of_yields (yields_return hi hop h.ip hlive hframes hbase hheight) ?_
    refine ⟨k, first, last, v :: values, rest, hin, hret, hlive, ?_, hrest, h.height, h.store⟩
    rw [hlayout]
    exact .cons hv hvalues

theorem Laid.step (h : S.Laid c) : S.Keeps (S.CallsOut c) (S.CallsStrange c) (Machine.step S.code host) c := by
  obtain ⟨k, first, last, top, rest, h⟩ := h
  rcases Nat.lt_or_eq_of_le h.within.2.1 with hk | hk
  · exact h.step_inner hk
  · subst hk
    exact h.step_last

end Steps
end Plan
end Bareword.Machine
