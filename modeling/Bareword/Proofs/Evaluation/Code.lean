import Bareword.Proofs.Evaluation.Agreement

/-! # Code that does what evaluation does

Code is related to evaluation by what it does with the values on top of the stack: it takes those
that evaluation starts from and leaves those that belong to the result.

* `Ready`: the machine stands at an index, with given values on top of its stack.
* `Sim`: some code does what a computation does; `Sim.seq` puts such code together, `Sim.frame`
  leaves values below alone.
* `sim_push`, `sim_load`, `sim_operation` and so on: the instructions that do not transfer control.
* `sim_jumpOver`, `sim_branch`: the jumps of conditionals.
-/

namespace Bareword.Evaluation
set_option autoImplicit false
open Machine (View Goes Refuses Yields Trouble)

/-! ## Simulation -/

/-- The machine stands at index `q` and agrees with evaluation. The values `ins` are on top of its
stack, above `base`; `calls` more calls can be nested, and `temp` is a temporary variable of which
the value is known. -/
structure Ready (G : Ground) (calls : Nat) (temp : Option (Nat × Value)) (ins : List Value) (q : Nat)
    (pl : Place) (base : List Value) (v : View) (s : State) : Prop where
  ip : v.ip = Int64.ofNat q
  env : v.env = pl.env
  depth : v.frames.length + calls + 1 = Machine.maxFrames
  agrees : Agrees G s v
  bound : pl.env < v.store.size
  held : base.length = pl.held
  stack : ∃ bs : List Value, v.live = bs.reverse ++ base ∧ bs.map Value.erase = ins ∧
    ∀ b ∈ bs, Good G s.functions b
  limit : v.live.length ≤ Stack.limit
  piped : ∀ x ∈ temp, ∃ b, local? v.store pl.env (Gen.temporary x.1) = some b ∧ b.erase = x.2 ∧
    Good G s.functions b

/-- The code `g` does what `x` does. It takes the values `ins` from the top of the stack and leaves
`outs a` there if evaluation answers `a`, and it does not touch the first `k` temporary variables. -/
structure Sim {β : Type} (G : Ground) (calls k : Nat) (temp : Option (Nat × Value))
    (ins : List Value) (g : Gen) (x : Place → Eval β) (outs : β → List Value) : Prop where
  grows : ∀ c, c.pipes ≤ (g c).next.pipes
  run : ∀ c q pl base v s, k ≤ c.pipes → G.image.Placed g c q →
    Ready G calls temp ins q pl base v s →
    Ends G k v s (fun a => Ready G calls temp (outs a) (q + g.size c) pl base) (x pl s)

namespace Ready
variable {G : Ground} {calls k q : Nat} {temp : Option (Nat × Value)} {ins outs : List Value}
  {pl : Place} {base : List Value} {v v' : View} {s s' : State}

/-- The known temporary variable is still known after steps that keep it. -/
theorem piped_moves (h : Ready G calls temp ins q pl base v s) (hm : Moves G k v s v' s')
    (hk : ∀ x ∈ temp, x.1 ≤ k) : ∀ x ∈ temp, ∃ b, local? v'.store pl.env (Gen.temporary x.1) = some b ∧
      b.erase = x.2 ∧ Good G s'.functions b := by
  intro x hx
  obtain ⟨b, hb, he, hg⟩ := h.piped x hx
  refine ⟨b, ?_, he, hg.mono hm.functions⟩
  rw [hm.kept pl.env h.bound x.1 fun _ => hk x hx]
  exact hb

/-- The only value on top of the stack, which leaves room for another one in its place. -/
theorem top {a : Value} (h : Ready G calls temp [a] q pl base v s) :
    ∃ b, v.live = b :: base ∧ b.erase = a ∧ Good G s.functions b ∧ base.length < Stack.limit := by
  obtain ⟨bs, hlive, herase, hgood⟩ := h.stack
  obtain ⟨b, rfl, hb⟩ := List.map_eq_singleton_iff.mp herase
  have hlimit := h.limit
  rw [hlive] at hlimit
  exact ⟨b, hlive, hb, hgood b (List.mem_singleton_self b), hlimit⟩

/-- A step that only changes the values on top of the stack. -/
theorem step (h : Ready G calls temp ins q pl base v s) {q' : Nat} (bs : List Value)
    (hy : Yields (Machine.step G.image.code G.setting.host) v false
      { v with ip := Int64.ofNat q', live := bs.reverse ++ base })
    (he : bs.map Value.erase = outs) (hg : ∀ b ∈ bs, Good G s.functions b)
    (hl : (bs.reverse ++ base).length ≤ Stack.limit) :
    ∃ v', Moves G k v s v' s ∧ Ready G calls temp outs q' pl base v' s :=
  ⟨_, .step hy rfl rfl rfl List.prefix_rfl,
    ⟨rfl, h.env, h.depth, ⟨h.agrees.output, h.agrees.made, h.agrees.store⟩, h.bound, h.held,
      ⟨bs, rfl, he, hg⟩, hl, h.piped⟩⟩

/-- A step that stops in trouble and leaves the environments as they were. -/
theorem fails (h : Ready G calls temp ins q pl base v s) {i : Instruction} {trouble : Trouble}
    (hi : G.image.code.Holds q i)
    (hr : Refuses (Machine.step G.image.code G.setting.host) v trouble v')
    (hip : v'.ip = Int64.ofNat (q + 1)) (hstore : v'.store = v.store) (hmade : v'.made = v.made)
    (hout : v'.output = v.output) : Fails G v (G.setting.located i.span trouble) s :=
  ⟨v, v', trouble, q, i, .refl v, hr, hip, hi, rfl,
    ⟨hout.trans h.agrees.output, hmade.trans h.agrees.made, hstore ▸ h.agrees.store⟩⟩

end Ready

namespace Sim
variable {G : Ground} {calls k : Nat} {temp : Option (Nat × Value)} {β γ : Type}
  {ins : List Value} {g h : Gen}

/-- Code after other code, which may rely on what the first computation answers. -/
theorem seqOf {x : Place → Eval β} {y : β → Place → Eval γ} {mid : β → List Value}
    {outs : γ → List Value} {P : β → Prop} (hx : Sim G calls k temp ins g x mid)
    (hP : ∀ pl s a s', x pl s = .ok a s' → P a)
    (hy : ∀ a, P a → Sim G calls k temp (mid a) h (y a) outs) (hne : ∃ a, P a) :
    Sim G calls k temp ins (g ++ h) (fun pl => x pl >>= fun a => y a pl) outs where
  grows c := by
    obtain ⟨a, ha⟩ := hne
    exact Nat.le_trans (hx.grows c) ((hy a ha).grows _)
  run c q pl base v s hk hp hr := by
    obtain ⟨hg, hh⟩ := Image.placed_append hp
    refine (hx.run c q pl base v s hk hg hr).bind fun a v₁ s₁ hxs _ hr₁ => ?_
    have h₂ := (hy a (hP pl s a s₁ hxs)).run (g c).next _ pl base v₁ s₁
      (Nat.le_trans hk (hx.grows c)) hh hr₁
    rw [Gen.size_append, ← Nat.add_assoc]
    exact h₂

theorem seq [Nonempty β] {x : Place → Eval β} {y : β → Place → Eval γ} {mid : β → List Value}
    {outs : γ → List Value} (hx : Sim G calls k temp ins g x mid)
    (hy : ∀ a, Sim G calls k temp (mid a) h (y a) outs) :
    Sim G calls k temp ins (g ++ h) (fun pl => x pl >>= fun a => y a pl) outs :=
  hx.seqOf (P := fun _ => True) (fun _ _ _ _ _ => trivial) (fun a _ => hy a)
    ⟨Classical.ofNonempty, trivial⟩

theorem nil (a : β) {outs : β → List Value} (ho : outs a = ins) :
    Sim G calls k temp ins .nil (fun _ => pure a) outs where
  grows c := Nat.le_refl _
  run c q pl base v s _ _ hr := by
    refine ⟨v, .refl G k v s, ?_⟩
    dsimp only
    rw [ho]
    exact hr

theorem map {x : Place → Eval β} {outs : β → List Value} {outs' : γ → List Value}
    (hx : Sim G calls k temp ins g x outs) (f : β → γ) (ho : ∀ a, outs' (f a) = outs a) :
    Sim G calls k temp ins g (fun pl => x pl >>= fun a => pure (f a)) outs' where
  grows := hx.grows
  run c q pl base v s hk hp hr :=
    (hx.run c q pl base v s hk hp hr).bind fun a v₁ s₁ _ _ hr₁ => by
      refine ⟨v₁, .refl G k v₁ s₁, ?_⟩
      dsimp only
      rw [ho a]
      exact hr₁

/-- The computation may be written otherwise. -/
theorem congr {x y : Place → Eval β} {outs : β → List Value} (hx : Sim G calls k temp ins g x outs)
    (hxy : ∀ pl, x pl = y pl) : Sim G calls k temp ins g y outs :=
  (funext hxy : x = y) ▸ hx

theorem frame {x : Place → Eval β} {outs : β → List Value} (hx : Sim G calls k temp ins g x outs)
    (extra : List Value) {n : Nat} (hn : extra.length = n) :
    Sim G calls k temp (extra ++ ins) g (fun pl => x (pl.more n)) (fun a => extra ++ outs a) where
  grows := hx.grows
  run c q pl base v s hk hp hr := by
    obtain ⟨bs, hlive, herase, hgood⟩ := hr.stack
    obtain ⟨below, above, rfl, hbelow, habove⟩ := List.map_eq_append_iff.mp herase
    subst hn
    have hlen : below.length = extra.length := by rw [← hbelow, List.length_map]
    rw [List.reverse_append, List.append_assoc] at hlive
    have hr' : Ready G calls temp ins q (pl.more extra.length) (below.reverse ++ base) v s :=
      { hr with
        held := by
          rw [List.length_append, List.length_reverse, hr.held, hlen, Nat.add_comm]
          rfl
        stack := ⟨above, hlive, habove, fun b hb => hgood b (List.mem_append_right _ hb)⟩ }
    refine (hx.run c q _ _ v s hk hp hr').imp fun a v' s' hm hpost => ?_
    obtain ⟨bs', hlive', herase', hgood'⟩ := hpost.stack
    refine { hpost with held := hr.held, stack := ⟨below ++ bs', ?_, ?_, fun b hb => ?_⟩ }
    · rw [hlive', List.reverse_append, List.append_assoc]
    · rw [List.map_append, hbelow, herase']
    · rcases List.mem_append.mp hb with hb | hb
      · exact (hgood b (List.mem_append_left _ hb)).mono hm.functions
      · exact hgood' b hb

/-- Code that takes nothing from the stack, with values below. -/
theorem above {x : Place → Eval β} {outs : β → List Value} (hx : Sim G calls k temp [] g x outs)
    (extra : List Value) {n : Nat} (hn : extra.length = n) :
    Sim G calls k temp extra g (fun pl => x (pl.more n)) (fun a => extra ++ outs a) := by
  have h := hx.frame extra hn
  rw [List.append_nil] at h
  exact h

/-- Code that knows no temporary variable can be used where one is known. -/
theorem known {x : Place → Eval β} {outs : β → List Value} (hx : Sim G calls k none ins g x outs)
    (ht : ∀ y ∈ temp, y.1 ≤ k) : Sim G calls k temp ins g x outs where
  grows := hx.grows
  run c q pl base v s hk hp hr := by
    have hr' : Ready G calls none ins q pl base v s := { hr with piped := fun _ hx => nomatch hx }
    refine (hx.run c q pl base v s hk hp hr').imp fun a v' s' hm hpost => ?_
    exact { hpost with piped := hr.piped_moves hm ht }

end Sim

/-! ## Pushes -/

section Instructions
variable {G : Ground} {calls k : Nat} {temp : Option (Nat × Value)}

/-- A single instruction does what a computation does if it does so wherever it stands. -/
theorem sim_instr {β : Type} {i : Instruction} {ins : List Value} {x : Place → Eval β}
    {outs : β → List Value} (hi : i.isLabel = false)
    (h : ∀ q pl base v s, G.image.Stands q i → Ready G calls temp ins q pl base v s →
      Ends G k v s (fun a => Ready G calls temp (outs a) (q + 1) pl base) (x pl s)) :
    Sim G calls k temp ins (.instr i) x outs where
  grows c := Nat.le_refl _
  run c q pl base v s _ hp hr := by
    obtain ⟨st⟩ := Image.placed_instr hi hp
    rw [Gen.size_instr hi]
    exact h q pl base v s st hr

/-- A step that pushes a value, for a computation that holds one. -/
theorem ends_hold {q : Nat} {pl : Place} {base : List Value} {v : View} {s : State}
    {ins : List Value} {i : Instruction} {b u : Value} {outs : Value → List Value}
    (hr : Ready G calls temp ins q pl base v s) (hi : G.image.code.Holds q i)
    (hp : Machine.Pushes G.image.code G.setting.host v q b) (hg : Good G s.functions b)
    (ho : outs u = ins ++ [b.erase]) :
    Ends G k v s (fun a => Ready G calls temp (outs a) (q + 1) pl base)
      (hold G.setting i.span (pl.more ins.length) u s) := by
  obtain ⟨bs, hlive, herase, hgood⟩ := hr.stack
  have hlen : v.live.length = (pl.more ins.length).held := by
    rw [hlive, List.length_append, List.length_reverse, hr.held, ← herase, List.length_map]
    exact Nat.add_comm _ _
  rw [hold, G.capacity, ← hlen]
  by_cases hroom : v.live.length < Stack.limit
  · rw [if_pos hroom]
    have hpush := hp.room hroom
    have hcons : b :: v.live = (bs ++ [b]).reverse ++ base := by
      rw [hlive, List.reverse_append]
      rfl
    rw [hcons] at hpush
    refine hr.step _ hpush ?_ ?_ ?_
    · rw [List.map_append, herase, ho]
      rfl
    · intro x hx
      rcases List.mem_append.mp hx with hx | hx
      · exact hgood x hx
      · rw [List.mem_singleton.mp hx]
        exact hg
    · rw [← hcons]
      exact hroom
  · rw [if_neg hroom]
    exact hr.fails hi (hp.full hroom) rfl rfl rfl rfl

theorem sim_push {span : Span} {l : Literal} {u : Value} {outs : Value → List Value}
    (h : ∀ b, Value.ofLiteral l = .ok b → outs u = [b]) :
    Sim G calls k temp [] (.push span l) (fun pl => hold G.setting span pl u) outs := by
  refine sim_instr rfl fun q pl base v s st hr => ?_
  obtain ⟨b, hb, hconst⟩ := st.constant rfl
  have hplain := Value.isPlain_ofLiteral hb
  have hpush : Machine.Pushes G.image.code G.setting.host v q b :=
    Machine.pushes_constant st.holds st.keeps.op hconst hr.ip
  have hspan : st.linked.span = span := st.keeps.span
  rw [← hspan]
  refine ends_hold hr st.holds hpush (Value.fine_of_plain hplain) ?_
  rw [Value.erase_of_plain hplain]
  exact h b hb

/-- The value of a name, or the name itself, as the machine finds it. -/
theorem good_load {s : State} {v : View} (h : Agrees G s v) {name : Text}
    (hn : G.hidden name = false) (e : Nat) :
    Good G s.functions ((v.store.get? e name).getD (.text name)) ∧
      ((v.store.get? e name).getD (.text name)).erase = (s.store.get? e name).getD (.text name) := by
  rw [h.store.get? hn]
  cases hv : v.store.get? e name with
  | none => exact ⟨trivial, rfl⟩
  | some b => exact ⟨h.store.good_find? hv, rfl⟩

theorem sim_load {span : Span} {name : Text} (hn : G.hidden name = false) :
    Sim G calls k temp [] (.load span name)
      (fun pl => lookup pl name >>= fun a => hold G.setting span pl a) (fun a => [a]) := by
  refine sim_instr rfl fun q pl base v s st hr => ?_
  have hspan : st.linked.span = span := st.keeps.span
  have hname : st.linked.name = name := st.keeps.name
  have hpush : Machine.Pushes G.image.code G.setting.host v q _ :=
    Machine.pushes_load st.holds st.keeps.op hr.ip
  rw [hname, hr.env] at hpush
  obtain ⟨hgood, herase⟩ := good_load hr.agrees hn pl.env
  rw [← hspan]
  exact ends_hold hr st.holds hpush hgood (by rw [herase]; rfl)

/-- The value in the known temporary variable is held. -/
theorem sim_load_temporary {span : Span} {n : Nat} {u : Value} :
    Sim G calls k (some (n, u)) [] (.load span (Gen.temporary n))
      (fun pl => hold G.setting span pl u) (fun a => [a]) := by
  refine sim_instr rfl fun q pl base v s st hr => ?_
  have hspan : st.linked.span = span := st.keeps.span
  have hname : st.linked.name = Gen.temporary n := st.keeps.name
  obtain ⟨b, hb, herase, hgood⟩ := hr.piped (n, u) rfl
  have hpush : Machine.Pushes G.image.code G.setting.host v q _ :=
    Machine.pushes_load st.holds st.keeps.op hr.ip
  rw [hname, hr.env, get?_of_local hb, Option.getD_some] at hpush
  rw [← hspan]
  exact ends_hold hr st.holds hpush hgood (by rw [herase]; rfl)

theorem sim_dup (span : Span) (a : Value) :
    Sim G calls k temp [a] (.instr { op := .dup, span })
      (fun pl => hold G.setting span (pl.more 1) a) (fun _ => [a, a]) := by
  refine sim_instr rfl fun q pl base v s st hr => ?_
  have hspan : st.linked.span = span := st.keeps.span
  obtain ⟨b, hlive, hb, hgood, -⟩ := hr.top
  have hpush : Machine.Pushes G.image.code G.setting.host v q b :=
    Machine.pushes_dup st.holds st.keeps.op hr.ip hlive
  rw [← hspan]
  exact ends_hold hr st.holds hpush hgood (by rw [hb]; rfl)

/-! ## Operations -/

theorem sim_pop (span : Span) (a : Value) :
    Sim G calls k temp [a] (.instr { op := .pop, span }) (fun _ => pure ()) (fun _ => []) := by
  refine sim_instr rfl fun q pl base v s st hr => ?_
  obtain ⟨b, hlive, -, -, hroom⟩ := hr.top
  exact hr.step [] (Machine.yields_pop_step st.holds st.keeps.op hr.ip hlive) rfl (fun _ h => nomatch h)
    (Nat.le_of_lt hroom)

theorem ends_compute {q : Nat} {pl : Place} {base : List Value} {v : View} {s : State}
    {ins : List Value} {i : Instruction} {x y : Machine.Exec Value}
    (hr : Ready G calls temp ins q pl base v s) (hi : G.image.code.Holds q i)
    (hxy : Machine.outcome y = (Machine.outcome x).map Value.erase)
    (hok : ∀ b, Machine.outcome x = .ok b → Good G s.functions b ∧
      Yields (Machine.step G.image.code G.setting.host) v false
        { v with ip := Int64.ofNat (q + 1), live := b :: base })
    (herror : ∀ e, Machine.outcome x = .error e →
      Refuses (Machine.step G.image.code G.setting.host) v e
        { v with ip := Int64.ofNat (q + 1), live := base })
    (hroom : base.length < Stack.limit) :
    Ends G k v s (fun a => Ready G calls temp [a] (q + 1) pl base)
      (compute G.setting i.span y s) := by
  rw [compute, hxy]
  cases hx : Machine.outcome x with
  | error e => exact hr.fails hi (herror e hx) rfl rfl rfl rfl
  | ok b =>
    obtain ⟨hgood, hyields⟩ := hok b hx
    refine hr.step [b] hyields rfl ?_ hroom
    intro x hx
    rw [List.mem_singleton.mp hx]
    exact hgood

theorem sim_operation {span : Span} {op : Opcode} {f : Value → Value → Machine.Exec Value}
    (hop : Machine.operation op = some f) (a b : Value) :
    Sim G calls k temp [a, b] (.instr { op, span })
      (fun _ => compute G.setting span (f a b)) (fun a => [a]) := by
  have hlabel : ({ op, span } : Instruction).isLabel = false := by
    cases op <;> first | rfl | cases hop
  refine sim_instr hlabel fun q pl base v s st hr => ?_
  have hspan : st.linked.span = span := st.keeps.span
  have hop' : Machine.operation st.linked.op = some f := st.keeps.op ▸ hop
  obtain ⟨bs, hlive, herase, hgood⟩ := hr.stack
  obtain ⟨a', rest, rfl, rfl, hrest⟩ := List.map_eq_cons_iff.mp herase
  obtain ⟨b', rfl, rfl⟩ := List.map_eq_singleton_iff.mp hrest
  have hroom : base.length < Stack.limit := by
    have hlimit := hr.limit
    rw [hlive] at hlimit
    simp at hlimit
    omega
  rw [← hspan, Value.operation_rename _ hop]
  refine ends_compute (x := f a' b') hr st.holds ?_ ?_ ?_ hroom
  · cases hx : Machine.outcome (f a' b') with
    | error e => rfl
    | ok u =>
      show Except.ok u = Except.ok u.erase
      rw [Value.erase_of_plain (Value.isPlain_operation hop hx)]
  · intro u hu
    exact ⟨Value.fine_of_plain (Value.isPlain_operation hop hu),
      Machine.yields_operation st.holds hop' hr.ip hlive hroom hu⟩
  · intro e he
    exact Machine.refuses_operation st.holds hop' hr.ip hlive he

theorem sim_field {span : Span} {field : Text} (a : Value) :
    Sim G calls k temp [a] (.instr { op := .dotGet, name := field, span })
      (fun _ => compute G.setting span (Machine.fieldOf field a)) (fun a => [a]) := by
  refine sim_instr rfl fun q pl base v s st hr => ?_
  have hspan : st.linked.span = span := st.keeps.span
  have hname : st.linked.name = field := st.keeps.name
  obtain ⟨b, hlive, rfl, hgood, hroom⟩ := hr.top
  rw [← hspan]
  refine ends_compute hr st.holds (Value.fieldOf_rename _ field b) ?_ ?_ hroom
  · intro u hu
    refine ⟨Value.fine_fieldOf hgood hu, ?_⟩
    rw [← hname] at hu
    exact Machine.yields_field st.holds st.keeps.op hr.ip hlive hroom hu
  · intro e he
    rw [← hname] at he
    exact Machine.refuses_field st.holds st.keeps.op hr.ip hlive he

theorem sim_concat {span : Span} {vs : List Value} (hvs : vs ≠ []) :
    Sim G calls k temp vs (.instr { op := .strConcat, count := Int64.ofNat vs.length, span })
      (fun _ => pure (.text (Value.joinAll [] vs))) (fun a => [a]) := by
  refine sim_instr rfl fun q pl base v s st hr => ?_
  obtain ⟨bs, hlive, herase, hgood⟩ := hr.stack
  have hlen : bs.length = vs.length := by rw [← herase, List.length_map]
  have hpos : 0 < vs.length := List.length_pos_iff.mpr hvs
  have hlimit := hr.limit
  rw [hlive, List.length_append, List.length_reverse] at hlimit
  have hcount : st.linked.count = Int64.ofNat bs.length := by
    rw [hlen]
    exact st.keeps.count
  have hyields : Yields (Machine.step G.image.code G.setting.host) v false _ :=
    Machine.yields_concat st.holds st.keeps.op hr.ip hlive hcount (by omega)
      (Value.any_isHole_of_fine hgood) (by omega)
  rw [← Value.joinAll_rename .erasing, herase] at hyields
  refine hr.step [.text (Value.joinAll [] vs)] hyields rfl ?_ ?_
  · intro x hx
    rw [List.mem_singleton.mp hx]
    exact trivial
  · show base.length + 1 ≤ Stack.limit
    omega

/-! ## Assignments -/

/-- An assignment of the value on top, which stays there. -/
theorem sim_store {span : Span} {name : Text} (hn : G.hidden name = false) (a : Value) :
    Sim G calls k temp [a] (.instr { op := .store, name, span })
      (fun pl => modify fun s => { s with store := s.store.set pl.env name a }) (fun _ => [a]) := by
  refine sim_instr rfl fun q pl base v s st hr => ?_
  have hname : st.linked.name = name := st.keeps.name
  obtain ⟨b, hlive, rfl, hb, -⟩ := hr.top
  have hyields : Yields (Machine.step G.image.code G.setting.host) v false _ :=
    Machine.yields_store_step st.holds st.keeps.op hr.ip hlive
  rw [hname, hr.env] at hyields
  -- The machine has a store instruction for the name, so it is no temporary one.
  have hne : ∀ n, Gen.temporary n ≠ name := by
    intro n heq
    have htemp := Gen.isTemporary_temporary n
    rw [heq, ← hname] at htemp
    have hhidden := G.stores q st.linked st.holds st.keeps.op htemp
    rw [hname, hn] at hhidden
    cases hhidden
  have hlocal : ∀ j n, local? (v.store.set pl.env name b) j (Gen.temporary n) =
      local? v.store j (Gen.temporary n) := fun j n => local?_set_ne (fun _ => hne n) b
  have hsize : (v.store.set pl.env name b).size = v.store.size := by simp [Store.set]
  refine ⟨_, ⟨.single hyields, rfl, hr.env.symm, List.prefix_rfl, Nat.le_of_eq hsize.symm,
    fun j _ n _ => hlocal j n⟩, ?_⟩
  refine ⟨rfl, rfl, hr.depth, ?_, hsize ▸ hr.bound, hr.held, ⟨[b], hlive, rfl, List.forall_mem_singleton.mpr hb⟩, hr.limit, ?_⟩
  · exact ⟨hr.agrees.output, hr.agrees.made, hr.agrees.store.set hn hb pl.env⟩
  · intro x hx
    obtain ⟨u, hu, hrest⟩ := hr.piped x hx
    exact ⟨u, (hlocal pl.env x.1).trans hu, hrest⟩

/-- The value on top goes into a temporary variable whose number is larger than `k`. -/
theorem ends_store_temporary {span : Span} {n q : Nat} {pl : Place} {base : List Value} {v : View}
    {s : State} {a : Value} (hk : k < n)
    (st : G.image.Stands q { op := .store, name := Gen.temporary n, span })
    (hr : Ready G calls none [a] q pl base v s) :
    ∃ v', Moves G k v s v' s ∧ Ready G calls (some (n, a)) [a] (q + 1) pl base v' s := by
  have hname : st.linked.name = Gen.temporary n := st.keeps.name
  obtain ⟨b, hlive, rfl, hb, -⟩ := hr.top
  have hyields : Yields (Machine.step G.image.code G.setting.host) v false _ :=
    Machine.yields_store_step st.holds st.keeps.op hr.ip hlive
  rw [hname, hr.env] at hyields
  have hhidden : G.hidden (Gen.temporary n) = true := by
    have htemp := Gen.isTemporary_temporary n
    rw [← hname] at htemp ⊢
    exact G.stores q st.linked st.holds st.keeps.op htemp
  have hsize : (v.store.set pl.env (Gen.temporary n) b).size = v.store.size := by simp [Store.set]
  refine ⟨_, ⟨.single hyields, rfl, hr.env.symm, List.prefix_rfl, Nat.le_of_eq hsize.symm, ?_⟩, ?_⟩
  · intro j _ m hm
    refine local?_set_ne (fun hj heq => ?_) b
    have hmk := hm (hj.trans hr.env.symm)
    have hmn := Gen.temporary_injective heq
    omega
  · refine ⟨rfl, rfl, hr.depth, ?_, hsize ▸ hr.bound, hr.held, ⟨[b], hlive, rfl, List.forall_mem_singleton.mpr hb⟩, hr.limit, ?_⟩
    · exact ⟨hr.agrees.output, hr.agrees.made, hr.agrees.store.set_hidden hhidden hb pl.env⟩
    · intro x hx
      cases hx
      exact ⟨b, local?_set_self hr.bound _ b, rfl, hb⟩

/-! ## Jumps -/

/-- A conditional jump drops the value on top and goes on after it or at its target. -/
theorem Ready.jumpIf {q target : Nat} {pl : Place} {base : List Value} {v : View} {s : State}
    {i : Instruction} {a : Value} (stopOn : Bool) (ins : List Value) (hr : Ready G calls temp (ins ++ [a]) q pl base v s)
    (hi : G.image.code.Holds q i) (hop : i.op = if stopOn then .jumpIfTrue else .jumpIfFalse)
    (ht : i.target = Int64.ofNat target) :
    ∃ v', Moves G k v s v' s ∧
      Ready G calls temp ins (if a.isTruthy = stopOn then target else q + 1) pl base v' s := by
  obtain ⟨bs, hlive, herase, hgood⟩ := hr.stack
  obtain ⟨below, top, rfl, hbelow, htop⟩ := List.map_eq_append_iff.mp herase
  obtain ⟨b, rfl, rfl⟩ := List.map_eq_singleton_iff.mp htop
  rw [List.reverse_append, List.reverse_singleton, List.append_assoc, List.singleton_append] at hlive
  have hb := hgood b (List.mem_append_right _ (List.mem_singleton_self b))
  have hyields : Yields (Machine.step G.image.code G.setting.host) v false _ :=
    Machine.yields_jumpIf stopOn hi hop hr.ip hlive hb.not_hole
  have hip : (if b.isTruthy = stopOn then i.target else Int64.ofNat (q + 1)) =
      Int64.ofNat (if b.erase.isTruthy = stopOn then target else q + 1) := by
    rw [Value.isTruthy_rename, ht]
    split <;> rfl
  rw [hip] at hyields
  refine hr.step below hyields hbelow (fun x hx => hgood x (List.mem_append_left _ hx)) ?_
  have hlimit := hr.limit
  rw [hlive] at hlimit
  exact Nat.le_of_succ_le hlimit

/-- A jump over some code that is taken if the value on top counts as `stopOn`. -/
theorem sim_jumpOver {β : Type} {span : Span} {g : Gen} {ins : List Value} {x : Place → Eval β}
    {outs : β → List Value} (stopOn : Bool) (hg : Sim G calls k temp ins g x outs) (a : Value) (r : β)
    (ho : outs r = ins) :
    Sim G calls k temp (ins ++ [a]) (.jumpOver (if stopOn then .jumpIfTrue else .jumpIfFalse) span g)
      (fun pl => if a.isTruthy = stopOn then pure r else x pl) outs where
  grows := hg.grows
  run c q pl base v s hk hp hr := by
    have hlabel : (if stopOn then Opcode.jumpIfTrue else Opcode.jumpIfFalse) ≠ .label := by
      cases stopOn <;> decide
    obtain ⟨⟨i, hi, hop, -, ht⟩, hplaced⟩ := Image.placed_jumpOver hlabel hp
    obtain ⟨v₁, hmoves, hr₁⟩ := hr.jumpIf (k := k) stopOn ins hi hop ht
    have hsize : q + (Gen.jumpOver (if stopOn then .jumpIfTrue else .jumpIfFalse) span g).size c =
        q + 1 + g.size c := by
      rw [Gen.size_jumpOver hlabel]
      omega
    rw [hsize]
    by_cases htruth : a.isTruthy = stopOn
    · rw [if_pos htruth] at hr₁ ⊢
      refine ⟨v₁, hmoves, ?_⟩
      dsimp only
      rw [ho]
      exact hr₁
    · rw [if_neg htruth] at hr₁ ⊢
      exact Ends.after hmoves (hg.run c (q + 1) pl base v₁ s hk hplaced hr₁)

/-- The label names the index after the code. -/
def EndsAt (G : Ground) (label : Text) (g : Gen) : Prop :=
  ∀ c q, G.image.Placed g c q → G.image.table.lookup label = some (q + g.size c)

/-- A branch of a conditional, whose block goes on at the label after the other branches. -/
theorem sim_branch {β : Type} {span : Span} {label : Text} {block rest : Gen}
    {x y : Place → Eval β} {outs : β → List Value} (hx : Sim G calls k temp [] block x outs)
    (hy : Sim G calls k temp [] rest y outs) (hend : EndsAt G label rest) (a : Value) :
    Sim G calls k temp [a]
      (.jumpOver .jumpIfFalse span (block ++ .instr { op := .jump, mode := .label, label, span }) ++
        rest)
      (fun pl => if a.isTruthy then x pl else y pl) outs where
  grows c := Nat.le_trans (hx.grows c) (hy.grows _)
  run c q pl base v s hk hp hr := by
    obtain ⟨hover, hrest⟩ := Image.placed_append hp
    obtain ⟨⟨i, hi, hop, -, ht⟩, hplaced⟩ := Image.placed_jumpOver (by decide) hover
    obtain ⟨hblock, hjump⟩ := Image.placed_append hplaced
    obtain ⟨st⟩ := Image.placed_instr rfl hjump
    obtain ⟨target, htarget, hlinked⟩ := st.label_target rfl
    rw [hend _ _ hrest] at htarget
    cases htarget
    have hsize : (Gen.jumpOver .jumpIfFalse span
        (block ++ .instr { op := .jump, mode := .label, label, span })).size c =
          (block ++ .instr { op := .jump, mode := .label, label, span }).size c + 1 :=
      Gen.size_jumpOver (by decide) _ _ _
    rw [Gen.size_append, ← Nat.add_assoc]
    obtain ⟨v₁, hmoves, hr₁⟩ := Ready.jumpIf (k := k) false [] hr hi hop ht
    refine Ends.after hmoves ?_
    cases htruth : a.isTruthy with
    | true =>
      rw [if_neg (by simp [htruth])] at hr₁
      rw [if_pos rfl]
      have hrun := hx.run c (q + 1) pl base v₁ s hk hblock hr₁
      refine hrun.andThen fun r v₂ s₂ _ hr₂ => ?_
      obtain ⟨bs, hlive, herase, hgood⟩ := hr₂.stack
      have hyields : Yields (Machine.step G.image.code G.setting.host) v₂ false _ :=
        Machine.yields_jump st.holds st.keeps.op hr₂.ip
      rw [hlinked, hlive] at hyields
      exact hr₂.step bs hyields herase hgood (hlive ▸ hr₂.limit)
    | false =>
      rw [if_pos htruth] at hr₁
      rw [if_neg (by simp)]
      have hstart : q + 1 + (block ++ .instr { op := .jump, mode := .label, label, span }).size c =
          q + (Gen.jumpOver .jumpIfFalse span
            (block ++ .instr { op := .jump, mode := .label, label, span })).size c := by
        rw [hsize]
        omega
      rw [hstart] at hr₁
      exact hy.run _ _ pl base v₁ s (Nat.le_trans hk (hx.grows c)) hrest hr₁

theorem endsAt_append {label : Text} {h : Gen} (hend : EndsAt G label h) (g : Gen) :
    EndsAt G label (g ++ h) := by
  intro c q hp
  rw [hend _ _ (Image.placed_append hp).2, Gen.size_append, Nat.add_assoc]

theorem endsAt_label (label : Text) (span : Span) :
    EndsAt G label (.instr { op := .label, name := label, span }) :=
  fun _ _ hp => hp.loaded.1

theorem sim_label {label : Text} {span : Span} {β : Type} {ins : List Value} (a : β)
    {outs : β → List Value} (ho : outs a = ins) :
    Sim G calls k temp ins (.instr { op := .label, name := label, span }) (fun _ => pure a) outs where
  grows c := Nat.le_refl _
  run c q pl base v s _ _ hr := by
    refine ⟨v, .refl G k v s, ?_⟩
    dsimp only
    rw [ho]
    exact hr

theorem sim_withEnd {β : Type} {ins : List Value} {g : Text → Gen} {x : Place → Eval β}
    {outs : β → List Value} (h : ∀ label, Sim G calls k temp ins (g label) x outs) :
    Sim G calls k temp ins (.withEnd g) x outs where
  grows c := (h _).grows { c with conditionals := c.conditionals + 1 }
  run c q pl base v s hk hp hr :=
    (h _).run { c with conditionals := c.conditionals + 1 } q pl base v s hk ⟨hp.loaded, hp.bodies⟩ hr

end Instructions
end Bareword.Evaluation
